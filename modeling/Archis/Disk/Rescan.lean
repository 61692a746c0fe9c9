/-
  A scan of the partition table (`scan_and_create_partitions`) after requests for partitions.

  The slots fill up in the order of the requests that are accepted (`Filled`), so that the scan finds them again with
  their numbers (`exec_rescan`), except those with the type of an unused entry (`untyped_not_found`).
-/
import Archis.Disk.Partition

namespace Archis.Disk

open Archis.Lib List

def scanSlot (entriesBuf : List UInt8) (i : ℕ) : GptM Unit :=
  let entry := GptPartitionEntry.decode (slice entriesBuf (i * GPT_ENTRY_SIZE) GPT_ENTRY_SIZE)
  if entry.isUnused then pure () else createPartitionDevice i entry

/-- `scan_and_create_partitions`, behind the flush of the cache; it returns at the first failure. -/
def scanAndCreatePartitions : GptM Unit := do
  let headerBuf ← readBytes HEADER_OFF GPT_SECTOR
  let header ← orFail (GptHeader.decode headerBuf)
  let entriesBuf ← readBytes (header.partitionEntryLba.toNat * GPT_SECTOR) ENTRIES_LEN
  (List.range (min header.numPartitionEntries.toNat GPT_MAX_ENTRIES)).forM (scanSlot entriesBuf)

def GptDisk.scan (d : GptDisk) : List PartDev := ({ d with parts := [] }.run scanAndCreatePartitions).parts

def CreatePartitionInfo.accepted (info : CreatePartitionInfo) : GptPartitionEntry := info.entry (info.endLba.getD 0)

def tableStep (s : GptDisk × List CreatePartitionInfo) (info : CreatePartitionInfo) :
    Option (GptDisk × List CreatePartitionInfo) :=
  match addPartition info s.1 with
  | .ok _ d => some (d, s.2 ++ [info])
  | .error _ d => some (d, s.2)

/-- The accepted requests fill the first slots of the table, and the device below does not fail. -/
structure Filled (d : GptDisk) (acc : List CreatePartitionInfo) : Prop where
  header : ∃ hd, HeaderAt d hd ∧ GPT_MAX_ENTRIES ≤ hd.numPartitionEntries.toNat
  entry : ∀ i info, acc[i]? = some info → Used d i ∧ slotOf d i = info.accepted
  free : ∀ i, acc.length ≤ i → ¬ Used d i
  sure : ¬ Flaky d

variable {d d' : GptDisk} {hd : GptHeader} {acc : List CreatePartitionInfo} {info : CreatePartitionInfo} {e : UInt64}
  {i : ℕ}

theorem Filled.used_iff (h : Filled d acc) : Used d i ↔ i < acc.length := by
  refine ⟨fun hu => not_le.1 fun hle => h.free i hle hu, fun hi => ?_⟩
  exact (h.entry i _ (getElem?_eq_getElem hi)).1

theorem Filled.congr (h : Filled d acc) (hs : SameTable d d') : Filled d' acc := by
  have hused : Used d' = Used d := by funext i; rw [Used, Used, hs.slotOf]
  obtain ⟨hd, hh, hn⟩ := h.header
  exact ⟨⟨hd, hs.headerAt hh, hn⟩, by rw [hused, hs.slotOf]; exact h.entry, by rw [hused]; exact h.free,
    by rw [Flaky, hs.ok]; exact h.sure⟩

theorem Filled.granted (h : Filled d acc) (hn : GPT_MAX_ENTRIES ≤ hd.numPartitionEntries.toNat)
    (hguid : info.partTypeGuid ≠ Guid.zero) (hg : Granted d hd info e i d') : Filled d' (acc ++ [info]) := by
  have hi : i = acc.length := by
    refine le_antisymm (not_lt.1 fun hlt => ?_) (not_lt.1 fun hlt => hg.free (h.used_iff.2 hlt))
    exact absurd (h.used_iff.1 (hg.first _ hlt)) (lt_irrefl _)
  subst hi
  have hkeep : ∀ j, j ≠ acc.length → (Used d' j ↔ Used d j) ∧ slotOf d' j = slotOf d j := by
    intro j hj
    rw [Used, Used, hg.slots, if_neg hj]
    exact ⟨Iff.rfl, rfl⟩
  obtain ⟨hd', hh', -, -, hn'⟩ := hg.header
  refine ⟨⟨hd', hh', hn' ▸ hn⟩, fun j info' hj => ?_, fun j hj => ?_, by rw [Flaky, hg.ok]; exact h.sure⟩
  · rcases lt_trichotomy j acc.length with hlt | rfl | hgt
    · rw [getElem?_append_left hlt] at hj
      rw [(hkeep j hlt.ne).1, (hkeep j hlt.ne).2]
      exact h.entry j info' hj
    · obtain rfl : info = info' := by simpa using hj
      rw [Used, hg.slots, if_pos rfl, CreatePartitionInfo.accepted, hg.range.1]
      exact ⟨⟨hg.lt, decide_eq_false hguid⟩, rfl⟩
    · rw [getElem?_eq_none (by simpa using hgt)] at hj
      cases hj
  · rw [length_append, length_singleton] at hj
    rw [(hkeep j (by omega)).1]
    exact h.free j (by omega)

/-- **One request** fills the next slot, or is refused. -/
theorem Filled.step (h : Filled d acc) (hguid : info.partTypeGuid ≠ Guid.zero)
    {s : GptDisk × List CreatePartitionInfo} (hstep : tableStep (d, acc) info = some s) : Filled s.1 s.2 := by
  obtain ⟨hd, hh, hn⟩ := h.header
  obtain ⟨hok, herr⟩ := wp_iff.1 (addPartition_spec hh info)
  unfold tableStep at hstep
  split at hstep
  · rename_i a d' hx
    obtain ⟨e, i, hg⟩ := hok _ _ hx
    cases hstep
    exact h.granted hn hguid hg
  · rename_i u d' hx
    obtain ⟨hwhy, hsame | ⟨e, i, hg⟩⟩ := herr _ _ hx
    · cases hstep
      exact h.congr hsame
    -- an entry was written, so none of the reasons for a refusal holds
    rcases hwhy with hf | hr | hfull
    · exact absurd hf h.sure
    · exact absurd hg.range (hr e)
    · exact absurd (hfull i hg.lt) hg.free

theorem wp_forM_scanSlot {buf : List UInt8} (l : List ℕ) {d : GptDisk} (hnf : ¬ Flaky d) :
    wp (l.forM (scanSlot buf)) (fun _ d' => d'.parts = d.parts ++ l.filterMap fun i =>
      let entry := GptPartitionEntry.decode (slice buf (i * GPT_ENTRY_SIZE) GPT_ENTRY_SIZE)
      if entry.isUnused then none else some ⟨i, entry⟩) (fun _ _ => False) d := by
  induction l generalizing d with
  | nil => exact (append_nil _).symm
  | cons i l ih =>
    change wp (scanSlot buf i >>= fun _ => l.forM (scanSlot buf)) _ _ d
    rw [wp_bind, filterMap_cons, scanSlot]
    dsimp only
    split_ifs with hu
    · exact ih hnf
    have hok : d.ok d.reqs = true := by simpa using fun h0 => hnf ⟨_, h0⟩
    simp only [createPartitionDevice, wp_bind, wp_ask, hok, if_true, wp_modify]
    refine (ih (d := { d with reqs := d.reqs + 1, parts := d.parts ++ _ }) hnf).imp fun _ d' h => ?_
    rw [h, append_assoc]
    rfl

theorem Filled.filterMap (h : Filled d acc) : ((List.range GPT_MAX_ENTRIES).filterMap fun i => if
    (slotOf d i).isUnused then none else some (⟨i, slotOf d i⟩ : PartDev)) = acc.mapIdx fun i info
    => ⟨i, info.accepted⟩ := by
  have hlen : acc.length ≤ GPT_MAX_ENTRIES := by
    by_contra hlt
    exact absurd (h.used_iff.2 (not_le.1 hlt)).1 (lt_irrefl _)
  obtain ⟨m, hm⟩ := Nat.exists_eq_add_of_le hlen
  have hrest : ∀ k, (slotOf d (acc.length + k)).isUnused = true ∨ m ≤ k := fun k => by
    by_contra hk
    rw [not_or, not_le, Bool.not_eq_true] at hk
    exact h.free _ (Nat.le_add_right _ k) ⟨by omega, hk.1⟩
  have hnone : ((List.range m).map (acc.length + ·)).filterMap (fun i =>
      if (slotOf d i).isUnused then none else some (⟨i, slotOf d i⟩ : PartDev)) = [] := by
    simp only [filterMap_eq_nil_iff, mem_map, mem_range]
    rintro _ ⟨k, hk, rfl⟩
    exact if_pos ((hrest k).resolve_right (by omega))
  have hsome : (List.range acc.length).filterMap (fun i =>
      if (slotOf d i).isUnused then none else some (⟨i, slotOf d i⟩ : PartDev)) =
      (List.range acc.length).map fun i => ⟨i, slotOf d i⟩ := by
    rw [← filterMap_eq_map]
    refine filterMap_congr fun i hi => if_neg ?_
    rw [(h.used_iff.2 (mem_range.1 hi)).2]
    exact Bool.false_ne_true
  rw [hm, range_add, filterMap_append, hnone, hsome, append_nil]
  refine ext_getElem (by simp) fun i h1 h2 => ?_
  simp only [length_map, length_range] at h1
  simp [(h.entry i _ (getElem?_eq_getElem h1)).2]

/-- **A scan** finds the accepted requests, each in its slot. -/
theorem Filled.scan (h : Filled d acc) : d.scan = acc.mapIdx fun i info => ⟨i, info.accepted⟩ := by
  obtain ⟨hd, hh, hn⟩ := h.header
  have hscan : wp scanAndCreatePartitions (fun _ d' => d'.parts = acc.mapIdx fun i info => ⟨i, info.accepted⟩)
      (fun _ _ => False) { d with parts := [] } := by
    rw [scanAndCreatePartitions]
    refine wp_readBytes (fun _ _ hf => h.sure hf) fun d₁ hs₁ => ?_
    have hhead : headerOf { d with parts := [] } = some hd := hh.1
    rw [← headerOf, hhead]
    refine wp_orFail (fun hnone => by cases hnone) fun hd' heq => ?_
    obtain rfl := Option.some.inj heq
    refine wp_readBytes (fun _ _ hf => h.sure (by rwa [Flaky, hs₁.ok] at hf)) fun d₂ hs₂ => ?_
    have hnf : ¬ Flaky d₂ := by
      rw [Flaky, hs₂.ok, hs₁.ok]
      exact h.sure
    refine (wp_forM_scanSlot _ hnf).imp fun _ d' hp => ?_
    rw [hp, hs₂.parts, hs₁.parts, nil_append, min_eq_right hn, ← h.filterMap, hh.2, hs₁.bytes]
    refine filterMap_congr fun i hi => ?_
    rw [slice_entries _ (mem_range.1 hi)]
    rfl
  obtain ⟨u, d', hrun, hp⟩ := exists_of_wp hscan
  rw [GptDisk.scan, GptDisk.run, hrun]
  exact hp

/-- **The table survives a rescan**: headers and entries are read back as they were written, and after any requests on
a fresh table a scan finds those accepted, if none has the type of an unused entry and the device below does not
fail. -/
theorem exec_rescan (h : GptHeader) (e : GptPartitionEntry) (d₀ d : GptDisk) : GptHeader.decode h.encode = some h ∧
    GptPartitionEntry.decode e.encode = e ∧ (¬ Flaky d₀ → doCreateGpt d₀ = .ok () d →
    ∀ infos : List CreatePartitionInfo, (∀ info ∈ infos, info.partTypeGuid ≠ Guid.zero) → ∀ s, exec tableStep (d, [])
    infos = some s → (headerOf s.1).isSome ∧ s.1.scan = s.2.mapIdx fun i info => ⟨i, info.accepted⟩) := by
  refine ⟨h.decode_encode, e.decode_encode, fun hnf hnew infos hok s hrun => ?_⟩
  obtain ⟨hempty, hd⟩ := (wp_iff.1 (doCreateGpt_spec d₀)).1 () d hnew
  have h₀ : Filled d [] := ⟨⟨_, hempty.header, le_rfl⟩, nofun, fun i _ => hempty.free i, by rwa [Flaky, hd]⟩
  have halong : Along tableStep (fun _ info => info.partTypeGuid ≠ Guid.zero) (d, []) infos :=
    .of_forall fun info hinfo _ => hok info hinfo
  have h := exec_induction (I := fun s => Filled s.1 s.2) (fun s info t hs hguid hstep => hs.step hguid hstep) h₀
    halong hrun
  obtain ⟨hd, hh, -⟩ := h.header
  exact ⟨by rw [hh.1]; rfl, h.scan⟩

theorem tableStep_granted (info : CreatePartitionInfo) (hh : HeaderAt d hd) (hnf : ¬ Flaky d) (hr : InRange hd info e)
    (hfree : ¬ Used d 0) :
    ∃ i t, exec tableStep (d, []) [info] = some (t, [info]) ∧ Granted d hd info e i t := by
  obtain ⟨i, a, t, ht, hg⟩ := addPartition_granted hh hnf hr ⟨0, by decide, hfree⟩
  exact ⟨i, t, by simp only [exec, tableStep, ht]; rfl, hg⟩

theorem exec_rescan_one : ∃ d t, doCreateGpt (blankDisk 4096) = .ok () d ∧ exec tableStep (d, [])
    [tenSectors 34] = some (t, [tenSectors 34]) ∧ t.scan = [⟨0, (tenSectors 34).accepted⟩] := by
  obtain ⟨d, hnew, hempty, hnf⟩ := blankDisk_created 4096
  obtain ⟨i, t, ht, -⟩ := tableStep_granted _ hempty.header hnf (tenSectors_inRange (.inl rfl)) (hempty.free 0)
  exact ⟨d, t, hnew, ht, ((exec_rescan (freshHeader 4096) (tenSectors 34).accepted _ d).2.2
    (fun ⟨_, h⟩ => by cases h) hnew _ (by decide) _ ht).2⟩

/-- A request without a type is accepted, and the scan does not find it. -/
theorem untyped_not_found : ∃ d t, doCreateGpt (blankDisk 4096) = .ok () d ∧
    exec tableStep (d, []) [{ tenSectors 34 with partTypeGuid := .zero }] =
      some (t, [{ tenSectors 34 with partTypeGuid := .zero }]) ∧ t.scan = [] := by
  obtain ⟨d, hnew, hempty, hnf⟩ := blankDisk_created 4096
  obtain ⟨i, t, ht, hg⟩ := tableStep_granted { tenSectors 34 with partTypeGuid := .zero } hempty.header hnf
    (tenSectors_inRange (.inl rfl)) (hempty.free 0)
  refine ⟨d, t, hnew, ht, ?_⟩
  obtain ⟨hd', hh', -, -, hn⟩ := hg.header
  have hfilled : Filled t [] := by
    refine ⟨⟨hd', hh', hn ▸ by decide⟩, nofun, fun j _ hj => ?_, by rwa [Flaky, hg.ok]⟩
    rw [Used, hg.slots] at hj
    split_ifs at hj with hji
    · exact absurd hj.2 (by decide)
    · exact hempty.free j hj
  exact hfilled.scan

end Archis.Disk
