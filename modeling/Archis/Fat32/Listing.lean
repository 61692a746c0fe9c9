/-
  What a directory lists, entry by entry: after an entry was appended (`WellFormedDir.append`) or marked as deleted
  (`WellFormedDir.markDeleted`), after zeroed clusters have come (`WellFormedDir.pad`), and when it is new.
-/
import Archis.Fat32.TreeEdit

namespace Archis.Fat32

open Archis.Lib List

/-! ## The order of the entries -/

theorem le_of_mem_decodeSlots {e : DirEntryView} {slots : List Slot} {i : ℕ} {parts : List (List ℕ)}
    (he : e ∈ decodeSlots slots i parts) : i ≤ e.slotStart + parts.length * 32 := by
  fun_induction decodeSlots slots i parts with
  | case1 => cases he
  | case2 => cases he
  | case3 _ _ _ _ _ _ ih =>
    have := ih he
    simp only [length_nil, zero_mul] at this
    omega
  | case4 _ _ _ _ _ _ _ ih =>
    have := ih he
    rw [length_append, length_singleton] at this
    omega
  | case5 _ _ _ _ _ _ _ _ ih =>
    have := ih he
    simp only [length_nil, zero_mul] at this
    omega
  | case6 _ _ _ _ _ _ _ _ ih =>
    rcases mem_cons.1 he with rfl | he
    · simp only [shortEntry]
      omega
    · have := ih he
      simp only [length_nil, zero_mul] at this
      omega

theorem decodeSlots_pairwise (slots : List Slot) (i : ℕ) (parts : List (List ℕ)) :
    (decodeSlots slots i parts).Pairwise fun e e' => e.slotStart < e'.slotStart := by
  fun_induction decodeSlots slots i parts with
  | case1 => exact .nil
  | case2 => exact .nil
  | case3 _ _ _ _ _ _ ih => exact ih
  | case4 _ _ _ _ _ _ _ ih => exact ih
  | case5 _ _ _ _ _ _ _ _ ih => exact ih
  | case6 _ _ _ _ _ _ _ _ ih =>
    refine pairwise_cons.2 ⟨fun e he => ?_, ih⟩
    have := le_of_mem_decodeSlots he
    simp only [length_nil, zero_mul] at this
    simp only [shortEntry]
    omega

theorem nodup_decodeDirEntries (buf : List UInt8) : (decodeDirEntries buf).Nodup :=
  (decodeSlots_pairwise _ _ _).imp fun h heq => by rw [heq] at h; exact h.false

theorem decodeDirEntries_ext {buf buf' : List UInt8} {l : List DirEntryView} (hl : l.Sublist (decodeDirEntries buf))
    (h : ∀ e, e ∈ decodeDirEntries buf' ↔ e ∈ l) : decodeDirEntries buf' = l := by
  have hpair := (decodeSlots_pairwise (chunks 32 buf) 0 []).sublist hl
  refine Perm.eq_of_pairwise ?_ (decodeSlots_pairwise (chunks 32 buf') 0 []) hpair ?_
  · intro e e' _ _ h1 h2
    exact absurd h1 h2.not_gt
  · exact (perm_ext_iff_of_nodup (nodup_decodeDirEntries buf') ((nodup_decodeDirEntries buf).sublist hl)).2 h

/-! ## An entry is appended -/

/-- A name of up to 255 units, without NUL and U+FFFF. -/
structure ShortEnough (name : List Char) : Prop where
  units : (utf16Encode name).length ≤ 255
  no_nul : Char.ofNat 0 ∉ name
  no_ffff : Char.ofNat 0xFFFF ∉ name

instance (name : List Char) : Decidable (ShortEnough name) :=
  decidable_of_iff ((utf16Encode name).length ≤ 255 ∧ Char.ofNat 0 ∉ name ∧ Char.ofNat 0xFFFF ∉ name)
    ⟨fun h => ⟨h.1, h.2.1, h.2.2⟩, fun h => ⟨h.1, h.2, h.3⟩⟩

theorem ShortEnough.lfnCount_le {name : List Char} (h : ShortEnough name) : lfnCount name ≤ 20 := by
  have := h.units
  rw [lfnCount]; omega

theorem ShortEnough.readsBack {name : List Char} (h : ShortEnough name) : ReadsBack name := by
  have := h.lfnCount_le
  exact ⟨h.no_ffff, by omega, by omega⟩

section
variable {b : Bpb} {buf : List UInt8} {pre : List Slot} {k : ℕ}
  {name : List Char} {attr : UInt8} {firstCluster j size : ℕ} {buf' : List UInt8} {s : Slot}

theorem Layout.append (h : Layout buf pre k) (hb : b.Valid) (hname : lfnCount name ≤ 256)
    (existing : List DirEntryView) (hattr : attr &&& ATTR_VOLUME_ID = 0)
    (hfc : firstCluster < 2 ^ 32) (hsize : size < 2 ^ 32) : ∃ r, Layout (appendBuf b.clusterSize buf
    (encodeEntrySlots name (uniqueShortName name existing) attr firstCluster size))
    (pre ++ encodeEntrySlots name (uniqueShortName name existing) attr firstCluster size) r := by
  have hshort := goodShort_uniqueShortName name existing
  have hlen : ∀ s ∈ encodeEntrySlots name (uniqueShortName name existing) attr firstCluster size,
      s.length = 32 := length_of_mem_encodeEntrySlots hshort.length
  have hslot : RefSlot (shortSlot (uniqueShortName name existing) attr firstCluster size) :=
    refSlot_shortSlot hattr hfc hsize
  have hcs := hb.clusterSize_slots
  obtain ⟨r, hr⟩ := h.appendBuf_eq (n := 16 * b.sectorsPerCluster.toNat) (Nat.mul_pos (by norm_num) hb.spc_pos) hlen
  rw [hcs]
  refine ⟨r, hr, fun s hs => ?_, fun s hs => ?_, ?_⟩
  · exact (mem_append.1 hs).elim (h.length s) (hlen s)
  · rcases mem_append.1 hs with hs | hs
    · exact h.live s hs
    obtain ⟨i, hi⟩ := mem_iff_getElem?.1 hs
    by_cases hlt : i < lfnCount name
    · exact live_of_encodeEntrySlots hname s (mem_take_iff_getElem?.2 ⟨i, hlt, hi⟩)
    have h1 := (List.getElem?_eq_some_iff.1 hi).1
    rw [length_encodeEntrySlots] at h1
    obtain rfl : i = lfnCount name := by omega
    rw [getElem?_encodeEntrySlots, Option.some.injEq] at hi
    exact hi ▸ hslot.1.live
  · rw [encodeEntrySlots, ← append_assoc, openParts_concat, hslot.1.not_lfn, if_neg (by simp)]

/-- **A new entry** comes behind the old ones. -/
theorem WellFormedDir.append (h : WellFormedDir buf) (hb : b.Valid)
    (hname : ShortEnough name) (existing : List DirEntryView)
    (hattr : attr &&& ATTR_VOLUME_ID = 0) (hfc : firstCluster < 2 ^ 32)
    (hsize : size < 2 ^ 32) (hbuf' : buf' = appendBuf b.clusterSize buf
      (encodeEntrySlots name (uniqueShortName name existing) attr firstCluster size)) :
    WellFormedDir buf' ∧ decodeDirEntries buf' = decodeDirEntries buf ++
      [⟨name, uniqueShortName name existing, attr, firstCluster, size, findEndMarker buf,
        lfnCount name + 1⟩] := by
  subst hbuf'
  obtain ⟨pre, k, hpre⟩ := h
  have hshort := goodShort_uniqueShortName name existing
  have hcs := hb.clusterSize_slots
  constructor
  · obtain ⟨r, hr⟩ := hpre.append hb (hname.lfnCount_le.trans (by norm_num)) existing hattr hfc hsize
    exact ⟨_, r, hr⟩
  · obtain ⟨r, hr⟩ := hpre.decode_appendBuf (n := 16 * b.sectorsPerCluster.toNat)
      (Nat.mul_pos (by norm_num) hb.spc_pos) (length_of_mem_encodeEntrySlots hshort.length)
    rw [hcs, hr, append_cancel_left_eq]
    exact (decodeSlots_new hname.no_nul hshort hattr hfc hsize r _).2 hname.readsBack

/-- **Zeroed clusters** at the end of a directory. -/
theorem WellFormedDir.pad (h : WellFormedDir buf) (hb : b.Valid) (k : ℕ) :
    WellFormedDir (buf ++ replicate (k * b.clusterSize) 0) ∧
      decodeDirEntries (buf ++ replicate (k * b.clusterSize) 0) = decodeDirEntries buf := by
  obtain ⟨pre, r, hpre⟩ := h
  have hcs : k * b.clusterSize = k * (16 * b.sectorsPerCluster.toNat) * 32 := by
    rw [hb.clusterSize_eq, SECTOR_SIZE]; ring
  have hlay : Layout (buf ++ replicate (k * b.clusterSize) 0) pre
      (r + k * (16 * b.sectorsPerCluster.toNat)) := by
    refine ⟨?_, hpre.length, hpre.live, hpre.closed⟩
    rw [hcs, replicate_zero_eq, replicate_add, ← append_assoc, flatten_append, hpre.eq]
  exact ⟨⟨pre, _, hlay⟩, hlay.decode_eq.trans hpre.decode_eq.symm⟩

/-! ## An entry is marked as deleted -/

theorem Layout.markDeleted (h : Layout buf pre k) (hv : Visible (chunks 32 buf) j s) :
    WellFormedDir (markDeleted (entryAt (chunks 32 buf) j s).slotCount
      (entryAt (chunks 32 buf) j s).slotStart buf) := by
  have hle := lfnBefore_le (chunks 32 buf) j
  have hlt := (List.getElem?_eq_some_iff.1 hv.get).1
  have hget := getElem?_chunks_markDeleted (lfnBefore (chunks 32 buf) j + 1)
    (j - lfnBefore (chunks 32 buf) j) buf (by omega)
  have hlen := length_markDeleted (lfnBefore (chunks 32 buf) j + 1) ((j - lfnBefore (chunks 32 buf) j) * 32) buf (by
      rw [length_chunks] at hlt
      have := Nat.div_mul_le_self buf.length 32
      omega)
  rw [entryAt_slotStart, entryAt_slotCount]
  generalize hn : lfnBefore (chunks 32 buf) j = n at *
  generalize Fat32.markDeleted (n + 1) ((j - n) * 32) buf = buf' at *
  -- the entry lies in the part that is in use
  have hj : j < pre.length := by
    by_contra hge
    have h1 := hv.get
    rw [h.chunks_eq, getElem?_append_right (by omega)] at h1
    exact not_isShort_zeroSlot (eq_of_mem_replicate (mem_of_getElem? h1) ▸ hv.short)
  have hout : ∀ i, i < j - n ∨ j < i → (chunks 32 buf')[i]? = (chunks 32 buf)[i]? := by
    intro i hi
    rw [hget, if_neg (by omega)]
  have hdrop : (chunks 32 buf').drop pre.length = replicate k zeroSlot := by
    have h1 : (chunks 32 buf).drop pre.length = replicate k zeroSlot := by
      rw [h.chunks_eq, drop_left]
    rw [← h1]
    refine ext_getElem? fun i => ?_
    rw [getElem?_drop, getElem?_drop, hout _ (by omega)]
  have htake : (chunks 32 buf).take pre.length = pre := by rw [h.chunks_eq, take_left]
  have hjs : (chunks 32 buf')[j]? = some (delSlot s) := by
    rw [hget, if_pos (by omega), hv.get]
    rfl
  refine ⟨(chunks 32 buf').take pre.length, k, ?_, fun t ht => ?_, fun t ht => ?_, ?_⟩
  · rw [← hdrop, take_append_drop, flatten_chunks (m := pre.length + k) (by norm_num)]
    rw [hlen, h.length_buf]
  · exact length_of_mem_chunks (mem_of_mem_take ht)
  · obtain ⟨i, hip, hi⟩ := mem_take_iff_getElem?.1 ht
    rw [hget] at hi
    split_ifs at hi with hin
    · obtain ⟨u, -, rfl⟩ := Option.map_eq_some_iff.1 hi
      rw [Live, slotFirst_delSlot]
      decide
    · exact h.live t (htake ▸ mem_take_iff_getElem?.2 ⟨i, hip, hi⟩)
  · rw [openParts_of_not_lfn hjs (lfnLike_delSlot s) hj]
    have h1 := openParts_of_not_lfn hv.get hv.short.not_lfn hj
    rw [htake, h.closed] at h1
    refine .trans ?_ h1.symm
    congr 1
    refine ext_getElem? fun i => ?_
    rw [getElem?_drop, getElem?_drop]
    by_cases hi : j + 1 + i < pre.length
    · rw [getElem?_take_of_lt hi, hout _ (by omega), ← htake, getElem?_take_of_lt hi]
    · rw [getElem?_take_eq_none (by omega), getElem?_eq_none (by omega)]

/-- **A deleted entry** is missing, and no other. -/
theorem WellFormedDir.markDeleted (h : WellFormedDir buf) (hv : Visible (chunks 32 buf) j s) (href : RefSlot s)
    (hbuf' : buf' = Fat32.markDeleted (entryAt (chunks 32 buf) j s).slotCount
    (entryAt (chunks 32 buf) j s).slotStart buf) : WellFormedDir buf' ∧ decodeDirEntries buf' =
    (decodeDirEntries buf).erase (entryAt (chunks 32 buf) j s) := by
  subst hbuf'
  obtain ⟨pre, k, hpre⟩ := h
  refine ⟨hpre.markDeleted hv, decodeDirEntries_ext (erase_sublist ..) fun e => ?_⟩
  obtain ⟨-, hgone, hcarried, hold, -⟩ := markDeleted_slots hv href rfl
  rw [(nodup_decodeDirEntries buf).mem_erase_iff, mem_decodeDirEntries, mem_decodeDirEntries]
  constructor
  · rintro ⟨i, t, hi, rfl⟩
    obtain ⟨h1, h2⟩ := hold i t hi
    refine ⟨fun heq => ?_, i, t, h1, h2⟩
    obtain rfl := h1.slotStart_inj hv (by rw [← h2, heq])
    exact hgone t hi.get hi.short
  · rintro ⟨hne, i, t, hi, rfl⟩
    rcases hcarried.kept i t hi with h1 | ⟨h1, h2⟩
    · obtain rfl := hi.slotStart_inj hv h1
      have h2 := hi.get
      rw [hv.get, Option.some.injEq] at h2
      exact absurd (h2 ▸ rfl) hne
    · exact ⟨i, t, h1, h2.symm⟩

/-! ## A new directory -/

/-- **A new directory** lists `.` and `..`. -/
theorem decode_newDirBuf (hb : b.Valid) {c p : ℕ} (hc : c < 2 ^ 32) (hp : p < 2 ^ 32) :
    WellFormedDir (newDirBuf b c p) ∧ decodeDirEntries (newDirBuf b c p) =
      [⟨['.'], DOT_NAME, ATTR_DIRECTORY, c, 0, 0, 1⟩, ⟨['.', '.'], DOTDOT_NAME, ATTR_DIRECTORY, p, 0, 32, 1⟩] := by
  obtain ⟨hlen, k, hchunks⟩ := chunks_newDirBuf hb c p
  obtain ⟨hl1, -, ha1, hn1, hc1, hs1⟩ := shortSlot_spec ATTR_DIRECTORY (rfl : DOT_NAME.length = 11) hc (by norm_num : 0 < 2 ^ 32)
  obtain ⟨hl2, -, ha2, hn2, hc2, hs2⟩ :=
    shortSlot_spec ATTR_DIRECTORY (rfl : DOTDOT_NAME.length = 11) hp (by norm_num : 0 < 2 ^ 32)
  have hd1 := dotSlot_makeDotEntry (.inl rfl) hc
  have hd2 := dotSlot_makeDotEntry (.inr rfl) hp
  have hcs := hb.clusterSize_slots
  have hlay : Layout (newDirBuf b c p)
      [makeDotEntry DOT_NAME ATTR_DIRECTORY c, makeDotEntry DOTDOT_NAME ATTR_DIRECTORY p] k := by
    refine ⟨?_, ?_, ?_, ?_⟩
    · rw [← flatten_chunks (n := 32) (m := 16 * b.sectorsPerCluster.toNat) (by norm_num) (hlen.trans hcs), hchunks]
      rfl
    · intro s hs
      simp only [mem_cons, not_mem_nil, or_false] at hs
      rcases hs with rfl | rfl
      · exact hl1
      · exact hl2
    · intro s hs
      simp only [mem_cons, not_mem_nil, or_false] at hs
      rcases hs with rfl | rfl
      · exact hd1.1.live
      · exact hd2.1.live
    · rw [openParts_cons, openParts_cons, hd2.1.not_lfn]
      rfl
  refine ⟨⟨_, k, hlay⟩, ?_⟩
  rw [hlay.decode_eq]
  have hshort : ∀ {s : Slot}, IsShort s → ∀ (rest : List Slot) (i : ℕ) (parts : List (List ℕ)),
      decodeSlots (s :: rest) i parts = shortEntry s i parts :: decodeSlots rest (i + 32) [] := by
    intro s hs rest i parts
    have h1 : slotAttr s ≠ ATTR_LFN := fun h1 => by
      have := hs.not_lfn
      simp only [lfnLike, h1, and_true, decide_eq_false_iff_not, not_not] at this
      exact hs.2.1 this
    rw [decodeSlots, if_neg hs.1, if_neg hs.2.1, if_neg h1, if_neg (by rw [hs.2.2]; simp)]
  rw [hshort hd1.1, hshort hd2.1]
  simp only [decodeSlots, shortEntry, makeDotEntry, ha1, hn1, hc1, hs1, ha2, hn2, hc2, hs2, if_true,
    deriveShortDisplayName_dot, deriveShortDisplayName_dotdot, length_nil, zero_mul, zero_add, Nat.sub_zero]

end

end Archis.Fat32
