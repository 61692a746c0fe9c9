/-
  Runs of the module's operations on a volume.

  `exec_noCrossLink`: on a sound volume whose cluster numbers fit the FAT, the chains that can be reached from the root
  end, use no free cluster and share none.  Otherwise a link may be cut to 28 bits (`createFile_links_root_to_itself`).
  `exec_openFiles` is about the open files, and `doFormat_runs` about a fresh volume.
-/
import Archis.Fat32.Rename
import Archis.Fat32.FileRuns
import Archis.Fat32.Format
import Archis.Fs.Mount

namespace Archis.Fat32

open Archis.Lib
open List hiding IsChain

/-! ## Runs -/

inductive FsOp where
  | createFile (path : List Char)
  | mkdir (path : List Char)
  | createSymlink (path target : List Char)
  | write (handle offset : ℕ) (data : List UInt8)
  | delete (path : List Char)
  | rename (src dst : List Char)
  | «open» (path : List Char) (followFinal : Bool)
  | close (handle : ℕ)

/-- The paths of a call are as the kernel passes them. -/
def FsOp.Canonical : FsOp → Prop
  | .createFile path | .mkdir path | .createSymlink path _ | .delete path | .open path _ =>
    Fat32.Canonical path
  | .rename src dst => Fat32.Canonical src ∧ Fat32.Canonical dst
  | .write _ _ _ | .close _ => True

def FsOp.run : FsOp → FsM Unit
  | .createFile path => fsCreateFile path
  | .mkdir path => fsMkdir path
  | .createSymlink path target => fsCreateSymlink path target
  | .write handle offset data => do let _ ← fsWrite handle offset data
  | .delete path => fsDelete path
  | .rename src dst => fsRename src dst
  | .open path followFinal => do let _ ← fsOpen path followFinal 256 256
  | .close handle => fsClose handle

/-- The volume after a call, whether it succeeds or fails with an error code. -/
def fsStep (v : Vol) (op : FsOp) : Option Vol :=
  match op.run v with
  | .ok _ w => some w
  | .error (.err _) w => some w
  | .error _ _ => none

def Intact (b : Bpb) (v : Vol) : Prop := ∃ A H, Sound b v A H

section
variable {b : Bpb} {v w : Vol} {A : Image} {H : Heads} {op : FsOp} {Q : Vol → Prop}

theorem Gains.intact {P : Prop} (h : Gains b v A H P w) : Intact b w := by
  obtain ⟨A', H', hm, -⟩ := h
  exact ⟨A', H', hm.sound⟩

theorem fsStep_of_wp (h : wp op.run (fun _ => Q) (fun _ => Q) v) (hstep : fsStep v op = some w) : Q w := by
  unfold fsStep at hstep
  unfold wp at h
  split at hstep
  · rename_i hrun
    rw [hrun] at h
    cases hstep
    exact h
  · rename_i hrun
    rw [hrun] at h
    cases hstep
    exact h
  · cases hstep

theorem Sound.run (h : Sound b v A H) (hb : b.Covers) (hf : b.Fits)
    (hop : op.Canonical) : wp op.run (fun _ => Intact b) (fun _ => Intact b) v := by
  cases op with
  | createFile path =>
    exact (h.fsCreateFile hb hf hop).mono (fun _ _ hw => hw.intact) fun _ _ hw => hw.intact
  | mkdir path =>
    exact (h.fsMkdir hb hf hop).mono (fun _ _ hw => hw.intact) fun _ _ hw => hw.intact
  | createSymlink path target =>
    exact (h.fsCreateSymlink hb hf hop target).mono (fun _ _ hw => hw.intact) fun _ _ hw => hw.intact
  | write handle offset data =>
    rw [FsOp.run, wp_bind]
    cases hs : Fat32.sharedOf v handle with
    | error e =>
      rw [Fat32.fsWrite, wp_bind, wp_readDev h.image.getBpb_eq, wp_bind, wp_get]
      simp only [hs]
      exact ⟨A, H, h⟩
    | ok r =>
      refine (h.fsWrite hb hf hs).mono ?_ fun _ _ hw => hw.2.intact
      rintro n w ⟨e, f, A', H', -, -, -, -, hw, -⟩
      exact ⟨A', H', hw.sound⟩
  | delete path =>
    refine (h.fsDelete hb hf hop).mono ?_ ?_
    · rintro - w ⟨cs, c, p, e, A', -, -, -, -, -, hm⟩
      exact ⟨A', _, hm.sound⟩
    · rintro - w rfl
      exact ⟨A, H, h⟩
  | rename src dst =>
    refine (h.fsRename hb hf hop.1 hop.2).mono ?_ ?_
    · rintro - w ⟨cs, c, cs', c', p, q, e, A', H', -, -, -, -, -, -, hw⟩
      exact ⟨A', H', hw.moves.sound⟩
    · rintro - w ⟨A', H', hm, -⟩
      exact ⟨A', H', hm.sound⟩
  | «open» path follow =>
    rw [FsOp.run, wp_bind]
    refine (h.fsOpen hf hop follow 256 256).mono ?_ ?_
    · rintro r w ⟨hw, -⟩
      exact ⟨A, H, hw⟩
    · rintro - w rfl
      exact ⟨A, H, h⟩
  | close handle =>
    refine (h.fsClose handle).mono ?_ ?_
    · rintro - w ⟨hw, -⟩
      exact ⟨A, H, hw⟩
    · rintro - w ⟨-, rfl⟩
      exact ⟨A, H, h⟩

theorem fsStep_intact (hb : b.Covers) (hf : b.Fits) (hv : Intact b v)
    (hop : op.Canonical) (hstep : fsStep v op = some w) : Intact b w := by
  obtain ⟨A, H, h⟩ := hv
  exact fsStep_of_wp (h.run hb hf hop) hstep

end

/-! ## Chains that share nothing -/

/-- The directories that can be reached from the root, with their clusters. -/
inductive ReachedDir (b : Bpb) (A : Image) : ℕ → List ℕ → Prop where
  | root {l : List ℕ} : IsChain b A b.rootCluster.toNat l → ReachedDir b A b.rootCluster.toNat l
  | sub {d : ℕ} {l l' : List ℕ} {e : DirEntryView} : ReachedDir b A d l →
    e ∈ decodeDirEntries (A.bytes l) → e.IsRef → e.isDir = true → IsChain b A e.firstCluster l' →
    ReachedDir b A e.firstCluster l'

/-- Who has a chain, and where it begins: the root, or the entry at a place of a directory that can be reached.
-/
inductive HasChain (b : Bpb) (A : Image) : Option (ℕ × ℕ) → ℕ → Prop where
  | root : HasChain b A none b.rootCluster.toNat
  | entry {d : ℕ} {l : List ℕ} {e : DirEntryView} : ReachedDir b A d l →
    e ∈ decodeDirEntries (A.bytes l) → e.IsRef → (e.isDir = true ∨ 2 ≤ e.firstCluster) →
    HasChain b A (some (d, e.slotStart)) e.firstCluster

/-- **No cross-links**: the chains end, have no cluster twice and no free one, and no two share a cluster. -/
structure NoCrossLink (b : Bpb) (A : Image) : Prop where
  chain : ∀ o a, HasChain b A o a → ∃ l, IsChain b A a l ∧ l.Nodup ∧ ∀ c ∈ l, A.fat c ≠ 0
  disjoint : ∀ o a o' a' l l', HasChain b A o a → HasChain b A o' a' → o ≠ o' → IsChain b A a l →
    IsChain b A a' l' → l.Disjoint l'

section
variable {b : Bpb} {v w : Vol} {A : Image} {H : Heads} {d a : ℕ} {l : List ℕ} {e : DirEntryView}

theorem HasEntry.exists_ref (he : HasEntry A H d e) (href : e.IsRef) :
    ∃ j s, Visible (A.slots (H.chain d)) j s ∧ e = entryAt (A.slots (H.chain d)) j s ∧
      HasRef A H d j s := by
  obtain ⟨hd, j, s, hv, rfl⟩ := hasEntry_iff.1 he
  exact ⟨j, s, hv, rfl, ⟨hd, hv.get⟩, hv.short, href⟩

theorem Tree.reachedDir (h : Tree b A H) (hr : ReachedDir b A d l) : d ∈ H.dirs ∧ l = H.chain d := by
  induction hr with
  | root hl => exact ⟨h.root, hl.unique (h.isChain h.root)⟩
  | sub _ he href hdir hl ih =>
    obtain ⟨hd, rfl⟩ := ih
    obtain ⟨j, s, -, rfl, hr⟩ := HasEntry.exists_ref ⟨hd, he⟩ href
    have hmem := ((h.points _ j s hr).1 (of_decide_eq_true hdir)).1
    exact ⟨hmem, hl.unique (h.isChain hmem)⟩

theorem Tree.hasChain (h : Tree b A H) {o : Option (ℕ × ℕ)} (ho : HasChain b A o a) :
    a ∈ H.all ∧ ((o = none ∧ a = b.rootCluster.toNat) ∨ ∃ d j s, HasRef A H d j s ∧
      o = some (d, (entryAt (A.slots (H.chain d)) j s).slotStart) ∧ slotCluster s = a ∧
      a ≠ b.rootCluster.toNat) := by
  cases ho with
  | root => exact ⟨.inl h.root, .inl ⟨rfl, rfl⟩⟩
  | @entry d l e hr he href hcl =>
    obtain ⟨hd, rfl⟩ := h.reachedDir hr
    obtain ⟨j, s, -, rfl, hr⟩ := HasEntry.exists_ref ⟨hd, he⟩ href
    have hp := h.points d j s hr
    by_cases hdir : SlotIsDir s
    · exact ⟨.inl (hp.1 hdir).1, .inr ⟨d, j, s, hr, rfl, rfl, (hp.1 hdir).2⟩⟩
    have h2 : 2 ≤ slotCluster s := by
      rcases hcl with h1 | h1
      · exact absurd (of_decide_eq_true h1) hdir
      · exact h1
    have hfile := hp.2 hdir h2
    refine ⟨.inr hfile, .inr ⟨d, j, s, hr, rfl, rfl, fun heq => ?_⟩⟩
    exact Set.disjoint_left.1 h.kinds h.root (heq ▸ hfile)

/-- **A tree has no cross-links.** -/
theorem Tree.noCrossLink (h : Tree b A H) : NoCrossLink b A := by
  constructor
  · intro o a ho
    have hc := h.chains.chain a (h.hasChain ho).1
    exact ⟨_, hc, hc.linked.nodup, fun c hm => hc.not_free hm⟩
  intro o a o' a' l l' ho ho' hne hl hl'
  obtain ⟨ha, hcase⟩ := h.hasChain ho
  obtain ⟨ha', hcase'⟩ := h.hasChain ho'
  rw [hl.unique (h.chains.chain a ha), hl'.unique (h.chains.chain a' ha')]
  refine h.chains.disjoint a ha a' ha' ?_
  rintro rfl
  rcases hcase with ⟨rfl, hroot⟩ | ⟨d, j, s, hr, rfl, hs, hroot⟩
  · rcases hcase' with ⟨rfl, -⟩ | ⟨d', j', s', -, -, -, hroot'⟩
    · exact hne rfl
    · exact hroot' hroot
  rcases hcase' with ⟨-, hroot'⟩ | ⟨d', j', s', hr', rfl, hs', -⟩
  · exact hroot hroot'
  -- two references to one chain are one reference
  have h2 : 2 ≤ slotCluster s := by
    rw [hs]; exact (h.chains.chain _ ha).first.1
  obtain ⟨rfl, rfl⟩ := h.unique d j s d' j' s' hr hr' h2 (hs.trans hs'.symm)
  refine hne ?_
  rw [entryAt_slotStart, entryAt_slotStart]

theorem Sound.noCrossLink (h : Sound b v A H) : NoCrossLink b (imageOf b v.dev) := by
  refine (h.tree.congr fun k hk c hc => ?_).noCrossLink
  have hr := (h.tree.chains.chain k hk).range c hc
  exact ⟨h.image.fat c hr.2, h.image.data c hr.1 hr.2⟩

/-- **No run cross-links a volume**, if it starts from a sound one whose cluster numbers fit. -/
theorem exec_noCrossLink (hb : b.Covers) (hf : b.Fits) (hv : Intact b v) {ops : List FsOp} (hops : ∀ op ∈ ops,
    op.Canonical) (hrun : exec fsStep v ops = some w) : NoCrossLink b (imageOf b w.dev) := by
  have halong : Along fsStep (fun _ op => op.Canonical) v ops :=
    .of_forall fun op hop _ => hops op hop
  obtain ⟨A, H, h⟩ := exec_induction (I := Intact b)
    (fun s op t hs hop ht => fsStep_intact hb hf hs hop ht) hv halong hrun
  exact h.noCrossLink

end

/-! ## Volumes with nothing but a root directory -/

section
variable {b : Bpb} {v : Vol} {A : Image}

def rootHeads (b : Bpb) : Heads := ⟨{b.rootCluster.toNat}, ∅, fun _ => [b.rootCluster.toNat]⟩

/-- A volume whose root directory has one cluster, and only files that have none, is sound. -/
theorem sound_rootFiles (hA : Shows b v.dev A) (hr : b.Cluster b.rootCluster.toNat)
    (heoc : A.fat b.rootCluster.toNat = EOC) (hslots : ∀ s ∈ A.slots [b.rootCluster.toNat], IsShort s → ¬ DotSlot s ∧
    ¬ SlotIsDir s ∧ slotCluster s < 2) (hopen : ∀ key, v.openFiles key = none) (hhandle : ∀ h, v.handles h = none) :
    Sound b v A (rootHeads b) := by
  have hall : (rootHeads b).all = {b.rootCluster.toNat} := Set.union_empty _
  have hchain : IsChain b A b.rootCluster.toNat [b.rootCluster.toNat] := by
    refine ⟨.last ?_, by simpa using hr⟩
    rw [Image.next_eq_none, heoc]
    rfl
  have hfile : ∀ {d j s}, HasRef A (rootHeads b) d j s → ¬ SlotIsDir s ∧ slotCluster s < 2 :=
    fun hr => (hslots _ (mem_of_getElem? hr.1.2) hr.2.1).2
  refine ⟨hA, ⟨⟨?_, ?_⟩, ?_, rfl, fun d j s hr => ?_, fun d j s d' j' s' hr _ h2 => ?_, fun d _ j s hs hdot => ?_⟩,
    ⟨⟨fun h _ => hhandle h, ?_, fun key sh hk => ?_⟩, fun d ss sh hsh => ?_, fun h o d ss e ho => ?_⟩⟩
  · rw [hall]
    rintro k rfl
    exact hchain
  · rw [hall]
    rintro k rfl m rfl hne
    exact absurd rfl hne
  · exact Set.disjoint_empty _
  · exact ⟨fun hdir => absurd hdir (hfile hr).1, fun _ h2 => absurd (hfile hr).2 (by omega)⟩
  · exact absurd (hfile hr).2 (by omega)
  · exact absurd hdot (hslots s (mem_of_getElem? hs) hdot.1).1
  · intro key
    simp [handlesAt, hhandle, hopen]
  · rw [hopen] at hk; cases hk
  · rw [hopen] at hsh; cases hsh
  · rw [hhandle] at ho; cases ho

end

theorem usedVol_sound : Sound tinyBpb usedVol usedImage (rootHeads tinyBpb) :=
  sound_rootFiles usedVol_shows (by decide) rfl (by decide +kernel) (fun _ => rfl) fun _ => rfl

theorem exec_noCrossLink_createFile : ∃ w, exec fsStep usedVol [.createFile ['/', 'a']] = some w ∧
    NoCrossLink tinyBpb (imageOf tinyBpb w.dev) := by
  have hrun : (exec fsStep usedVol [.createFile ['/', 'a']]).isSome = true := by decide +kernel
  obtain ⟨w, hw⟩ := Option.isSome_iff_exists.1 hrun
  refine ⟨w, hw, exec_noCrossLink tinyBpb_covers (by decide) ⟨_, _, usedVol_sound⟩ ?_ hw⟩
  intro op hop
  obtain rfl := mem_singleton.1 hop
  exact ⟨[['a']], by decide, rfl⟩

/-! ## The paths of the calls -/

theorem canonical_of_plain {cs : List (List Char)} (h : Fs.Plain cs) : Canonical (render cs) :=
  ⟨cs, fun c hc => ⟨(h c hc).1, not_or.2 (h c hc).2⟩, rfl⟩

/-- **From the kernel to the volume**: whatever path a program passes, it leads to a mount point, and the path behind
    the mount point, which its backend is called with, is canonical. -/
theorem lookupMp_canonical {β : Type} (t : Fs.MountTable β) (cwd path : List Char) : ∃ e ∈ t.mounts, ∃ rel,
    Fs.lookupMp t.mounts (Fs.makeAbsolute cwd path) = some (some (e.backend, rel, e.mountPoint)) ∧ Canonical rel := by
  have hp : Fs.Canonical (Fs.makeAbsolute cwd path) := by
    unfold Fs.makeAbsolute
    split_ifs <;> exact (Fs.plain_parts _).canonical
  generalize Fs.makeAbsolute cwd path = p at hp
  obtain ⟨r, hr, hroot⟩ := mem_map.1 t.root
  simp only [Fs.lookupMp, Fs.foldl_best_eq]
  cases hbest : (t.mounts.filter fun e => Fs.covers e.mountPoint p).argmax fun e => Fs.byteLen e.mountPoint with
  | none => exact absurd (mem_filter.2 ⟨hr, by rw [hroot]; rfl⟩) (argmax_eq_none.1 hbest ▸ not_mem_nil)
  | some e =>
    obtain ⟨hmem, hcov⟩ := mem_filter.1 (argmax_mem hbest)
    have he := t.canonical e hmem
    refine ⟨e, hmem, ?_⟩
    dsimp only
    split_ifs with h0
    · exact ⟨p, rfl, hp.2 ▸ canonical_of_plain hp.plain⟩
    · obtain ⟨es, hes, hpe⟩ := hp.exists_append he h0 ((Fs.covers_iff hp he).1 hcov)
      rw [hpe, Fs.strFrom_append]
      refine ⟨render es, ?_, canonical_of_plain hes⟩
      cases es <;> rfl

/-! ## Open files -/

section
variable {b : Bpb} {v w : Vol} {ops : List FsOp}

theorem exec_intact (hb : b.Covers) (hf : b.Fits) (hv : Intact b v) (hops : ∀ op ∈ ops, op.Canonical)
    (hrun : exec fsStep v ops = some w) : Intact b w :=
  exec_induction (fun _ _ _ hs hop ht => fsStep_intact hb hf hs hop ht) hv
    (.of_forall fun op hop _ => hops op hop) hrun

end

section
variable {v : Vol} {b : Bpb}

theorem fatAt_zeroed {d : Dev} {c : ℕ} (hb : b.Covers) (hc : c < b.clusterEnd)
    (h : ∀ a, a / SECTOR_SIZE ∈ fatCopy b 0 → d.bytes a = 0) : fatAt b d c = 0 := by
  have hload : load d.bytes (b.fatAddr 0 c) 4 = load (fun _ => 0) (b.fatAddr 0 c) 4 := by
    refine load_congr fun k hk => h _ ?_
    have := hb.entries
    simp only [fatCopy, Bpb.fatAddr, SECTOR_SIZE, Set.mem_Ico] at this ⊢
    omega
  rw [fatAt, hload]
  rfl

/-- **`do_format`**: the root directory has the only cluster in use, and it is zeroed. -/
theorem doFormat_becomes (hd : v.dev.Healthy) (hbpb : b = formatBpb v.dev.lbaCount) (hb : b.Covers)
    (hn : 1 ≤ b.numClusters) : wp doFormat (fun _ w => ∃ A, Becomes b v A w ∧ A.fat 2 = EOC ∧
      (∀ c, 3 ≤ c → c < b.clusterEnd → A.fat c = 0) ∧ A.data 2 = replicate b.clusterSize 0) (fun _ _ => False) v := by
  refine wp_doFormat_headers hd fun u hsame hu hboot => ?_
  rw [← hbpb] at hboot ⊢
  rw [writeTables]
  refine (wp_zeroFats b _ hu).seq ?_
  rintro - u₀ ⟨hsame₀, hu₀, hbytes⟩
  have hroot : b.rootCluster.toNat = 2 := by rw [hbpb]; rfl
  have hend : b.clusterEnd = b.numClusters + 2 := rfl
  have hboot₀ : load u₀.dev.bytes 0 SECTOR_SIZE = b.encode := by
    rw [← hboot]
    refine load_congr fun k hk => (hbytes _).2 fun j _ hmem => ?_
    rw [zero_add, fatCopy, Set.mem_Ico, Nat.div_eq_of_lt hk] at hmem
    have := hb.reserved
    omega
  have hA : Shows b u₀.dev (imageOf b u₀.dev) :=
    shows_imageOf hu₀ (by rw [hboot₀]; exact Bpb.decode_encode _ hb.valid)
  have hzero : ∀ c < b.clusterEnd, fatAt b u₀.dev c = 0 := fun c hc =>
    fatAt_zeroed hb hc fun a ha => (hbytes a).1 ⟨0, mem_range.2 hb.valid.numFats_pos, ha⟩
  refine (hA.writeFatEntry hb (by omega) _).seq fun _ u₁ h1 => (h1.image.writeFatEntry hb (by omega) _).seq
    fun _ u₂ h2 => (h2.image.writeFatEntry hb (by omega) _).seq fun _ u₃ h3 => ?_
  rw [hroot]
  refine (h3.image.writeCluster hb le_rfl (by omega) length_replicate).imp fun _ w hw => ?_
  refine ⟨_, ⟨(((hsame.trans hsame₀).trans h1.same).trans h2.same).trans (h3.same.trans hw.same), hw.image⟩, ?_, ?_, ?_⟩
  · simp [EOC, Image.setFat_fat]
  · intro c h3 hc
    have hne : c ≠ 0 ∧ c ≠ 1 ∧ c ≠ 2 := by omega
    simp only [Image.setData_fat, Image.setFat_fat, if_neg hne.1, if_neg hne.2.1, if_neg hne.2.2]
    exact hzero c hc
  · simp [Image.setData]

end

/-- **A fresh volume**, of a size for which one pass was enough: only the root directory has a cluster, and lists
    nothing.  No run of operations cross-links it. -/
theorem doFormat_runs (d : Dev) (hd : d.Healthy) (hl : d.lbaCount < 2 ^ 32)
    (hn : 1 ≤ (formatBpb d.lbaCount).numClusters) (hfit : OnePassFits d.lbaCount) (hf : (formatBpb d.lbaCount).Fits) :
    ∃ w A, doFormat (.mount d) = .ok () w ∧ Shows (formatBpb d.lbaCount) w.dev A ∧ A.entries [2] = [] ∧
    (∀ c, 3 ≤ c → c < (formatBpb d.lbaCount).clusterEnd → A.fat c = 0) ∧
    ∀ ops u, (∀ op ∈ ops, FsOp.Canonical op) → exec fsStep w ops = some u →
      NoCrossLink (formatBpb d.lbaCount) (imageOf (formatBpb d.lbaCount) u.dev) := by
  obtain ⟨b, hbpb⟩ : ∃ b, b = formatBpb d.lbaCount := ⟨_, rfl⟩
  have hentries := ((consistent_formatBpb_iff hl hn).2 hfit).entries _ (by omega) (Nat.lt_succ_self _)
  have hb : (formatBpb d.lbaCount).Covers := by
    refine ⟨formatBpb_valid hl, formatBpb_reserved _, ?_⟩
    rw [Bpb.clusterEnd]
    omega
  rw [← hbpb] at hb hn hf ⊢
  obtain ⟨⟨⟩, w, hw, A, hA, h2, hfree, hzero⟩ := exists_of_wp (doFormat_becomes (v := .mount d) hd hbpb hb hn)
  have hroot : b.rootCluster.toNat = 2 := by rw [hbpb]; rfl
  have hslots : A.slots [2] = replicate 128 zeroSlot := by
    have hsize : b.clusterSize = 128 * 32 := by rw [hbpb]; rfl
    rw [Image.slots, Image.bytes, flatMap_singleton, hzero, hsize, replicate_zero_eq, chunks_flatten (by norm_num)]
    exact fun s hs => by rw [eq_of_mem_replicate hs, length_zeroSlot]
  have hsound : Sound b w A (rootHeads b) := by
    refine sound_rootFiles hA.image ?_ (by rw [hroot]; exact h2) ?_ (fun _ => by rw [hA.same.openFiles]; rfl)
      fun _ => by rw [hA.same.handles]; rfl
    · rw [hroot]
      exact ⟨le_rfl, by rw [Bpb.clusterEnd]; omega⟩
    · rw [hroot, hslots]
      intro s hs hshort
      rw [eq_of_mem_replicate hs] at hshort
      exact absurd hshort not_isShort_zeroSlot
  refine ⟨w, A, hw, hA.image, ?_, hfree, fun ops u hops hu => ?_⟩
  · exact (congrArg (decodeSlots · 0 []) hslots).trans (decodeSlots_zeros ..)
  · obtain ⟨A', H', h'⟩ := exec_intact hb hf ⟨A, _, hsound⟩ hops hu
    exact h'.noCrossLink

theorem doFormat_runs_2MiB : ∃ w A, doFormat (.mount (blankDev 4096)) = .ok () w ∧
    Shows (formatBpb 4096) w.dev A ∧ A.entries [2] = [] ∧
    (∀ c, 3 ≤ c → c < (formatBpb 4096).clusterEnd → A.fat c = 0) ∧
    ∀ ops u, (∀ op ∈ ops, FsOp.Canonical op) → exec fsStep w ops = some u →
      NoCrossLink (formatBpb 4096) (imageOf (formatBpb 4096) u.dev) :=
  doFormat_runs (blankDev 4096) (fun _ _ => rfl) (by decide) (by decide) (by decide) (by decide)

/-! ## A volume whose cluster numbers do not fit -/

/-- `2 ^ 28 + 1` clusters of one sector, and a FAT with an entry for each. -/
def wideBpb : Bpb := ⟨512, 1, 1, 1, 4194304, 2, 0, 272629762, 0⟩

/-- The root directory has one cluster, in which all entries are deleted; the other clusters are
    free. -/
def wideImage : Image where
  fat c := if c = 2 then EOC else 0
  data c := replicate 512 (if c = 2 then 0xE5 else 0)

/-- The volume after the cluster in front of the last has been allocated and freed again. -/
def wideVol : Vol :=
  { Vol.mount (devOf wideBpb wideImage) with nextFreeHint := 2 ^ 28 + 2, bootstrapped := true }

theorem wideBpb_covers : wideBpb.Covers := ⟨⟨rfl, by decide, by decide, by decide⟩, by decide, by decide⟩

theorem wideVol_shows : Shows wideBpb wideVol.dev wideImage := by
  refine shows_devOf wideBpb_covers (fun c _ => ?_) fun c _ _ => length_replicate ..
  show (if c = 2 then EOC else 0) < 2 ^ 28
  split_ifs <;> decide

theorem wideVol_sound : Sound wideBpb wideVol wideImage (rootHeads wideBpb) :=
  sound_rootFiles wideVol_shows (by decide) rfl (by decide +kernel) (fun _ => rfl) fun _ => rfl

theorem wideImage_filled : Filled wideBpb wideImage (rootHeads wideBpb) := by
  intro c _ h0
  have h2 : c = 2 := by
    by_contra h2
    exact h0 (if_neg h2)
  exact ⟨2, .inl rfl, by rw [h2]; exact mem_singleton.2 rfl⟩

/-- **The root directory linked to itself**: the link to cluster `2 ^ 28 + 2` is cut to 28 bits. -/
theorem createFile_links_root_to_itself : wideBpb.Covers ∧ Sound wideBpb wideVol wideImage (rootHeads wideBpb) ∧
    Filled wideBpb wideImage (rootHeads wideBpb) ∧ (FsOp.createFile ['/', 'a']).Canonical ∧ ∃ w, exec fsStep wideVol
    [.createFile ['/', 'a']] = some w ∧ ¬ NoCrossLink wideBpb (imageOf wideBpb w.dev) := by
  refine ⟨wideBpb_covers, wideVol_sound, wideImage_filled, ⟨[['a']], by decide, rfl⟩, ?_⟩
  have hrun : (exec fsStep wideVol [.createFile ['/', 'a']]).map (fun w => (imageOf wideBpb w.dev).fat 2) = some 2 := by
    decide +kernel
  obtain ⟨w, hw, hfat⟩ := Option.map_eq_some_iff.1 hrun
  refine ⟨w, hw, fun hno => ?_⟩
  obtain ⟨l, ⟨hl, -⟩, -⟩ := hno.chain none _ .root
  refine not_linked_of_self ?_ hl
  rw [show wideBpb.rootCluster.toNat = 2 from rfl, Image.next_eq_some, hfat]
  exact ⟨by decide, rfl⟩

end Archis.Fat32
