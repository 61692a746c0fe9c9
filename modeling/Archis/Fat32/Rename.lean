/-
  Renaming on a volume with a tree.

  Between two directories the new entry is written first, so for a moment two entries refer to the same chain.  The
  image at the end is the one that comes from marking first (`Image.setBytes_comm`).
-/
import Archis.Fat32.FsSound

namespace Archis.Fat32

open Archis.Lib
open List hiding IsChain

/-! ## Two chains written one after the other -/

namespace Image

variable {A A' : Image} {n : ℕ}

theorem setBytes_data_of_mem : ∀ (A A' : Image) (l : List ℕ) (buf : List UInt8) {c : ℕ}, c ∈ l →
    (A.setBytes n l buf).data c = (A'.setBytes n l buf).data c
  | A, A', x :: l, buf, c, hc => by
    rw [setBytes, setBytes]
    by_cases hcl : c ∈ l
    · exact setBytes_data_of_mem _ _ l _ hcl
    · obtain rfl : c = x := (mem_cons.1 hc).resolve_right hcl
      rw [setBytes_data_of_notMem _ _ _ hcl, setBytes_data_of_notMem _ _ _ hcl, setData_data,
        setData_data, if_pos rfl, if_pos rfl]

theorem ext {A A' : Image} (hfat : ∀ c, A.fat c = A'.fat c) (hdata : ∀ c, A.data c = A'.data c) : A = A' := by
  obtain ⟨f, d⟩ := A
  obtain ⟨f', d'⟩ := A'
  obtain rfl : f = f' := funext hfat
  obtain rfl : d = d' := funext hdata
  rfl

theorem setBytes_comm (A : Image) {l m : List ℕ} (hlm : l.Disjoint m) (x y : List UInt8) :
    (A.setBytes n l x).setBytes n m y = (A.setBytes n m y).setBytes n l x := by
  refine ext (fun c => ?_) fun c => ?_
  · simp only [setBytes_fat]
  by_cases hcl : c ∈ l
  · have hcm : c ∉ m := fun h => hlm hcl h
    rw [setBytes_data_of_notMem _ _ _ hcm]
    exact setBytes_data_of_mem _ _ _ _ hcl
  · rw [setBytes_data_of_notMem _ _ x hcl]
    by_cases hcm : c ∈ m
    · exact setBytes_data_of_mem _ _ _ _ hcm
    · rw [setBytes_data_of_notMem _ _ _ hcm, setBytes_data_of_notMem _ _ _ hcm, setBytes_data_of_notMem _ _ _ hcl]

end Image

section
variable {b : Bpb} {v : Vol} {A A' : Image} {H : Heads} {d p q t j : ℕ} {l news : List ℕ}
  {e : DirEntryView}

theorem Grown.setBytes (hg : Grown b A t news A') (hl : ∀ c ∈ news, c ∉ l) (x : List UInt8) :
    Grown b (A.setBytes b.clusterSize l x) t news (A'.setBytes b.clusterSize l x) where
  chain := hg.chain.congr fun c _ => by rw [Image.setBytes_fat]
  free := fun c hc => by rw [Image.setBytes_fat]; exact hg.free c hc
  zero := fun c hc => by rw [Image.setBytes_data_of_notMem _ _ _ (hl c hc)]; exact hg.zero c hc
  fat := fun c hc hc' => by rw [Image.setBytes_fat, Image.setBytes_fat]; exact hg.fat c hc hc'
  data := by
    intro c hc
    by_cases hcl : c ∈ l
    · exact Image.setBytes_data_of_mem _ _ _ _ hcl
    · rw [Image.setBytes_data_of_notMem _ _ _ hcl, Image.setBytes_data_of_notMem _ _ _ hcl, hg.data c hc]

/-! ## The two branches -/

/-- The entry `e` has gone from `p`, and one with the new name and the same data has come to `q`, unless the scan
does not reach it. -/
structure Renamed (b : Bpb) (v : Vol) (A : Image) (H : Heads) (p : ℕ) (e : DirEntryView) (q : ℕ)
    (toLeaf : List Char) (w : Vol) (A' : Image) (H' : Heads) : Prop where
  moves : Moves b v A H (fun d ss => d = p ∧ ss = e.slotStart) w A' H'
  dirs : H'.dirs = H.dirs
  files : H'.files = H.files
  entry : lfnCount toLeaf ≤ 256 → ∃ e', HasEntry A' H' q e' ∧ ¬ HasEntry A H q e' ∧ e'.IsRef ∧
    e'.attr = e.attr ∧ e'.firstCluster = e.firstCluster ∧ e'.size = e.size
  hidden : 256 < lfnCount toLeaf → ∀ e', HasEntry A' H' q e' → HasEntry A H q e'

def Unmoved (b : Bpb) (v : Vol) (A : Image) (H : Heads) (w : Vol) : Prop :=
  ∃ A' H', Moves b v A H nowhere w A' H' ∧ H'.dirs = H.dirs ∧ H'.files = H.files

theorem Sound.unmoved (h : Sound b v A H) : Unmoved b v A H v :=
  ⟨A, H, h.moves_self nowhere, rfl, rfl⟩

theorem Heads.putDir_dirs_of_mem (hd : d ∈ H.dirs) : (H.putDir d l).dirs = H.dirs :=
  Set.insert_eq_of_mem hd

theorem HasRef.spec {s : Slot} (hr : HasRef A H p j s) :
    slotAttr s &&& ATTR_VOLUME_ID = 0 ∧ slotCluster s < 2 ^ 32 ∧ ofLe (slice s 28 4) < 2 ^ 32 := by
  have hs : s.length = 32 := length_of_mem_chunks (mem_of_getElem? hr.1.2)
  refine ⟨hr.2.1.2.2, slotCluster_lt hs, ?_⟩
  have h1 := ofLe_lt (slice s 28 4)
  rwa [length_slice (by omega)] at h1

/-- The directory `p` may have grown; everything else is as it was. -/
def Stays (b : Bpb) (v : Vol) (A : Image) (H : Heads) (p : ℕ) (w : Vol) : Prop :=
  ∃ A' H' k, Moves b v A H nowhere w A' H' ∧ H'.dirs = H.dirs ∧ H'.files = H.files ∧
    Rewrites A H A' H' p (padded b A H p k)

theorem Stays.unmoved {w : Vol} (h : Stays b v A H p w) : Unmoved b v A H w := by
  obtain ⟨A', H', -, hm, hdirs, hfiles, -⟩ := h
  exact ⟨A', H', hm, hdirs, hfiles⟩

theorem Sound.stays (h : Sound b v A H) (p : ℕ) : Stays b v A H p v :=
  ⟨A, H, 0, h.moves_self nowhere, rfl, rfl, .padded b A H p⟩

theorem Sound.renameIn (h : Sound b v A H) (hb : b.Covers) (hf : b.Fits) {parent : DirEntryView}
    {fromLeaf toLeaf : List Char} (hp : parent.firstCluster ∈ H.dirs) (hfrom : ¬ IsDotName fromLeaf)
    : wp (Fat32.renameIn b parent fromLeaf toLeaf) (fun _ w => ∃ e A' H',
    findName (A.entries (H.chain parent.firstCluster)) fromLeaf = some e ∧
    (∀ e' ∈ A.entries (H.chain parent.firstCluster), asciiLower e'.longName = asciiLower toLeaf →
    e'.slotStart = e.slotStart) ∧ Renamed b v A H parent.firstCluster e parent.firstCluster toLeaf w
    A' H' ∧ Rewrites A H A' H' parent.firstCluster
    (appendBuf b.clusterSize (markDeleted e.slotCount e.slotStart
    (A.bytes (H.chain parent.firstCluster))) (movedSlots e toLeaf
    (A.entries (H.chain parent.firstCluster))))) (fun err w => (∃ n, err = .err n) ∧
    Stays b v A H parent.firstCluster w) v := by
  have hchain := h.tree.isChain hp
  have hlen := h.image.length_bytes hchain.range
  rw [Fat32.renameIn, wp_bind, wp_readDev (h.image.readChain hf hchain)]
  cases hfind : findName (decodeDirEntries (A.bytes (H.chain parent.firstCluster))) fromLeaf with
  | none =>
    simp only [hfind]
    exact ⟨⟨_, rfl⟩, h.stays _⟩
  | some e =>
    simp only [hfind]
    rw [wp_bind, wp_get]
    split_ifs with hopen hexists
    · exact ⟨⟨_, rfl⟩, h.stays _⟩
    · exact ⟨⟨_, rfl⟩, h.stays _⟩
    obtain ⟨j, s, hv, rfl, href⟩ := h.tree.exists_ref ⟨hp, (findName_spec hfind).1⟩
      (not_isDotName_of_findName hfind hfrom)
    obtain ⟨buf, hbuf, hlen', -, -⟩ := h.tree.markEntry h.image hp hv href.2
    obtain ⟨htrim, hgone, hcarried, hold, hpassed⟩ := markDeleted_slots hv href.2 hbuf
    rw [← Image.slots] at htrim hcarried hold
    rw [← hbuf, movedSlots]
    obtain ⟨hvol, hfc, hsize⟩ := href.spec
    have hpoints := h.tree.points _ j s href
    have hshort := goodShort_uniqueShortName toLeaf (decodeDirEntries (A.bytes (H.chain parent.firstCluster)))
    refine (h.image.appendEntries hb hf hchain hlen' (length_of_mem_encodeEntrySlots hshort.length)).mono ?_ ?_
    · rintro - w ⟨news, A', t, ht, hg, hw, hlen''⟩
      obtain ⟨hedit, hentry, hhidden⟩ := h.tree.appendEntry
        (X := fun d ss => d = parent.firstCluster ∧ ss = _) hb hp hlen' htrim ht hg hvol hfc hsize
        rfl hlen'' rfl hpoints (fun h2 d' j' s' hr heq => by
          obtain ⟨rfl, rfl⟩ := h.tree.unique d' j' s' _ j s hr href (by rw [heq]; exact h2) heq
          exact ⟨rfl, fun hs' => hgone s' hs' hr.2.1⟩)
        ⟨fun i t ht => (hcarried.kept i t ht).imp_left fun heq => ⟨rfl, heq⟩, fun i t ht =>
          (hcarried.old i t ht).imp_right fun h1 k u hu hX => h1 k u hu fun heq => hX ⟨rfl, heq⟩⟩
        hold (fun i t hi hX => hi.slotStart_inj hv hX.2 ▸ hpassed)
      refine ⟨_, _, _, hfind, fun e' he' hname => ?_, ⟨h.moves hw hedit ?_,
        Heads.putDir_dirs_of_mem hp, rfl, hentry, hhidden⟩, ?_⟩
      · by_contra hne
        refine hexists (any_eq_true.2 ⟨e', he', ?_⟩)
        rw [Bool.and_eq_true, bne_iff_ne]
        exact ⟨eqIgnoreAsciiCase_iff.2 hname, hne⟩
      · rintro d ss ⟨rfl, rfl⟩
        rw [isOpen, Bool.not_eq_true, Option.isSome_eq_false_iff, Option.isNone_iff_eq_none] at hopen
        exact hopen
      · rw [← hbuf]
        exact h.tree.rewrites_grown hp ht hg hlen''
    · rintro - w ⟨rfl, news, A', t, ht, hw, hg, -⟩
      exact ⟨⟨_, rfl⟩, _, _, news.length, h.moves hw (h.tree.growDir h.image hp ht hg nowhere) fun _ _ hF => hF.elim,
        Heads.putDir_dirs_of_mem hp, rfl, h.tree.rewrites_padded hp ht hg⟩

theorem Sound.fsRenameSameDir (h : Sound b v A H) (hb : b.Covers) (hf : b.Fits)
    {parentPath fromLeaf toLeaf : List Char} (hplain : ∀ c ∈ components parentPath, ¬ IsDotName c)
    (hfrom : ¬ IsDotName fromLeaf) : wp (Fat32.fsRenameSameDir b parentPath fromLeaf toLeaf) (fun _ w => ∃ p e A' H',
    DirAt b A H (components parentPath) p ∧ findName (A.entries (H.chain p)) fromLeaf = some e ∧
    Renamed b v A H p e p toLeaf w A' H') (fun _ => Unmoved b v A H) v := by
  rw [Fat32.fsRenameSameDir, wp_bind, wp_readDev_iff]
  refine ⟨fun parent hparent => ?_, fun _ _ => h.unmoved⟩
  have hdir := h.tree.resolveAndLockDir_ok h.image hf hplain hparent
  refine (h.renameIn hb hf (hdir.mem h.tree) hfrom).mono ?_ fun _ _ hw => hw.2.unmoved
  rintro - w ⟨e, A', H', hfind, -, hw, -⟩
  exact ⟨parent.firstCluster, e, A', H', hdir, hfind, hw⟩

theorem resolveBoth_ok {fromPath toPath : List Char} {dev : Dev} {x y : DirEntryView}
    (h : resolveBoth b fromPath toPath dev = .ok (x, y)) :
    resolveAndLockDir b fromPath dev = .ok x ∧ resolveAndLockDir b toPath dev = .ok y := by
  unfold resolveBoth at h
  split_ifs at h
  · obtain ⟨x', h1, h2⟩ := except_bind_eq_ok.1 h
    obtain ⟨y', h3, h4⟩ := except_bind_eq_ok.1 h2
    cases h4
    exact ⟨h1, h3⟩
  · obtain ⟨y', h1, h2⟩ := except_bind_eq_ok.1 h
    obtain ⟨x', h3, h4⟩ := except_bind_eq_ok.1 h2
    cases h4
    exact ⟨h3, h1⟩

section
variable (h : Sound b v A H) (hb : b.Covers) (hf : b.Fits)
include h hb hf

/-- **The new entry is appended to `q`, then the old one marked in `p`.** -/
theorem Sound.moveEntry (hp : p ∈ H.dirs) (hq : q ∈ H.dirs) (hpq : p ≠ q) (he : HasEntry A H p e)
    (hname : ¬ IsDotName e.longName) (hopen : v.openFiles (p, e.slotStart) = none) (toLeaf : List Char) : wp (do
        appendEntries b q (A.bytes (H.chain q)) (movedSlots e toLeaf (A.entries (H.chain q)))
        writeChain b p (markDeleted e.slotCount e.slotStart (A.bytes (H.chain p))))
      (fun _ w => ∃ A' H' A₁ H₁, Renamed b v A H p e q toLeaf w A' H' ∧
        Rewrites A H A₁ H₁ p (markDeleted e.slotCount e.slotStart (A.bytes (H.chain p))) ∧
        Rewrites A₁ H₁ A' H' q (appendBuf b.clusterSize (A.bytes (H.chain q))
          (movedSlots e toLeaf (A.entries (H.chain q)))))
      (fun err w => (∃ n, err = .err n) ∧ Stays b v A H q w) v := by
  obtain ⟨j, s, hv, rfl, href⟩ := h.tree.exists_ref he hname
  obtain ⟨buf, hbuf, hlen, hmark, hrefs⟩ := h.tree.markEntry h.image hp hv href.2
  rw [← hbuf, movedSlots]
  obtain ⟨hvol, hfc, hsize⟩ := href.spec
  have hdisj := h.tree.chains.disjoint p (.inl hp) q (.inl hq) hpq
  have hchain := h.tree.isChain hq
  have hlenq := h.image.length_bytes hchain.range
  have hshort := goodShort_uniqueShortName toLeaf (A.entries (H.chain q))
  -- the directory `q` after the entry in `p` has been marked
  have hsame : (A.setBytes b.clusterSize (H.chain p) buf).bytes (H.chain q) = A.bytes (H.chain q) :=
    (h.tree.apart_setBytes hp buf).bytes hq (.symm hpq)
  refine (h.image.appendEntries hb hf hchain hlenq (length_of_mem_encodeEntrySlots hshort.length)).seq' ?_ ?_
  · rintro - w ⟨news, A', t, ht, hg, hw, hlen'⟩
    have hnew : ∀ c ∈ news, c ∉ H.chain p := fun c hc hcp => hg.notMem (h.tree.isChain hp) hcp hc
    have hchain' : IsChain b (A'.setBytes b.clusterSize (H.chain q ++ news)
        (appendBuf b.clusterSize (A.bytes (H.chain q)) (encodeEntrySlots toLeaf
          (uniqueShortName toLeaf (A.entries (H.chain q))) (slotAttr s) (slotCluster s)
          (ofLe (slice s 28 4))))) p (H.chain p) := by
      refine (h.tree.isChain hp).congr fun c hc => ?_
      rw [Image.setBytes_fat]
      refine hg.fat c ?_ fun hcn => hnew c hcn hc
      rintro rfl
      exact hdisj hc (mem_of_getLast? ht)
    refine (hw.image.writeChain hb hchain' hlen).mono (fun _ x hx => ?_) fun _ _ hF => hF.elim
    rw [Image.setBytes_comm A' (by
      intro c hc hcp
      rcases mem_append.1 hc with hc | hc
      · exact hdisj hcp hc
      · exact hnew c hc hcp)] at hx
    obtain ⟨hedit, hentry, hhidden⟩ := hmark.tree.appendEntry (X := nowhere) hb hq
      hlenq (by rw [← hsame]; exact .refl _) ht
      (hg.setBytes hnew buf) hvol hfc hsize rfl hlen' rfl (h.tree.points p j s href)
      (fun h2 d' j' s' hr heq => absurd (h.tree.unique d' j' s' p j s (hrefs d' j' s' hr).1 href
        (by rw [heq]; exact h2) heq) (hrefs d' j' s' hr).2)
      (by rw [← hsame]; exact .refl _ _) (by rw [← hsame]; exact fun i t hi => ⟨hi, rfl⟩)
      (fun _ _ _ hF => hF.elim)
    have hentries : ∀ e', HasEntry (A.setBytes b.clusterSize (H.chain p) buf) H q e' ↔
        HasEntry A H q e' := by
      intro e'
      rw [HasEntry, HasEntry, Image.entries, hsame, Image.entries]
    refine ⟨_, _, _, H, ⟨h.moves (hw.trans hx) (hmark.trans (hedit.mono fun _ _ hF => hF.elim)) ?_,
      Heads.putDir_dirs_of_mem hq, rfl, fun hle => ?_, fun hlt e' he' => ?_⟩,
      h.tree.rewrites_set hp hlen, hmark.tree.rewrites_grown hq ht (hg.setBytes hnew buf) hlen'⟩
    · rintro d ss ⟨rfl, rfl⟩
      exact hopen
    · obtain ⟨e', h1, h2, h3⟩ := hentry hle
      exact ⟨e', h1, fun h4 => h2 ((hentries e').2 h4), h3⟩
    · exact (hentries e').1 (hhidden hlt e' he')
  · rintro - w ⟨rfl, news, A', t, ht, hw, hg, -⟩
    exact ⟨⟨_, rfl⟩, _, _, news.length, h.moves hw (h.tree.growDir h.image hq ht hg nowhere) fun _ _ hF => hF.elim,
      Heads.putDir_dirs_of_mem hq, rfl, h.tree.rewrites_padded hq ht hg⟩

theorem Sound.renameBetween {fromParent toParent : DirEntryView} {fromLeaf toLeaf : List Char}
    (hp : fromParent.firstCluster ∈ H.dirs) (hq : toParent.firstCluster ∈ H.dirs)
    (hpq : fromParent.firstCluster ≠ toParent.firstCluster) (hfrom : ¬ IsDotName fromLeaf) :
    wp (Fat32.renameBetween b fromParent toParent fromLeaf toLeaf) (fun _ w => ∃ e A' H' A₁ H₁,
    findName (A.entries (H.chain fromParent.firstCluster)) fromLeaf = some e ∧
    (∀ e' ∈ A.entries (H.chain toParent.firstCluster), asciiLower e'.longName ≠ asciiLower toLeaf) ∧
    Renamed b v A H fromParent.firstCluster e toParent.firstCluster toLeaf w A' H' ∧
    Rewrites A H A₁ H₁ fromParent.firstCluster (markDeleted e.slotCount e.slotStart
    (A.bytes (H.chain fromParent.firstCluster))) ∧ Rewrites A₁ H₁ A' H' toParent.firstCluster
    (appendBuf b.clusterSize (A.bytes (H.chain toParent.firstCluster))
    (movedSlots e toLeaf (A.entries (H.chain toParent.firstCluster)))))
    (fun err w => (∃ n, err = .err n) ∧ Stays b v A H toParent.firstCluster w) v := by
  rw [Fat32.renameBetween, wp_bind, wp_readDev (h.image.readChain hf (h.tree.isChain hp))]
  cases hfind : findName (decodeDirEntries (A.bytes (H.chain fromParent.firstCluster))) fromLeaf with
  | none => exact ⟨⟨_, rfl⟩, h.stays _⟩
  | some e =>
    simp only
    rw [wp_bind, wp_get]
    split_ifs with hopen
    · exact ⟨⟨_, rfl⟩, h.stays _⟩
    rw [wp_bind, wp_readDev (h.image.readChain hf (h.tree.isChain hq))]
    split_ifs with hexists
    · exact ⟨⟨_, rfl⟩, h.stays _⟩
    rw [isOpen, Bool.not_eq_true, Option.isSome_eq_false_iff, Option.isNone_iff_eq_none] at hopen
    refine (h.moveEntry hb hf hp hq hpq ⟨hp, (findName_spec hfind).1⟩
      (not_isDotName_of_findName hfind hfrom) hopen toLeaf).imp ?_
    rintro - w ⟨A', H', A₁, H₁, hw, h1, h2⟩
    refine ⟨e, A', H', A₁, H₁, hfind, fun e' he' hname => hexists ?_, hw, h1, h2⟩
    exact any_eq_true.2 ⟨e', he', eqIgnoreAsciiCase_iff.2 hname⟩

theorem Sound.fsRenameCrossDir {fromParentPath fromLeaf toParentPath toLeaf : List Char}
    (hplain : ∀ c ∈ components fromParentPath, ¬ IsDotName c)
    (hplain' : ∀ c ∈ components toParentPath, ¬ IsDotName c) (hfrom : ¬ IsDotName fromLeaf)
    (hne : (components fromParentPath).map asciiLower ≠ (components toParentPath).map asciiLower) :
    wp (Fat32.fsRenameCrossDir b fromParentPath fromLeaf toParentPath toLeaf)
    (fun _ w => ∃ p q e A' H', DirAt b A H (components fromParentPath) p ∧
    DirAt b A H (components toParentPath) q ∧ findName (A.entries (H.chain p)) fromLeaf = some e ∧
    Renamed b v A H p e q toLeaf w A' H') (fun _ => Unmoved b v A H) v := by
  rw [Fat32.fsRenameCrossDir, wp_bind, wp_readDev_iff]
  refine ⟨fun parents hparents => ?_, fun _ _ => h.unmoved⟩
  obtain ⟨fromParent, toParent⟩ := parents
  obtain ⟨h1, h2⟩ := resolveBoth_ok hparents
  have hdir := h.tree.resolveAndLockDir_ok h.image hf hplain h1
  have hdir' := h.tree.resolveAndLockDir_ok h.image hf hplain' h2
  have hp := hdir.mem h.tree
  have hq := hdir'.mem h.tree
  have hpq : fromParent.firstCluster ≠ toParent.firstCluster := by
    intro heq
    rw [← heq] at hdir'
    exact hne (hdir.unique h.tree hdir')
  refine (h.renameBetween hb hf hp hq hpq hfrom).mono ?_ fun _ _ hw => hw.2.unmoved
  rintro - w ⟨e, A', H', A₁, H₁, hfind, -, hw, -⟩
  exact ⟨_, _, e, A', H', hdir, hdir', hfind, hw⟩

end

/-! ## `fs_rename` -/

theorem asciiLower_flatMap (cs : List (List Char)) :
    asciiLower (cs.flatMap fun c => '/' :: c) = (cs.map asciiLower).flatMap fun c => '/' :: c := by
  induction cs with
  | nil => rfl
  | cons c cs ih =>
    rw [flatMap_cons, asciiLower, map_append, map_cons, ← asciiLower, ← asciiLower, ih]
    rfl

theorem isName_asciiLower {c : List Char} (hc : IsName c) : IsName (asciiLower c) := by
  refine ⟨fun h => hc.1 (map_eq_nil_iff.1 h), fun hmem => ?_⟩
  obtain ⟨x, hx, heq⟩ := mem_map.1 hmem
  exact hc.2 (eq_of_toAsciiLower_eq (by decide) heq ▸ hx)

/-- **`fs_rename`**, in both branches: the entry at the first path has become one in the directory
of the second. -/
theorem Sound.fsRename (h : Sound b v A H) (hb : b.Covers) (hf : b.Fits) {src dst : List Char} (hsrc : Canonical src)
    (hdst : Canonical dst) : wp (Fat32.fsRename src dst) (fun _ w => ∃ cs c cs' c' p q e A' H',
    src = render (cs ++ [c]) ∧ dst = render (cs' ++ [c']) ∧ DirAt b A H cs p ∧ DirAt b A H cs' q ∧ ¬ IsDotName c ∧
    findName (A.entries (H.chain p)) c = some e ∧ Renamed b v A H p e q c' w A' H') (fun _ => Unmoved b v A H) v := by
  obtain ⟨cs, hcs, rfl⟩ := hsrc
  obtain ⟨cs', hcs', rfl⟩ := hdst
  rw [Fat32.fsRename, wp_bind, wp_readDev h.image.getBpb_eq]
  rcases eq_nil_or_concat cs with rfl | ⟨cs, c, rfl⟩
  · simp only [splitParent_root, true_or, if_true]
    exact h.unmoved
  rcases eq_nil_or_concat cs' with rfl | ⟨cs', c', rfl⟩
  · simp only [splitParent_root, or_true, if_true]
    exact h.unmoved
  simp only [concat_eq_append] at hcs hcs' ⊢
  have hc := hcs c (by simp)
  have hc' := hcs' c' (by simp)
  have hcomp : components (cs.flatMap fun c => '/' :: c) = cs :=
    components_flatMap fun x hx => (hcs x (by simp [hx])).1
  have hcomp' : components (cs'.flatMap fun c => '/' :: c) = cs' :=
    components_flatMap fun x hx => (hcs' x (by simp [hx])).1
  have hplain : ∀ x ∈ components (cs.flatMap fun c => '/' :: c), ¬ IsDotName x := by
    rw [hcomp]; exact fun x hx => (hcs x (by simp [hx])).2
  have hplain' : ∀ x ∈ components (cs'.flatMap fun c => '/' :: c), ¬ IsDotName x := by
    rw [hcomp']; exact fun x hx => (hcs' x (by simp [hx])).2
  simp only [splitParent_render hc.1, splitParent_render hc'.1, hc.1.1, hc'.1.1, or_self, if_false]
  split_ifs with hsame
  · -- the two parents have the same path, up to the case of letters
    have hlower : cs.map asciiLower = cs'.map asciiLower := by
      rw [eqIgnoreAsciiCase_iff, asciiLower_flatMap, asciiLower_flatMap] at hsame
      have hnames : ∀ {l : List (List Char)}, (∀ x ∈ l, IsName x) → ∀ x ∈ l.map asciiLower, IsName x := by
        intro l hl x hx
        obtain ⟨y, hy, rfl⟩ := mem_map.1 hx
        exact isName_asciiLower (hl y hy)
      rw [← components_flatMap (hnames fun x hx => (hcs x (by simp [hx])).1), hsame,
        components_flatMap (hnames fun x hx => (hcs' x (by simp [hx])).1)]
    refine (h.fsRenameSameDir hb hf hplain hc.2).imp ?_
    rintro - w ⟨p, e, A', H', hdir, hfind, hw⟩
    rw [hcomp] at hdir
    exact ⟨cs, c, cs', c', p, p, e, A', H', rfl, rfl, hdir, hdir.of_lower hlower, hc.2, hfind, hw⟩
  · refine (h.fsRenameCrossDir hb hf hplain hplain' hc.2 ?_).imp ?_
    · rw [hcomp, hcomp']
      intro heq
      rw [eqIgnoreAsciiCase_iff, asciiLower_flatMap, asciiLower_flatMap, heq] at hsame
      exact hsame rfl
    · rintro - w ⟨p, q, e, A', H', hdir, hdir', hfind, hw⟩
      rw [hcomp] at hdir
      rw [hcomp'] at hdir'
      exact ⟨cs, c, cs', c', p, q, e, A', H', rfl, rfl, hdir, hdir', hc.2, hfind, hw⟩

end

end Archis.Fat32
