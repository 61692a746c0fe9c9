/-
  Writing to a file, closing it and opening it again.

  What a new handle sees of a file comes from the directory entry, in which the size has 32 bits: the size that was
  written comes back exactly if it is below `2 ^ 32` (`reopen_iff`).
-/
import Archis.Fat32.CrossLink

namespace Archis.Fat32

open Archis.Lib List

section
variable {b : Bpb} {u v w : Vol} {A A' : Image} {H H' : Heads} {dev dev' : Dev} {follow : Bool}
  {o : OpenFile} {path : List Char}

/-! ## Paths after a write -/

section
variable (h : Tree b A H) (hA : Shows b dev A) (h' : Tree b A' H') (hA' : Shows b dev' A') (hf : b.Fits)
  (hdirs : H.dirs ⊆ H'.dirs)
  (hkeep : ∀ d ∈ H.dirs, ∀ c e, findName (A.entries (H.chain d)) c = some e → e.isDir = true →
    findName (A'.entries (H'.chain d)) c = some e)
include h hA h' hA' hf hdirs hkeep

/-- The walk to a file whose entry has become another one, while the entries of directories are as before. -/
theorem Tree.resolveLoop_edits {res : ResolveOk} {e' : DirEntryView}
    (hlast : ∀ c, findName (A.entries (H.chain res.parentCluster)) c = some res.entry →
      findName (A'.entries (H'.chain res.parentCluster)) c = some e')
    (hsym : e'.isSymlink = res.entry.isSymlink) :
    ∀ {comps : List (List Char)} {cur : ℕ}, cur ∈ H.dirs → (∀ c ∈ comps, ¬ IsDotName c) → resolveLoop b dev follow
      comps cur = .ok (.found res) → resolveLoop b dev' follow comps cur = .ok (.found { res with entry := e' })
  | [], _, _, _, hres => by cases hres
  | comp :: rest, cur, hcur, hplain, hres => by
    have hread := hA.readChain hf (h.isChain hcur)
    have hread' := hA'.readChain hf (h'.isChain (hdirs hcur))
    simp only [resolveLoop, hread, bind, Except.bind] at hres
    simp only [resolveLoop, hread', bind, Except.bind]
    cases hfind : findName (decodeDirEntries (A.bytes (H.chain cur))) comp with
    | none => rw [hfind] at hres; cases hres
    | some e =>
      rw [hfind] at hres
      simp only [resolveEntry] at hres
      split_ifs at hres with h1 h2 h3
      · obtain ⟨target, -, h4⟩ := except_bind_eq_ok.1 hres
        cases h4
      · -- the last component: the entry that has changed
        cases hres
        have hfind' : findName (decodeDirEntries (A'.bytes (H'.chain cur))) comp = some e' :=
          hlast comp hfind
        have h1' : ¬ (e'.isSymlink = true ∧ (rest ≠ [] ∨ follow = true)) := hsym ▸ h1
        simp only [hfind', resolveEntry, if_neg h1', if_pos h2]
        rfl
      · have hfind' : findName (decodeDirEntries (A'.bytes (H'.chain cur))) comp = some e :=
          hkeep cur hcur comp e hfind h3
        have hne := (h.exists_dirRef hcur (hplain comp (by simp)) hfind h3).choose_spec.choose_spec
        simp only [hfind', resolveEntry, if_neg h1, if_neg h2, if_pos h3]
        exact Tree.resolveLoop_edits hlast hsym hne.2.2.2.1 (fun x hx => hplain x (by simp [hx])) hres

/-- **The path of a file whose entry has changed.** -/
theorem Tree.resolve_edits {path : List Char} (hpath : Canonical path) (res : ResolveOk)
    {e' : DirEntryView} (hfile : res.entry.isDir = false)
    (hlast : ∀ c, findName (A.entries (H.chain res.parentCluster)) c = some res.entry →
    findName (A'.entries (H'.chain res.parentCluster)) c = some e')
    (hsym : e'.isSymlink = res.entry.isSymlink) (hres : resolve b path follow dev = .ok
    (.found res)) : resolve b path follow dev' = .ok (.found { res with entry := e' }) := by
  unfold resolve at hres ⊢
  split_ifs at hres ⊢ with h0
  · cases hres
    rw [root_isDir] at hfile; cases hfile
  · exact h.resolveLoop_edits hA h' hA' hf hdirs hkeep hlast hsym h.root (fun c hc => (hpath.plain c hc).2) hres

end

/-! ## Closing and opening -/

theorem exec_closes (h : Sound b v A H) {handles : List ℕ}
    (hrun : exec fsStep v (handles.map .close) = some u) : Sound b u A H ∧ u.dev = v.dev := by
  have hok : Along fsStep (fun _ op => ∃ n, op = .close n) v (handles.map .close) := by
    refine .of_forall fun op hop _ => ?_
    obtain ⟨n, -, rfl⟩ := mem_map.1 hop
    exact ⟨n, rfl⟩
  refine exec_induction (I := fun w => Sound b w A H ∧ w.dev = v.dev) ?_ ⟨h, rfl⟩ hok hrun
  rintro s op t ⟨hs, hdev⟩ ⟨n, rfl⟩ ht
  have hclose : wp (FsOp.close n).run (fun _ w => Sound b w A H ∧ w.dev = s.dev)
      (fun _ w => Sound b w A H ∧ w.dev = s.dev) s :=
    (hs.fsClose n).mono (fun _ _ hw => hw) fun _ w hw => by rw [hw.2]; exact ⟨hs, rfl⟩
  obtain ⟨h1, h2⟩ := fsStep_of_wp hclose ht
  exact ⟨h1, h2.trans hdev⟩

theorem Registered.openFiles_eq_none (hr : Registered v) {key : ℕ × ℕ} (h : handlesAt v key = 0) :
    v.openFiles key = none := by
  have hcount := hr.count key
  cases hs : v.openFiles key with
  | none => rfl
  | some sh =>
    have hpos := hr.pos key sh hs
    rw [hs, h, Option.elim_some] at hcount
    omega

section
variable (h : Sound b v A H) (hf : b.Fits) {path : List Char} (hpath : Canonical path) {res : ResolveOk}
  (hres : resolve b path follow v.dev = .ok (.found res)) (hfile : res.entry.isDir = false)
include h hf hpath hres hfile

theorem Sound.resolve_file : res.locked = true ∧ HasEntry A H res.parentCluster res.entry := by
  obtain ⟨hfound, hentry⟩ := h.resolve_found hf hpath hres
  refine ⟨?_, (hentry hfile).1⟩
  rcases eq_nil_or_concat (components path) with h0 | ⟨cs, c, h0⟩
  · rw [hfound.root h0, root_isDir] at hfile; cases hfile
  · rw [concat_eq_append] at h0
    exact (hfound.entry cs c h0).2.2

/-- **The first handle to a file** takes cluster and size from the entry. -/
theorem Sound.fsOpen_file (hnone : v.openFiles (res.parentCluster, res.entry.slotStart) = none) (n m : ℕ) : ∃ w,
    Fat32.fsOpen path follow n m v = .ok (.opened v.nextHandle false) w ∧ Sound b w A H ∧ w.dev = v.dev ∧
    Fat32.sharedOf w v.nextHandle = .ok (⟨.file, res.parentCluster, res.entry.slotStart, res.entry.slotCount⟩,
    ⟨res.entry.firstCluster, res.entry.size, 1⟩) := by
  have hwp : wp (Fat32.fsOpen path follow n m) (fun r w => r = .opened v.nextHandle false ∧ w = newHandle
        ⟨.file, res.parentCluster, res.entry.slotStart, res.entry.slotCount⟩
        (setShared (res.parentCluster, res.entry.slotStart)
          (some ⟨res.entry.firstCluster, res.entry.size, 1⟩) v)) (fun _ _ => False) v := by
    rw [Fat32.fsOpen, wp_bind, wp_readDev h.image.getBpb_eq, wp_bind, wp_readDev hres]
    simp only [Fat32.openEntry, hfile, Bool.false_eq_true, if_false]
    rw [wp_bind, wp_get, wp_bind, wp_modify, wp_pure, acquireOpenFile_eq, hnone]
    exact ⟨rfl, rfl⟩
  obtain ⟨r, w, hrun, rfl, rfl⟩ := exists_of_wp hwp
  obtain ⟨hsound, hdev⟩ := (wp_iff.1 (h.fsOpen hf hpath follow n m)).1 _ _ hrun
  refine ⟨_, hrun, hsound, hdev, ?_⟩
  simp only [Fat32.sharedOf, newHandle, setShared, Function.update_self]

end

/-! ## The result -/

theorem Written.resolve {sh : SharedFileState} {e : DirEntryView} {f : File}
    (hw : Written b v A H o sh e f w A' H') (h : Sound b v A H) (hf : b.Fits) (he : HasEntry A H o.parentCluster e)
    (hss : e.slotStart = o.slotStart) (hdir : e.isDir = false) (hpath : Canonical path)
    (hres : Fat32.resolve b path follow v.dev = .ok (.found ⟨e, o.parentCluster, true⟩)) :
    Fat32.resolve b path follow w.dev = .ok (.found
      ⟨{ e with firstCluster := f.firstCluster, size := f.fileSize % 2 ^ 32 }, o.parentCluster, true⟩) := by
  have hdirs : H.dirs ⊆ H'.dirs := by
    intro d hd
    refine (hw.edits.dirs d hd).resolve_left fun hall => ?_
    -- not every place of the directory is the place of the file
    have h1 := (hall o.slotStart).2
    have h2 := (hall (o.slotStart + 1)).2
    omega
  refine Tree.resolve_edits h.tree h.image hw.sound.tree hw.sound.image hf hdirs ?_ hpath
    ⟨e, o.parentCluster, true⟩ hdir hw.named rfl hres
  intro d hd c e₀ hc hdir₀
  refine (hw.edits.keeps.name d hd c e₀ hc).resolve_left ?_
  rintro ⟨rfl, hss₀⟩
  have heq := HasEntry.unique (A := A) (H := H) ⟨hd, (findName_spec hc).1⟩ he (hss₀.trans hss.symm)
  rw [heq, hdir] at hdir₀
  cases hdir₀

theorem Sound.reopen (h : Sound b v A H) (hb : b.Covers) (hf : b.Fits) {handle off n : ℕ} {data : List UInt8}
    {sh₀ : SharedFileState} (hs : Fat32.sharedOf v handle = .ok (o, sh₀))
    (hpath : Canonical path) {res : ResolveOk} (hres : resolve b path follow v.dev = .ok (.found res))
    (hfile : res.entry.isDir = false) (hplace : res.parentCluster = o.parentCluster ∧
    res.entry.slotStart = o.slotStart) (hwrite : Fat32.fsWrite handle off data v = .ok n w) {closes : List ℕ}
    (hclose : exec fsStep w (closes.map .close) = some u) (hall : handlesAt u (o.parentCluster, o.slotStart) = 0) :
    ∃ sh handle' x o', w.openFiles (o.parentCluster, o.slotStart) = some sh ∧ sh.size =
    (if data = [] then sh₀.size else max sh₀.size (off + data.length)) ∧ Fat32.fsOpen path follow 256 256 u = .ok
    (.opened handle' false) x ∧ Fat32.sharedOf x handle' = .ok (o', ⟨sh.firstCluster, sh.size % 2 ^ 32, 1⟩) := by
  obtain ⟨e, f, A', H', he, hss, hdir, hname, hw, hsize⟩ :=
    (wp_iff.1 (h.fsWrite hb hf hs)).1 n w hwrite
  -- the path leads to the entry of the handle
  obtain ⟨hlocked, hentry⟩ := h.resolve_file hf hpath hres hfile
  obtain ⟨e', d, locked⟩ := res
  obtain rfl : d = o.parentCluster := hplace.1
  obtain rfl : e' = e := hentry.unique he (hplace.2.trans hss.symm)
  obtain rfl : locked = true := hlocked
  have hres' := hw.resolve h hf he hss hdir hpath hres
  obtain ⟨hsound, hdev⟩ := exec_closes hw.sound hclose
  have hnone := hsound.opens.registered.openFiles_eq_none hall
  rw [← hdev] at hres'
  obtain ⟨x, hopen, -, -, hshared⟩ :=
    hsound.fsOpen_file hf hpath hres' hdir (by simpa only [hss] using hnone) 256 256
  exact ⟨_, _, x, _, by rw [hw.openFiles, Function.update_self], hsize, hopen, hshared⟩

/-- **Writing, closing and opening again**: the new handle sees the size and the first cluster that the handles
shared at the end exactly if that size is below `2 ^ 32`. -/
theorem reopen_iff (hb : b.Covers) (hf : b.Fits) (hv : Intact b v) {handle off n : ℕ} {data : List UInt8}
    {o : OpenFile} {sh₀ : SharedFileState} (hs : sharedOf v handle = .ok (o, sh₀)) {path : List Char}
    (hpath : Canonical path) {res : ResolveOk} (hres : resolve b path follow v.dev = .ok (.found res))
    (hfile : res.entry.isDir = false) (hplace : res.parentCluster = o.parentCluster ∧
    res.entry.slotStart = o.slotStart) (hwrite : fsWrite handle off data v = .ok n w) {closes : List ℕ}
    (hclose : exec fsStep w (closes.map .close) = some u) (hall : handlesAt u (o.parentCluster, o.slotStart) = 0) :
    ∃ sh handle' x o' sh', w.openFiles (o.parentCluster, o.slotStart) = some sh ∧ fsOpen path follow 256 256 u = .ok
    (.opened handle' false) x ∧ sharedOf x handle' = .ok (o', sh') ∧ (sh'.size = sh.size ∧
    sh'.firstCluster = sh.firstCluster ↔ sh₀.size < 2 ^ 32 ∧ (data = [] ∨ off + data.length < 2 ^ 32)) := by
  obtain ⟨A, H, h⟩ := hv
  obtain ⟨sh, handle', x, o', hsh, hsize, hopen, hshared⟩ :=
    h.reopen hb hf hs hpath hres hfile hplace hwrite hclose hall
  refine ⟨sh, handle', x, o', _, hsh, hopen, hshared, ?_⟩
  simp only [and_true, hsize]
  split_ifs with h0
  · simp only [h0, true_or, and_true]
    omega
  · simp only [h0, false_or]
    omega

end

/-! ## A volume with one file -/

section
variable {b : Bpb} {v w : Vol} {A : Image} {H : Heads}
variable {handle : ℕ} {o : OpenFile} {sh : SharedFileState}

theorem Sound.exists_fsWrite (h : Sound b v A H) (hb : b.Covers) (hf : b.Fits) {off : ℕ} {data : List UInt8}
    (hs : Fat32.sharedOf v handle = .ok (o, sh)) (hroom : clustersFor b off data.length ≤ A.free b) :
    ∃ n w, Fat32.fsWrite handle off data v = .ok n w := by
  have hwp : wp (Fat32.fsWrite handle off data) (fun _ _ => True) (fun _ _ => False) v :=
    (h.fsWrite hb hf hs).mono (fun _ _ _ => trivial) fun _ _ hw => absurd hw.1 (not_lt.2 hroom)
  obtain ⟨n, w, hrun, -⟩ := exists_of_wp hwp
  exact ⟨n, w, hrun⟩

theorem Written.sharedOf {A' : Image} {H' : Heads}
    {e : DirEntryView} {f : File} (hw : Written b v A H o sh e f w A' H') (h : Sound b v A H) (hs : Fat32.sharedOf v handle = .ok (o, sh)) :
    Fat32.sharedOf w handle =
      .ok (o, { sh with firstCluster := f.firstCluster, size := f.fileSize }) := by
  obtain ⟨ho, hkind, -⟩ := h.sharedOf hs
  simp only [Fat32.sharedOf, hw.handles, ho, hkind, hw.openFiles, Function.update_self]

theorem Sound.fsClose_last (h : Sound b v A H) (hs : Fat32.sharedOf v handle = .ok (o, sh))
    (hlast : sh.refcount = 1) : ∃ u, exec fsStep v ([handle].map .close) = some u ∧
    handlesAt u (o.parentCluster, o.slotStart) = 0 := by
  obtain ⟨ho, hkind, hsh, -⟩ := h.sharedOf hs
  have hkey : o.key = some (o.parentCluster, o.slotStart) := by rw [OpenFile.key, hkind]
  have hreg := h.opens.registered.closeFile ho hkey
  have hwp : wp (FsOp.close handle).run (fun _ w => w = releaseOpenFile (o.parentCluster, o.slotStart)
        { v with handles := Function.update v.handles handle none })
      (fun _ _ => False) v := by
    rw [FsOp.run, Fat32.fsClose, wp_bind, wp_get]
    simp only [ho]
    rw [wp_bind, wp_modify]
    simp only [hkind, wp_modify]
  obtain ⟨r, u, hrun, rfl⟩ := exists_of_wp hwp
  refine ⟨_, exec_cons.2 ⟨_, by rw [fsStep, hrun], rfl⟩, ?_⟩
  rw [hreg.count, releaseOpenFile_eq
    (v := { v with handles := Function.update v.handles handle none }) hsh, hlast, if_pos rfl]
  simp only [setShared, Function.update_self, Option.elim_none]

end

def hugeBpb : Bpb := ⟨512, 1, 1, 1, 131072, 2, 0, 8519697, 0⟩

/-- The root directory has one entry, the empty file `A`; the other clusters are free. -/
def oneFileImage : Image where
  fat c := if c = 2 then EOC else 0
  data c := if c = 2 then shortSlot (0x41 :: replicate 10 0x20) ATTR_ARCHIVE 0 0 ++
      replicate 480 0 else replicate 512 0

def hugeVol : Vol := .mount (devOf hugeBpb oneFileImage)

theorem hugeBpb_covers : hugeBpb.Covers := ⟨⟨rfl, by decide, by decide, by decide⟩, by decide, by decide⟩

theorem hugeBpb_fits : hugeBpb.Fits := by decide

theorem hugeVol_shows : Shows hugeBpb hugeVol.dev oneFileImage := by
  refine shows_devOf hugeBpb_covers (fun c _ => ?_) fun c _ _ => ?_
  · show (if c = 2 then EOC else 0) < 2 ^ 28
    split_ifs <;> decide
  simp only [oneFileImage]
  split_ifs
  · rw [length_append, length_replicate]
    rfl
  · exact length_replicate ..

def fileEntry : DirEntryView := ⟨['A'], 0x41 :: replicate 10 0x20, ATTR_ARCHIVE, 0, 0, 0, 1⟩

theorem hugeVol_sound : Sound hugeBpb hugeVol oneFileImage (rootHeads hugeBpb) :=
  sound_rootFiles hugeVol_shows (by decide) rfl (by decide +kernel) (fun _ => rfl) fun _ => rfl

theorem hugeVol_resolve : resolve hugeBpb ['/', 'A'] true hugeVol.dev = .ok (.found ⟨fileEntry, 2, true⟩) := by
  decide +kernel

theorem canonical_fileA : Canonical ['/', 'A'] := ⟨[['A']], by decide, rfl⟩

theorem oneFileImage_free : 2 ^ 23 ≤ oneFileImage.free hugeBpb := by
  have hsub : Finset.Ico 3 hugeBpb.clusterEnd ⊆
      (Finset.range hugeBpb.clusterEnd).filter fun c => 2 ≤ c ∧ oneFileImage.fat c = 0 := by
    intro c hc
    obtain ⟨h1, h2⟩ := Finset.mem_Ico.1 hc
    exact Finset.mem_filter.2 ⟨Finset.mem_range.2 h2, by omega, if_neg (by omega)⟩
  have hcard := Finset.card_le_card hsub
  rw [Nat.card_Ico] at hcard
  exact le_trans (by decide +kernel) hcard

theorem hugeVol_write (off : ℕ) (data : List UInt8) (hneed : clustersFor hugeBpb off data.length ≤ 2 ^ 23) :
    ∃ v w u n, fsOpen ['/', 'A'] true 256 256 hugeVol = .ok (.opened 0 false) v ∧ Sound hugeBpb v oneFileImage
    (rootHeads hugeBpb) ∧ v.dev = hugeVol.dev ∧ sharedOf v 0 = .ok (⟨.file, 2, 0, 1⟩, ⟨0, 0, 1⟩) ∧ fsWrite 0 off data
    v = .ok n w ∧ exec fsStep w ([0].map .close) = some u ∧ handlesAt u (2, 0) = 0 := by
  obtain ⟨v, hopen, hv, hdev, hs⟩ := hugeVol_sound.fsOpen_file hugeBpb_fits canonical_fileA
    hugeVol_resolve (by decide) rfl 256 256
  change sharedOf v 0 = .ok (⟨.file, 2, 0, 1⟩, ⟨0, 0, 1⟩) at hs
  obtain ⟨n, w, hwrite⟩ := hv.exists_fsWrite hugeBpb_covers hugeBpb_fits hs (hneed.trans oneFileImage_free)
  obtain ⟨e, f, A', H', -, -, -, -, hw, -⟩ :=
    (wp_iff.1 (hv.fsWrite hugeBpb_covers hugeBpb_fits hs)).1 n w hwrite
  obtain ⟨u, hu, hall⟩ := hw.sound.fsClose_last (hw.sharedOf hv hs) rfl
  exact ⟨v, w, u, n, hopen, hv, hdev, hs, hwrite, hu, hall⟩

theorem reopen_first_byte : ∃ v w u n, sharedOf v 0 = .ok (⟨.file, 2, 0, 1⟩, ⟨0, 0, 1⟩) ∧ fsWrite 0 0 [7] v = .ok n w
    ∧ exec fsStep w ([0].map .close) = some u ∧ handlesAt u (2, 0) = 0 ∧ ∃ sh handle' x o' sh', w.openFiles (2, 0) =
    some sh ∧ fsOpen ['/', 'A'] true 256 256 u = .ok (.opened handle' false) x ∧ sharedOf x handle' = .ok (o', sh') ∧
    sh'.size = sh.size ∧ sh'.firstCluster = sh.firstCluster := by
  obtain ⟨v, w, u, n, -, hv, hdev, hs, hwrite, hclose, hall⟩ :=
    hugeVol_write 0 [7] (by decide)
  refine ⟨v, w, u, n, hs, hwrite, hclose, hall, ?_⟩
  obtain ⟨sh, handle', x, o', sh', h1, h2, h3, h4⟩ := reopen_iff hugeBpb_covers hugeBpb_fits ⟨_, _, hv⟩ hs
    canonical_fileA (hdev ▸ hugeVol_resolve) (by decide) ⟨rfl, rfl⟩ hwrite hclose hall
  exact ⟨sh, handle', x, o', sh', h1, h2, h3, h4.2 ⟨by decide, .inr (by decide)⟩⟩

/-- A byte written at the offset `2 ^ 32 - 1`: the file has `2 ^ 32` bytes, and none when it is
opened again. -/
theorem reopen_loses_size : ∃ v w u n sh handle' x o' sh', Intact hugeBpb hugeVol ∧ fsOpen ['/', 'A'] true 256 256
    hugeVol = .ok (.opened 0 false) v ∧ fsWrite 0 (2 ^ 32 - 1) [7] v = .ok n w ∧ w.openFiles (2, 0) = some sh ∧
    sh.size = 2 ^ 32 ∧ exec fsStep w ([0].map .close) = some u ∧ handlesAt u (2, 0) = 0 ∧ fsOpen ['/', 'A'] true 256
    256 u = .ok (.opened handle' false) x ∧ sharedOf x handle' = .ok (o', sh') ∧ sh'.size = 0 := by
  obtain ⟨v, w, u, n, hopen, hv, hdev, hs, hwrite, hclose, hall⟩ :=
    hugeVol_write (2 ^ 32 - 1) [7] (by decide)
  obtain ⟨sh, handle', x, o', h1, h2, h3, h4⟩ := hv.reopen hugeBpb_covers hugeBpb_fits hs
    canonical_fileA (hdev ▸ hugeVol_resolve) (by decide) ⟨rfl, rfl⟩ hwrite hclose hall
  have hsize : sh.size = 2 ^ 32 := by rw [h2]; rfl
  exact ⟨v, w, u, n, sh, handle', x, o', _, ⟨_, _, hugeVol_sound⟩, hopen, hwrite, h1, hsize, hclose, hall,
    h3, h4, by simp only [hsize, Nat.mod_self]⟩

end Archis.Fat32
