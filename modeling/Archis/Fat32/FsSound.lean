/-
  The operations on a volume with a tree: one lemma per operation, from a sound volume to a sound volume, whether it
  succeeds or fails.  `Moves` says what else stays.  The volume's cluster numbers fit the FAT and the paths are canonical.
-/
import Archis.Fat32.Opens
import Archis.Fat32.Sections

namespace Archis.Fat32

open Archis.Lib
open List hiding IsChain utf8Encode

/-- A path as the kernel passes it: absolute, without `.` and `..`. -/
def Canonical (path : List Char) : Prop := ∃ cs, (∀ c ∈ cs, PlainName c) ∧ path = render cs

/-- The volume `v` has become the sound volume `w`, without the entries at the places `X`. -/
structure Moves (b : Bpb) (v : Vol) (A : Image) (H : Heads) (X : ℕ → ℕ → Prop) (w : Vol) (A' : Image)
    (H' : Heads) : Prop where
  sound : Sound b w A' H'
  edits : Edits b A H A' H' X
  same : SameFiles v w

def nowhere : ℕ → ℕ → Prop := fun _ _ => False

/-- The volume has kept its entries; if `P` holds, each new chain has an entry in one of the old directories. -/
def Gains (b : Bpb) (v : Vol) (A : Image) (H : Heads) (P : Prop) (w : Vol) : Prop :=
  ∃ A' H', Moves b v A H nowhere w A' H' ∧ (P → ∀ k ∈ H'.all, k ∈ H.all ∨
    ∃ d ∈ H.dirs, ∃ e, HasEntry A' H' d e ∧ e.IsRef ∧ e.firstCluster = k)

section
variable {b : Bpb} {u v w : Vol} {A A' A'' : Image} {H H' H'' : Heads} {d t : ℕ} {news : List ℕ}
  {X : ℕ → ℕ → Prop}

theorem Sound.moves (h : Sound b v A H) (hw : Becomes b v A' w) (he : Edits b A H A' H' X)
    (hX : ∀ d ss, X d ss → v.openFiles (d, ss) = none) : Moves b v A H X w A' H' :=
  ⟨h.becomes hw he hX, he, hw.same⟩

theorem Sound.moves_self (h : Sound b v A H) (X : ℕ → ℕ → Prop) : Moves b v A H X v A H :=
  ⟨h, .refl h.tree X, .refl v⟩

theorem Moves.trans (h : Moves b u A H X v A' H') (h' : Moves b v A' H' X w A'' H'') :
    Moves b u A H X w A'' H'' := ⟨h'.sound, h.edits.trans h'.edits, h.same.trans h'.same⟩

theorem Moves.gains (h : Moves b v A H nowhere w A' H') (hall : H'.all = H.all) (P : Prop) :
    Gains b v A H P w := ⟨A', H', h, fun _ _ hk => .inl (hall ▸ hk)⟩

theorem Moves.gains_entry (h : Moves b v A H nowhere w A' H') {c : ℕ} {P : Prop} (hall : H'.all ⊆ insert c H.all)
    (hd : d ∈ H.dirs) (hentry : P → ∃ e, HasEntry A' H' d e ∧ e.IsRef ∧ e.firstCluster = c) : Gains b v A H P w := by
  refine ⟨A', H', h, fun hP k hk => ?_⟩
  rcases hall hk with rfl | hk
  · exact .inr ⟨d, hd, hentry hP⟩
  · exact .inl hk

theorem Moves.gains_room (h : Moves b v A H nowhere w A' H') {n : ℕ} {P : Prop}
    (hcase : H'.all = H.all ∨ A.free b ≠ 0 ∧ A.free b < n) (hP : P → A.free b = 0 ∨ n ≤ A.free b) : Gains b v A H P w := by
  refine ⟨A', H', h, fun h0 k hk => .inl ?_⟩
  rcases hcase with hall | ⟨h1, h2⟩
  · exact hall ▸ hk
  · rcases hP h0 with h3 | h3 <;> omega

theorem Sound.gains (h : Sound b v A H) (P : Prop) : Gains b v A H P v :=
  (h.moves_self nowhere).gains rfl P

theorem Heads.putDir_all_of_mem {l : List ℕ} (hd : d ∈ H.dirs) : (H.putDir d l).all = H.all := by
  rw [Heads.putDir_all, Set.insert_eq_of_mem (.inl hd)]

/-! ## The bytes of the directories -/

/-- The directories are directories of the second tree with the same bytes, except that `p` has these. -/
structure Rewrites (A : Image) (H : Heads) (A' : Image) (H' : Heads) (p : ℕ) (buf : List UInt8) :
    Prop where
  dirs : ∀ d ∈ H.dirs, d ∈ H'.dirs
  self : A'.bytes (H'.chain p) = buf
  other : ∀ d ∈ H.dirs, d ≠ p → A'.bytes (H'.chain d) = A.bytes (H.chain d)

/-- The bytes of the directory `p` with `k` zeroed clusters behind them. -/
def padded (b : Bpb) (A : Image) (H : Heads) (p k : ℕ) : List UInt8 :=
  A.bytes (H.chain p) ++ replicate (k * b.clusterSize) 0

theorem Rewrites.refl (A : Image) (H : Heads) (p : ℕ) : Rewrites A H A H p (A.bytes (H.chain p)) :=
  ⟨fun _ hd => hd, rfl, fun _ _ _ => rfl⟩

theorem Rewrites.padded (b : Bpb) (A : Image) (H : Heads) (p : ℕ) : Rewrites A H A H p (padded b A H p 0) := by
  rw [Fat32.padded, zero_mul, replicate_zero, append_nil]
  exact .refl A H p

variable {buf : List UInt8} {path : List Char} {o : OpenFile} {sh : SharedFileState} {e : DirEntryView}

theorem Rewrites.of_same {p : ℕ} (h : Rewrites A' H' A'' H'' p buf) (hdirs : ∀ d ∈ H.dirs,
    d ∈ H'.dirs) (hbytes : ∀ d ∈ H.dirs, A'.bytes (H'.chain d) = A.bytes (H.chain d)) :
    Rewrites A H A'' H'' p buf :=
  ⟨fun d hd => h.dirs d (hdirs d hd), h.self, fun d hd hne => (h.other d (hdirs d hd) hne).trans (hbytes d hd)⟩

theorem Tree.Apart.rewrites {l : List ℕ} (h : Tree.Apart A A' H d l) :
    Rewrites A H A' (H.putDir d l) d (A'.bytes l) := by
  refine ⟨fun k hk => .inr hk, ?_, fun k hk hne => ?_⟩
  · rw [Heads.putDir_self]
  · rw [Heads.putDir_of_ne hne]
    exact h.bytes hk hne

theorem Tree.rewrites_set (h : Tree b A H) (hd : d ∈ H.dirs) (hlen : buf.length = (H.chain d).length
    * b.clusterSize) : Rewrites A H (A.setBytes b.clusterSize (H.chain d) buf) H d buf := by
  have h1 := (h.apart_setBytes hd buf).rewrites
  rwa [Heads.putDir_eq_self hd, Image.bytes_setBytes A (h.isChain hd).linked.nodup hlen] at h1

theorem Tree.rewrites_grown (h : Tree b A H) (hd : d ∈ H.dirs) (ht : (H.chain d).getLast? = some t)
    (hg : Grown b A t news A') (hlen : buf.length = (H.chain d ++ news).length * b.clusterSize) : Rewrites A H
    (A'.setBytes b.clusterSize (H.chain d ++ news) buf) (H.putDir d (H.chain d ++ news)) d buf := by
  have h1 := (h.apart_grown hd ht hg buf).rewrites
  rwa [Image.bytes_setBytes A' (hg.isChain (h.isChain hd) ht).linked.nodup hlen] at h1

theorem Tree.rewrites_padded (h : Tree b A H) (hd : d ∈ H.dirs)
    (ht : (H.chain d).getLast? = some t) (hg : Grown b A t news A') :
    Rewrites A H A' (H.putDir d (H.chain d ++ news)) d (Fat32.padded b A H d news.length) := by
  have h1 := (h.apart_append hd ht hg).rewrites
  rwa [hg.bytes (h.isChain hd)] at h1

/-! ## New entries -/

theorem Canonical.plain (h : Canonical path) : ∀ c ∈ components path, PlainName c := by
  obtain ⟨cs, hcs, rfl⟩ := h
  rw [components_render fun c hc => (hcs c hc).1]
  exact hcs

theorem splitParent_render {cs : List (List Char)} {c : List Char} (hc : IsName c) :
    splitParent (render (cs ++ [c])) = (cs.flatMap fun c => '/' :: c, c) := by
  rw [render_append_singleton, splitParent_append_slash _ hc]

theorem splitParent_root : splitParent (render []) = ([], []) := by decide

/-- **Where a new entry goes in a directory**, which has no entry with its name. -/
theorem Sound.placeIn (h : Sound b v A H) (hf : b.Fits) {parent : DirEntryView} {leaf : List Char}
    (hd : parent.firstCluster ∈ H.dirs) {pl : NewPlace} (hres : placeIn b parent leaf v.dev = .ok
    pl) : pl = ⟨parent, leaf, A.bytes (H.chain parent.firstCluster)⟩ ∧
    ∀ e ∈ A.entries (H.chain parent.firstCluster), asciiLower e.longName ≠ asciiLower leaf := by
  rw [Fat32.placeIn, h.image.readChain hf (h.tree.isChain hd)] at hres
  simp only [bind, Except.bind] at hres
  split_ifs at hres with hany
  · cases hres
    refine ⟨rfl, fun e he heq => hany ?_⟩
    exact any_eq_true.2 ⟨e, he, eqIgnoreAsciiCase_iff.2 heq⟩

/-- **Where a new entry goes.** -/
theorem Sound.newPlace (h : Sound b v A H) (hf : b.Fits) (hpath : Canonical path) {pl : NewPlace}
    (hres : newPlace b path v.dev = .ok pl) : pl.parent.firstCluster ∈ H.dirs ∧
    pl.buf = A.bytes (H.chain pl.parent.firstCluster) ∧ (splitParent path).2 = pl.leaf := by
  obtain ⟨cs, hcs, rfl⟩ := hpath
  rcases eq_nil_or_concat cs with rfl | ⟨cs, c, rfl⟩
  · rw [Fat32.newPlace, splitParent_root, if_pos rfl] at hres
    cases hres
  rw [concat_eq_append] at hcs hres ⊢
  have hc := hcs c (by simp)
  have hplain : ∀ c ∈ cs, PlainName c := fun x hx => hcs x (by simp [hx])
  rw [Fat32.newPlace, splitParent_render hc.1, if_neg hc.1.1] at hres
  obtain ⟨parent, hp, h1⟩ := except_bind_eq_ok.1 hres
  have hcomp : components (cs.flatMap fun c => '/' :: c) = cs :=
    components_flatMap fun x hx => (hplain x hx).1
  have hdir := h.tree.resolveAndLockDir_ok h.image hf (by
    rw [hcomp]; exact fun x hx => (hplain x hx).2) hp
  rw [hcomp] at hdir
  obtain ⟨rfl, -⟩ := h.placeIn hf (hdir.mem h.tree) h1
  exact ⟨hdir.mem h.tree, rfl, by rw [splitParent_render hc.1]⟩

/-- How many clusters the directory needs for one more entry. -/
def slotGrowth (b : Bpb) (pl : NewPlace) : ℕ :=
  growCount b.clusterSize (findEndMarker pl.buf + (lfnCount pl.leaf + 1) * 32) pl.buf.length

def withEntry (b : Bpb) (pl : NewPlace) (attr : UInt8) (firstCluster size : ℕ) : List UInt8 :=
  appendBuf b.clusterSize pl.buf (encodeEntrySlots pl.leaf
    (uniqueShortName pl.leaf (decodeDirEntries pl.buf)) attr firstCluster size)

section
variable (h : Sound b v A H) (hb : b.Covers) (hf : b.Fits)
include h hb hf

variable {pl : NewPlace} {path : List Char}

/-- **A new entry is appended**, or the directory has grown into the last free cluster. -/
theorem Sound.addEntry (hd : pl.parent.firstCluster ∈ H.dirs)
    (hbuf : pl.buf = A.bytes (H.chain pl.parent.firstCluster)) {attr : UInt8} {firstCluster size :
    ℕ} (hattr : attr &&& ATTR_VOLUME_ID = 0) (hfc : firstCluster < 2 ^ 32) (hsize : size < 2 ^ 32)
    (hpoints : (attr &&& ATTR_DIRECTORY ≠ 0 → firstCluster ∈ H.dirs ∧
    firstCluster ≠ b.rootCluster.toNat) ∧ (¬ attr &&& ATTR_DIRECTORY ≠ 0 → 2 ≤ firstCluster →
    firstCluster ∈ H.files)) (hnew : 2 ≤ firstCluster → ∀ d j s, HasRef A H d j s →
    slotCluster s ≠ firstCluster) : wp (Fat32.addEntry b pl attr firstCluster size)
    (fun _ w => ∃ A' H', Moves b v A H nowhere w A' H' ∧ H'.all = H.all ∧
    (lfnCount pl.leaf ≤ 256 → ∃ e, HasEntry A' H' pl.parent.firstCluster e ∧ e.IsRef ∧
    e.attr = attr ∧ e.firstCluster = firstCluster ∧ e.size = size) ∧ Rewrites A H A' H'
    pl.parent.firstCluster (withEntry b pl attr firstCluster size)) (fun e w => e = .err .oom ∧
    (∃ A' H' k, Moves b v A H nowhere w A' H' ∧ H'.all = H.all ∧ Rewrites A H A' H'
    pl.parent.firstCluster (padded b A H pl.parent.firstCluster k)) ∧ ∃ l, FreeList b A l ∧
    l.length < slotGrowth b pl) v := by
  have hchain := h.tree.isChain hd
  have hlen := h.image.length_bytes hchain.range
  have hshort := goodShort_uniqueShortName pl.leaf (decodeDirEntries pl.buf)
  rw [Fat32.addEntry]
  refine (h.image.appendEntries hb hf hchain (by rw [hbuf]; exact hlen)
    (length_of_mem_encodeEntrySlots hshort.length)).mono ?_ ?_
  · rintro - w ⟨news, A', t, ht, hg, hw, hlen'⟩
    obtain ⟨hedit, hentry, -⟩ := h.tree.appendEntry (X := nowhere) hb hd (by rw [hbuf]; exact hlen)
      (by rw [hbuf]; exact .refl _) ht hg hattr hfc hsize rfl hlen' rfl hpoints
      (fun h2 d' j' s' hr heq => absurd heq (hnew h2 d' j' s' hr)) (by rw [hbuf]; exact .refl _ _)
      (by rw [hbuf]; exact fun i t hi => ⟨hi, rfl⟩) (fun _ _ _ hF => hF.elim)
    refine ⟨_, _, h.moves hw hedit fun _ _ hF => hF.elim, Heads.putDir_all_of_mem hd, fun hle => ?_,
      h.tree.rewrites_grown hd ht hg hlen'⟩
    obtain ⟨e, he, -, h1⟩ := hentry hle
    exact ⟨e, he, h1⟩
  · rintro e w ⟨he, news, A', t, ht, hw, hg, hfull, hlt⟩
    rw [length_encodeEntrySlots] at hlt
    refine ⟨he, ⟨_, _, news.length, h.moves hw (h.tree.growDir h.image hd ht hg nowhere)
      fun _ _ hF => hF.elim, Heads.putDir_all_of_mem hd, h.tree.rewrites_padded hd ht hg⟩,
      news ++ [], (FreeList.of_full hfull).of_grown hg ?_, ?_⟩
    · exact hchain.not_free (mem_of_getLast? ht)
    · rw [append_nil]
      exact hlt

theorem Sound.fsCreateFile (hpath : Canonical path) : wp (Fat32.fsCreateFile path)
    (fun _ => Gains b v A H True) (fun _ => Gains b v A H True) v := by
  rw [Fat32.fsCreateFile, wp_bind, wp_readDev h.image.getBpb_eq, createEntry, wp_bind, wp_readDev_iff]
  refine ⟨fun pl hpl => ?_, fun e _ => h.gains True⟩
  obtain ⟨hd, hbuf, -⟩ := h.newPlace hf hpath hpl
  refine (h.addEntry hb hf hd hbuf (by decide) (by norm_num) (by norm_num)
    ⟨fun h0 => absurd h0 (by decide), fun _ h2 => absurd h2 (by norm_num)⟩
    fun h2 => absurd h2 (by norm_num)).mono ?_ ?_
  · rintro - w ⟨A', H', hm, hall, -⟩
    exact hm.gains hall True
  · rintro e w ⟨-, ⟨A', H', -, hm, hall, -⟩, -⟩
    exact hm.gains hall True

/-- **The new directory and its entry**, or the clusters ran out. -/
theorem Sound.makeDir (hd : pl.parent.firstCluster ∈ H.dirs)
    (hbuf : pl.buf = A.bytes (H.chain pl.parent.firstCluster)) : wp (Fat32.makeDir b pl) (fun c w => ∃ A' H',
    Moves b v A H nowhere w A' H' ∧ H'.all = insert c H.all ∧ (lfnCount pl.leaf ≤ 256 → ∃ e,
    HasEntry A' H' pl.parent.firstCluster e ∧ e.IsRef ∧ e.firstCluster = c) ∧ c ∉ H.all ∧ c ∈ H'.dirs ∧ c < 2 ^ 32 ∧
    A'.bytes (H'.chain c) = newDirBuf b c pl.parent.firstCluster ∧
    Rewrites A H A' H' pl.parent.firstCluster (withEntry b pl ATTR_DIRECTORY c 0)) (fun e w => e = .err .oom ∧
    ∃ A' H' k, Moves b v A H nowhere w A' H' ∧ (H'.all = H.all ∨ A.free b ≠ 0 ∧ A.free b < 1 + slotGrowth b pl) ∧
    Rewrites A H A' H' pl.parent.firstCluster (padded b A H pl.parent.firstCluster k)) v := by
  rw [Fat32.makeDir]
  refine (h.image.allocClusterRaw hb).seq' ?_ fun e w hw => ?_
  swap
  · exact ⟨hw.1, A, H, 0, h.moves hw.2.1 (.refl h.tree nowhere) fun _ _ hF => hF.elim, .inl rfl, .padded b A H _⟩
  rintro c w ⟨hc, hfree, hw⟩
  have hch : IsChain b (A.setFat c EOC) c [c] := by
    refine ⟨.last ?_, by simpa using hc⟩
    rw [Image.next_eq_none, Image.setFat_fat, if_pos rfl]
    rfl
  have hnot := h.tree.notMem_all_of_free hfree
  have hlen : (newDirBuf b c pl.parent.firstCluster).length = [c].length * b.clusterSize := by
    rw [(chunks_newDirBuf hb.valid c pl.parent.firstCluster).1, length_singleton, one_mul]
  refine (hw.image.writeChain hb hch hlen).seq ?_
  intro _ x hx
  obtain ⟨hedit, hrefs, hbytes⟩ :=
    h.tree.addDir hb hc hfree (hf.lt hc) (hf.lt (h.tree.isChain hd).first) nowhere rfl
  have hm := h.moves (hw.trans hx) hedit fun _ _ hF => hF.elim
  have hne : c ≠ pl.parent.firstCluster := fun heq => hnot (.inl (heq ▸ hd))
  refine (hm.sound.addEntry hb hf (.inr hd) (by rw [hbuf, hbytes _ hd]) (by decide) (hf.lt hc)
    (by norm_num) ⟨fun _ => ⟨.inl rfl, fun heq => hnot (.inl (heq ▸ h.tree.root))⟩,
      fun h0 => absurd h0 (by decide)⟩
    fun _ d' j' s' hr => h.tree.ref_ne_free hc hfree (hrefs d' j' s' hr)).seq' ?_ ?_
  · rintro - y ⟨A', H', hm', hall, hentry, hrw⟩
    rw [wp_pure]
    refine ⟨A', H', hm.trans hm', by rw [hall, Heads.putDir_all], fun hle => ?_, hnot,
      hrw.dirs c (.inl rfl), hf.lt hc, ?_, hrw.of_same (fun _ hk => .inr hk) hbytes⟩
    · obtain ⟨e, he, href, -, hfc, -⟩ := hentry hle
      exact ⟨e, he, href, hfc⟩
    · rw [hrw.other c (.inl rfl) hne, Heads.putDir_self]
      exact Image.bytes_setBytes _ (by simp) hlen
  · rintro e y ⟨he, ⟨A', H', k, hm', hall, hrw⟩, l, hl, hlt⟩
    have h1 := ((hl.congr fun x => by rw [Image.setBytes_fat]).of_claimed hc hfree).free_eq
    rw [length_cons] at h1
    refine ⟨he, A', H', k, hm.trans hm', .inr ⟨by omega, by omega⟩, ?_⟩
    have h2 := hrw.of_same (fun _ hk => .inr hk) hbytes
    rwa [padded, hbytes _ hd, ← padded] at h2

/-- **`fs_mkdir`**: the directory has an entry unless its name is too long or the clusters run out in between. -/
theorem Sound.fsMkdir (hpath : Canonical path) : wp (Fat32.fsMkdir path)
    (fun _ => Gains b v A H (lfnCount (splitParent path).2 ≤ 256)) (fun _ => Gains b v A H (∀ pl,
    Fat32.newPlace b path v.dev = .ok pl → A.free b = 0 ∨ 1 + slotGrowth b pl ≤ A.free b)) v := by
  rw [fsMkdir_eq_bind, wp_bind, wp_readDev h.image.getBpb_eq, wp_bind, wp_readDev_iff]
  refine ⟨fun pl hpl => ?_, fun e _ => h.gains _⟩
  obtain ⟨hd, hbuf, hleaf⟩ := h.newPlace hf hpath hpl
  rw [hleaf]
  refine (h.makeDir hb hf hd hbuf).seq' ?_ ?_
  · rintro c w ⟨A', H', hm, hall, hentry, -⟩
    rw [wp_pure]
    exact hm.gains_entry hall.subset hd hentry
  · rintro e w ⟨-, A', H', -, hm, hcase, -⟩
    exact hm.gains_room hcase fun hroom => hroom pl hpl

/-- **The target and the entry of a symlink**, or the clusters ran out. -/
theorem Sound.makeSymlink (hd : pl.parent.firstCluster ∈ H.dirs)
    (hbuf : pl.buf = A.bytes (H.chain pl.parent.firstCluster)) (target : List Char) :
    wp (Fat32.makeSymlink b pl target) (fun _ w => ∃ c A' H', Moves b v A H nowhere w A' H' ∧
    H'.all ⊆ insert c H.all ∧ (lfnCount pl.leaf ≤ 256 → ∃ e, HasEntry A' H' pl.parent.firstCluster e
    ∧ e.IsRef ∧ e.firstCluster = c) ∧ c < 2 ^ 32 ∧ Rewrites A H A' H' pl.parent.firstCluster
    (withEntry b pl (ATTR_ARCHIVE ||| ATTR_SYMLINK) c ((utf8Encode target).length % 2 ^ 32)))
    (fun e w => e = .err .oom ∧ ∃ A' H' k, Moves b v A H nowhere w A' H' ∧
    (H'.all = H.all ∨ A.free b ≠ 0 ∧ A.free b < clustersFor b 0 (utf8Encode target).length +
    slotGrowth b pl) ∧ Rewrites A H A' H' pl.parent.firstCluster
    (padded b A H pl.parent.firstCluster k)) v := by
  have hattr : ¬ (ATTR_ARCHIVE ||| ATTR_SYMLINK) &&& ATTR_DIRECTORY ≠ 0 := by decide
  rw [Fat32.makeSymlink]
  by_cases h0 : utf8Encode target = []
  · -- an empty target takes no cluster
    rw [h0, wp_bind, Fat32.writeFile, if_pos rfl, wp_pure]
    refine (h.addEntry hb hf hd hbuf (by decide) (by norm_num) (by norm_num) ⟨fun h0 => absurd h0 hattr,
      fun _ h2 => absurd h2 (by norm_num)⟩ fun h2 => absurd h2 (by norm_num)).mono ?_ ?_
    · rintro - w ⟨A', H', hm, hall, hentry, hrw⟩
      refine ⟨0, A', H', hm, hall ▸ Set.subset_insert _ _, fun hle => ?_, by norm_num, hrw⟩
      obtain ⟨e, he, href, -, hfc, -⟩ := hentry hle
      exact ⟨e, he, href, hfc⟩
    · rintro e w ⟨he, ⟨A', H', k, hm, hall, hrw⟩, -⟩
      exact ⟨he, A', H', k, hm, .inl hall, hrw⟩
  refine (h.image.writeFile hb hf (f := ⟨0, 0⟩) (l := []) (by rw [Owns, if_pos (by norm_num)]) h0 0).seq' ?_ ?_
  · rintro f w ⟨news, A', old, hw⟩
    have hfree : A.fat f.firstCluster = 0 := hw.extends_.free _ hw.extends_.chain.linked.mem
    have hc := hw.extends_.chain.first
    have hsize : f.fileSize = (utf8Encode target).length := by
      rw [hw.size, zero_add]
      exact Nat.zero_max _
    obtain ⟨hedit, hrefs, hbytes⟩ := h.tree.extendFile (.inl rfl) hw.extends_ nowhere
    have hm := h.moves hw.becomes hedit fun _ _ hF => hF.elim
    refine (hm.sound.addEntry hb hf hd (by rw [hbuf, hbytes _ hd]) (by decide) (hf.lt hc)
      (Nat.mod_lt _ (by norm_num)) ⟨fun h0 => absurd h0 hattr, fun _ _ => .inl rfl⟩
      fun _ d' j' s' hr => h.tree.ref_ne_free hc hfree (hrefs d' j' s' hr)).mono ?_ ?_
    · rintro - y ⟨A', H', hm', hall, hentry, hrw⟩
      rw [hsize] at hrw
      refine ⟨f.firstCluster, A', H', hm.trans hm', by rw [hall, Heads.putFile_all], fun hle => ?_,
        hf.lt hc, hrw.of_same (fun _ hk => hk) hbytes⟩
      obtain ⟨e, he, href, -, hfc, -⟩ := hentry hle
      exact ⟨e, he, href, hfc⟩
    · rintro e y ⟨he, ⟨A', H', k, hm', hall, hrw⟩, l, hl, hlt⟩
      have h1 := (hw.extends_.freeList (by simp) hl).free_eq
      have h2 := hw.count
      have h3 := length_pos_of_ne_nil hw.extends_.chain.linked.ne_nil
      rw [nil_append] at h3
      rw [length_append] at h1
      simp only [length_nil, Nat.sub_zero] at h2
      refine ⟨he, A', H', k, hm.trans hm', .inr ⟨by omega, by omega⟩, ?_⟩
      have h4 : Rewrites A H A' H' _ _ := hrw.of_same (fun _ hk => hk) hbytes
      rwa [padded, hbytes _ hd, ← padded] at h4
  · rintro e w ⟨he, news, A', hw, hfull, hlt, ⟨-, rfl, rfl⟩ | ⟨a, -, hext⟩⟩
    · exact ⟨he, _, H, 0, h.moves hw (.refl h.tree nowhere) fun _ _ hF => hF.elim, .inl rfl, .padded b _ H _⟩
    obtain ⟨hedit, -, hbytes⟩ := h.tree.extendFile (.inl rfl) hext nowhere
    have h1 := (hext.freeList (by simp) (.of_full hfull)).free_eq
    have h2 := length_pos_of_ne_nil hext.chain.linked.ne_nil
    rw [nil_append] at h2
    rw [append_nil] at h1
    simp only [length_nil, Nat.sub_zero] at hlt
    refine ⟨he, _, _, 0, h.moves hw hedit fun _ _ hF => hF.elim, .inr ⟨by omega, by omega⟩, ?_⟩
    have h3 : Rewrites A H A' (H.putFile a ([] ++ news)) _ _ :=
      (Rewrites.padded b A' _ pl.parent.firstCluster).of_same (fun _ hk => hk) hbytes
    rwa [padded, hbytes _ hd, ← padded] at h3

/-- **`fs_create_symlink`**: as for `fs_mkdir`. -/
theorem Sound.fsCreateSymlink (hpath : Canonical path) (target : List Char) :
    wp (Fat32.fsCreateSymlink path target) (fun _ => Gains b v A H
    (lfnCount (splitParent path).2 ≤ 256)) (fun _ => Gains b v A H
    (∀ pl, Fat32.newPlace b path v.dev = .ok pl → A.free b = 0 ∨
    clustersFor b 0 (utf8Encode target).length + slotGrowth b pl ≤ A.free b)) v := by
  rw [Fat32.fsCreateSymlink, wp_bind, wp_readDev h.image.getBpb_eq, wp_bind, wp_readDev_iff]
  refine ⟨fun pl hpl => ?_, fun e _ => h.gains _⟩
  obtain ⟨hd, hbuf, hleaf⟩ := h.newPlace hf hpath hpl
  rw [hleaf]
  refine (h.makeSymlink hb hf hd hbuf target).mono ?_ ?_
  · rintro - w ⟨c, A', H', hm, hall, hentry, -⟩
    exact hm.gains_entry hall hd hentry
  · rintro e w ⟨-, A', H', -, hm, hcase, -⟩
    exact hm.gains_room hcase fun hroom => hroom pl hpl

/-! ## Writing -/

/-- **The new cluster and size of a file** are set in its shared state and in its entry. -/
theorem Sound.commitFile {handle : ℕ} {o : OpenFile} {sh : SharedFileState} (ho : v.handles handle = some o)
    (hkind : o.kind = .file) (hsh : v.openFiles (o.parentCluster, o.slotStart) = some sh) {e : DirEntryView}
    (he : HasEntry A H o.parentCluster e) (hss : e.slotStart = o.slotStart) (hdir : e.isDir = false)
    (hname : ¬ IsDotName e.longName) (hfirst : e.firstCluster = sh.firstCluster) (hsize : e.size = sh.size % 2 ^ 32)
    {f : File} (hfc : f.firstCluster < 2 ^ 32) (hfiles : 2 ≤ f.firstCluster → f.firstCluster ∈ H.files)
    (hnew : 2 ≤ f.firstCluster → ∀ d j s, HasRef A H d j s → slotCluster s = f.firstCluster →
      slotCluster s = e.firstCluster) :
    wp (Fat32.commitFile b o sh f) (fun _ w => ∃ A', Sound b w A' H ∧
        Edits b A H A' H (fun d ss => d = o.parentCluster ∧ ss = o.slotStart) ∧
        w.handles = v.handles ∧ w.nextHandle = v.nextHandle ∧
        w.openFiles = Function.update v.openFiles (o.parentCluster, o.slotStart)
          (some { sh with firstCluster := f.firstCluster, size := f.fileSize }) ∧
        HasEntry A' H o.parentCluster { e with firstCluster := f.firstCluster, size := f.fileSize % 2 ^ 32 } ∧
        ∀ c, findName (A.entries (H.chain o.parentCluster)) c = some e →
          findName (A'.entries (H.chain o.parentCluster)) c =
            some { e with firstCluster := f.firstCluster, size := f.fileSize % 2 ^ 32 })
      (fun _ _ => False) v := by
  rw [Fat32.commitFile, wp_bind, wp_modify]
  split_ifs with hchanged
  · obtain ⟨j, s, hv, rfl, href⟩ := h.tree.exists_ref he hname
    have hd := he.1
    have hchain := h.tree.isChain hd
    obtain ⟨buf, _, hbuf, rfl, hlen, hfit, hedit, he', hfind'⟩ := h.tree.patchEntry h.image hd hv href.2
      (of_decide_eq_false (p := slotAttr s &&& ATTR_DIRECTORY ≠ 0) hdir) f.fileSize hfc hfiles
      fun h2 d' j' s' hr heq => h.tree.unique d' j' s' o.parentCluster j s hr href (heq ▸ h2) (hnew h2 d' j' s' hr heq)
    -- the short slot lies where the handle says
    have hcount := h.opens.slots handle o _ _ _ ho (by rw [OpenFile.key, hkind]) he hss
    have hshort : o.slotStart + (o.slotCount - 1) * 32 = j * 32 := by
      have := lfnBefore_le (A.slots (H.chain o.parentCluster)) j
      rw [← hss, ← hcount, entryAt_slotStart, entryAt_slotCount]
      omega
    rw [patchDirEntry, wp_bind]
    refine (wp_readDev (v := setShared _ _ v) (h.image.readChain hf hchain)).2 ?_
    simp only [hshort]
    rw [if_neg (by omega), ← hbuf]
    refine (Shows.writeChain (v := setShared _ _ v) hb h.image hchain hlen).imp fun _ w hw => ?_
    rw [hss] at hedit
    have hopens : Opens (A.setBytes b.clusterSize (H.chain o.parentCluster) buf) H
        (setShared (o.parentCluster, o.slotStart)
          (some { sh with firstCluster := f.firstCluster, size := f.fileSize }) v) :=
      h.opens.patched hsh rfl hedit.keeps he hss he' hss rfl hdir hname rfl rfl
    exact ⟨_, ⟨hw.image, hedit.tree, hopens.keeps (.refl _ _ nowhere) (fun _ _ hF => hF.elim)
      hw.same⟩, hedit, hw.same.handles, hw.same.nextHandle, hw.same.openFiles, he', hfind'⟩
  · rw [not_or, not_not, not_not] at hchanged
    have hself : setShared (o.parentCluster, o.slotStart)
        (some { sh with firstCluster := f.firstCluster, size := f.fileSize }) v = v := by
      rw [hchanged.1, hchanged.2, setShared, Function.update_eq_self_iff.2 hsh.symm]
    rw [wp_pure, hself]
    refine ⟨A, h, .refl h.tree _, rfl, rfl, ?_, ?_⟩
    · rw [hchanged.1, hchanged.2, Function.update_eq_self_iff.2 hsh.symm]
    · rw [hchanged.1, hchanged.2, ← hfirst, ← hsize]
      exact ⟨he, fun _ hc => hc⟩

end

theorem Sound.sharedOf (h : Sound b v A H) {handle : ℕ}
    (hs : Fat32.sharedOf v handle = .ok (o, sh)) : v.handles handle = some o ∧ o.kind = .file ∧ v.openFiles
    (o.parentCluster, o.slotStart) = some sh ∧ ∃ e, HasEntry A H o.parentCluster e ∧ e.slotStart = o.slotStart ∧
    e.isDir = false ∧ ¬ IsDotName e.longName ∧ e.firstCluster = sh.firstCluster ∧ e.size = sh.size % 2 ^ 32 := by
  unfold Fat32.sharedOf at hs
  cases ho : v.handles handle with
  | none => rw [ho] at hs; cases hs
  | some o' =>
    rw [ho] at hs
    cases hk : o'.kind with
    | dir c => simp only [hk] at hs; cases hs
    | file =>
      cases hsh : v.openFiles (o'.parentCluster, o'.slotStart) with
      | none => simp only [hk, hsh] at hs; cases hs
      | some sh' =>
        simp only [hk, hsh, Except.ok.injEq, Prod.mk.injEq] at hs
        obtain ⟨rfl, rfl⟩ := hs
        exact ⟨rfl, hk, hsh, h.opens.entry _ _ _ hsh⟩

theorem Tree.owns (h : Tree b A H) (he : HasEntry A H d e)
    (hdir : e.isDir = false) (hname : ¬ IsDotName e.longName) : ∃ l, Owns b A e.firstCluster l ∧
    (l = [] ∧ e.firstCluster < 2 ∨ e.firstCluster ∈ H.files ∧ l = H.chain e.firstCluster) := by
  obtain ⟨j, s, -, rfl, href⟩ := h.exists_ref he hname
  by_cases h2 : (entryAt (A.slots (H.chain d)) j s).firstCluster < 2
  · exact ⟨[], by rw [Owns, if_pos h2], .inl ⟨rfl, h2⟩⟩
  · have hmem := (h.points d j s href).2
      (of_decide_eq_false (p := slotAttr s &&& ATTR_DIRECTORY ≠ 0) hdir) (not_lt.1 h2)
    exact ⟨_, by rw [Owns, if_neg h2]; exact h.chains.chain _ (.inr hmem), .inr ⟨hmem, rfl⟩⟩

/-- A write that succeeded, to the file of a handle. -/
structure Written (b : Bpb) (v : Vol) (A : Image) (H : Heads) (o : OpenFile) (sh : SharedFileState)
    (e : DirEntryView) (f : File) (w : Vol) (A' : Image) (H' : Heads) : Prop where
  sound : Sound b w A' H'
  edits : Edits b A H A' H' fun d ss => d = o.parentCluster ∧ ss = o.slotStart
  handles : w.handles = v.handles
  nextHandle : w.nextHandle = v.nextHandle
  openFiles : w.openFiles = Function.update v.openFiles (o.parentCluster, o.slotStart)
    (some { sh with firstCluster := f.firstCluster, size := f.fileSize })
  entry : HasEntry A' H' o.parentCluster { e with firstCluster := f.firstCluster, size := f.fileSize % 2 ^ 32 }
  named : ∀ c, findName (A.entries (H.chain o.parentCluster)) c = some e →
    findName (A'.entries (H'.chain o.parentCluster)) c =
      some { e with firstCluster := f.firstCluster, size := f.fileSize % 2 ^ 32 }
  heads : H'.all ⊆ insert f.firstCluster H.all
  first : 2 ≤ sh.firstCluster → f.firstCluster = sh.firstCluster

/-- **`fs_write`**: on an error the entry stays, and clusters that a file without any had got are lost. -/
theorem Sound.fsWrite (h : Sound b v A H) (hb : b.Covers) (hf : b.Fits) {handle off : ℕ}
    {data : List UInt8} (hs : Fat32.sharedOf v handle = .ok
    (o, sh)) : wp (Fat32.fsWrite handle off data) (fun _ w => ∃ e f A' H',
    HasEntry A H o.parentCluster e ∧ e.slotStart = o.slotStart ∧ e.isDir = false ∧
    ¬ IsDotName e.longName ∧ Written b v A H o sh e f w A' H' ∧ f.fileSize = if data = [] then
    sh.size else max sh.size (off + data.length)) (fun _ w => A.free b < clustersFor b off
    data.length ∧ Gains b v A H (2 ≤ sh.firstCluster ∨ A.free b = 0) w) v := by
  obtain ⟨ho, hkind, hsh, e, he, hss, hdir, hname, hfirst, hsize⟩ := h.sharedOf hs
  obtain ⟨l, hl, hcase⟩ := h.tree.owns he hdir hname
  rw [hfirst] at hl hcase
  have hcommit : wp (Fat32.commitFile b o sh ⟨sh.firstCluster, sh.size⟩) (fun _ w => ∃ f A' H',
      Written b v A H o sh e f w A' H' ∧ f.fileSize = sh.size) (fun _ _ => False) v := by
    have hself : setShared (o.parentCluster, o.slotStart) (some sh) v = v := by
      rw [setShared, Function.update_eq_self_iff.2 hsh.symm]
    rw [Fat32.commitFile, wp_bind, wp_modify, if_neg (by simp), wp_pure, hself]
    refine ⟨⟨sh.firstCluster, sh.size⟩, A, H, ⟨h, .refl h.tree _, rfl, rfl, ?_, ?_, ?_, ?_, fun _ => rfl⟩, rfl⟩
    · exact (Function.update_eq_self_iff.2 hsh.symm).symm
    · rw [← hfirst, ← hsize]
      exact he
    · rw [← hfirst, ← hsize]
      exact fun _ hc => hc
    · exact Set.subset_insert _ _
  rw [Fat32.fsWrite, wp_bind, wp_readDev h.image.getBpb_eq, wp_bind, wp_get]
  simp only [hs]
  by_cases h0 : data = []
  · subst h0
    rw [Fat32.writeFile, if_pos rfl, wp_bind, wp_pure]
    refine hcommit.seq ?_
    rintro - w ⟨f, A', H', hw, hfs⟩
    rw [wp_pure]
    exact ⟨e, f, A', H', he, hss, hdir, hname, hw, by rw [if_pos rfl, hfs]⟩
  refine (h.image.writeFile hb hf (f := ⟨sh.firstCluster, sh.size⟩) hl h0 off).seq' ?_ ?_
  · rintro f w ⟨news, A', old, hw⟩
    have hne : l ≠ [] → sh.firstCluster ∈ H.files ∧ l = H.chain sh.firstCluster := by
      intro h1
      exact hcase.resolve_left fun h2 => h1 h2.1
    have hl' : l = [] ∨ f.firstCluster ∈ H.files ∧ l = H.chain f.firstCluster := by
      by_cases h1 : l = []
      · exact .inl h1
      · rw [hw.first h1]
        exact .inr (hne h1)
    obtain ⟨hedit, hrefs, -⟩ := h.tree.extendFile hl' hw.extends_ nowhere
    have hm := h.moves hw.becomes hedit fun _ _ hF => hF.elim
    have he' := (hm.edits.keeps.entry _ e he).resolve_left fun hF => hF.elim
    refine ((hm.sound.commitFile hb hf (by rw [hm.same.handles, ho]) hkind
      (by rw [hm.same.openFiles, hsh]) he' hss hdir hname hfirst hsize
      (hf.lt hw.extends_.chain.first) (fun _ => .inl rfl) ?_).seq ?_)
    · intro _ d j s hr heq
      rw [heq, hfirst]
      by_cases h1 : l = []
      · subst h1
        exact absurd heq (h.tree.ref_ne_free hw.extends_.chain.first
          (hw.extends_.free _ hw.extends_.chain.linked.mem) (hrefs d j s hr))
      · exact hw.first h1
    · rintro - x ⟨A'', hx, hedit', h1, h2, h3, h4, hfind⟩
      rw [wp_pure]
      refine ⟨e, f, A'', _, he, hss, hdir, hname, ⟨hx, (hedit.mono fun _ _ hF => hF.elim).trans hedit',
        by rw [h1, hm.same.handles], by rw [h2, hm.same.nextHandle], by rw [h3, hm.same.openFiles], h4,
        fun c hc => hfind c ((hm.edits.keeps.name _ he.1 c e hc).resolve_left fun hF => hF.elim),
        Heads.putFile_all.subset, fun h2 => ?_⟩, by rw [if_neg h0, hw.size]⟩
      refine hw.first ?_
      rcases hcase with ⟨-, h5⟩ | ⟨h5, rfl⟩
      · omega
      · exact (h.tree.chains.chain _ (.inr h5)).linked.ne_nil
  · rintro e' w ⟨-, news, A', hw, hfull, hlt, ⟨-, rfl, rfl⟩ | ⟨a, ha, hext⟩⟩
    · refine ⟨?_, (h.moves hw (.refl h.tree nowhere) fun _ _ hF => hF.elim).gains rfl _⟩
      rw [(FreeList.of_full hfull).free_eq, length_nil] at *
      omega
    have hl' : l = [] ∨ a ∈ H.files ∧ l = H.chain a := by
      rcases hcase with ⟨h1, -⟩ | ⟨h1, h2⟩
      · exact .inl h1
      · rw [ha (h2 ▸ (h.tree.chains.chain _ (.inr h1)).linked.ne_nil)]
        exact .inr ⟨h1, h2⟩
    have hused : ∀ c ∈ l, A.fat c ≠ 0 := by
      rcases hcase with ⟨rfl, -⟩ | ⟨h1, rfl⟩
      · simp
      · exact fun c hc => (h.tree.chains.chain _ (.inr h1)).not_free hc
    -- all clusters that were free have been taken
    have hfree := (hext.freeList hused (.of_full hfull)).free_eq
    rw [append_nil] at hfree
    obtain ⟨hedit, -⟩ := h.tree.extendFile hl' hext nowhere
    refine ⟨by omega, _, _, h.moves hw hedit fun _ _ hF => hF.elim, fun hroom k hk => .inl ?_⟩
    rw [Heads.putFile_all] at hk
    rcases hk with rfl | hk
    swap
    · exact hk
    rcases hl' with rfl | ⟨h1, -⟩
    · have h2 := length_pos_of_ne_nil hext.chain.linked.ne_nil
      rw [nil_append] at h2
      rcases hcase with ⟨-, h3⟩ | ⟨h3, h4⟩
      · omega
      · exact absurd h4.symm (h.tree.chains.chain _ (.inr h3)).linked.ne_nil
    · exact .inr h1

/-! ## Deleting -/

theorem checkEmpty_ok (h : Sound b v A H) (hf : b.Fits)
    (hdir : e.isDir = true → e.firstCluster ∈ H.dirs) (hok : checkEmpty b e v.dev = .ok ()) :
    e.isDir = true → ∀ e' ∈ A.entries (H.chain e.firstCluster), IsDotName e'.longName := by
  intro hd e' he'
  rw [checkEmpty, if_pos hd, h.image.readChain hf (h.tree.isChain (hdir hd))] at hok
  simp only [bind, Except.bind] at hok
  split_ifs at hok with hall
  · have h1 := all_eq_true.1 hall e' he'
    exact of_decide_eq_true h1

def Heads.without (H : Heads) (a : ℕ) : Heads := if 2 ≤ a then H.remove a else H

section
variable (h : Sound b v A H) (hb : b.Covers) (hf : b.Fits) {res : ResolveOk} (hp : res.parentCluster ∈ H.dirs)
  (he : HasEntry A H res.parentCluster res.entry) (hname : ¬ IsDotName res.entry.longName)
include h hb hf hp he hname

/-- **The entry is marked, and its chain freed.** -/
theorem Sound.deleteEntry (hempty : res.entry.isDir = true →
    ∀ e' ∈ A.entries (H.chain res.entry.firstCluster), IsDotName e'.longName)
    (hopen : res.entry.isDir = false → isOpen v res.parentCluster res.entry.slotStart = false) :
    wp (Fat32.deleteEntry b res) (fun _ w => ∃ A',
    Moves b v A H (fun d ss => d = res.parentCluster ∧ ss = res.entry.slotStart ∨
    d = res.entry.firstCluster) w A' (H.without res.entry.firstCluster) ∧
    (res.entry.isDir = false → Rewrites A H A' (H.without res.entry.firstCluster) res.parentCluster
    (markDeleted res.entry.slotCount res.entry.slotStart (A.bytes (H.chain res.parentCluster)))))
    (fun _ _ => False) v := by
  obtain ⟨e, p, locked⟩ := res
  simp only at hp he hname hempty hopen ⊢
  obtain ⟨j, s, hv, rfl, href⟩ := h.tree.exists_ref he hname
  have hchain := h.tree.isChain hp
  obtain ⟨buf, hbuf, hlen, hedit, hrefs⟩ := h.tree.markEntry h.image hp hv href.2
  have hpoints := h.tree.points p j s href
  -- no file is open at the entry or in the directory that it names
  have hnone : ∀ d ss, (d = p ∧ ss = (entryAt (A.slots (H.chain p)) j s).slotStart ∨
      d = slotCluster s) → v.openFiles (d, ss) = none := by
    intro d ss hX
    by_contra hne
    obtain ⟨sh, hsh⟩ := Option.ne_none_iff_exists'.1 hne
    obtain ⟨e', he', h1, h2, h3, -⟩ := h.opens.entry d ss sh hsh
    rcases hX with ⟨rfl, rfl⟩ | rfl
    · rw [he'.unique he h1] at h2
      have h4 := hopen h2
      rw [isOpen, hsh] at h4
      cases h4
    · by_cases hdir : SlotIsDir s
      · exact h3 (hempty (decide_eq_true hdir) e' he'.2)
      · have h4 := (h.tree.isChain he'.1).first.1
        exact Set.disjoint_left.1 h.tree.kinds he'.1 (hpoints.2 hdir h4)
  have hrw := h.tree.rewrites_set hp hlen
  rw [Fat32.deleteEntry, wp_bind, wp_readDev (h.image.readChain hf hchain), ← hbuf]
  refine (h.image.writeChain hb hchain hlen).seq ?_
  intro _ x hx
  have hmark := hedit.mono (Y := fun d ss => d = p ∧
    ss = (entryAt (A.slots (H.chain p)) j s).slotStart ∨ d = slotCluster s) fun _ _ => .inl
  change wp (if 2 ≤ slotCluster s then freeChain b (slotCluster s) else pure ()) (fun _ w => ∃ A',
    Moves b v A H _ w A' (H.without (slotCluster s)) ∧ (_ → Rewrites A H A' (H.without (slotCluster s)) p buf)) _ x
  unfold Heads.without
  split_ifs with h2
  · have ha := h.tree.mem_all href h2
    have hroot : slotCluster s ≠ b.rootCluster.toNat := by
      by_cases hdir : SlotIsDir s
      · exact (hpoints.1 hdir).2
      · intro heq
        exact Set.disjoint_left.1 h.tree.kinds h.tree.root (heq ▸ hpoints.2 hdir h2)
    refine (hx.image.freeChain hb hf (hedit.tree.chains.chain _ ha)).imp fun _ w hw => ?_
    have htree := hedit.tree.remove ha hroot fun d' j' s' hr _ heq =>
      (hrefs d' j' s' hr).2 (h.tree.unique d' j' s' p j s (hrefs d' j' s' hr).1 href (by rw [heq]; exact h2) heq)
    have hfree : Edits b (A.setBytes b.clusterSize (H.chain p) buf) H
        ((A.setBytes b.clusterSize (H.chain p) buf).freeAll (H.chain (slotCluster s)))
        (H.remove (slotCluster s)) fun d _ => d = slotCluster s := by
      refine ⟨htree, keeps_of_carried fun d hd => ?_, fun hF => hF.remove, fun d hd => ?_⟩
      · by_cases hda : d = slotCluster s
        · exact .inl fun _ => hda
        · refine .inr ⟨⟨hd, hda⟩, ?_⟩
          rw [show (H.remove (slotCluster s)).chain = H.chain from rfl, Image.slots_freeAll]
          exact .refl _ _
      · by_cases hda : d = slotCluster s
        · exact .inl fun _ => hda
        · exact .inr ⟨hd, hda⟩
    refine ⟨_, h.moves (hx.trans hw) (hmark.trans (hfree.mono fun _ _ => .inr)) hnone, fun hfile => ?_⟩
    have hbytes : ∀ l, ((A.setBytes b.clusterSize (H.chain p) buf).freeAll
        (H.chain (slotCluster s))).bytes l = (A.setBytes b.clusterSize (H.chain p) buf).bytes l :=
      fun l => Image.bytes_congr fun c _ => by rw [Image.freeAll_data]
    refine ⟨fun d hd => ⟨hd, ?_⟩, (hbytes _).trans hrw.self, fun d hd hne => (hbytes _).trans (hrw.other d hd hne)⟩
    rintro rfl
    exact Set.disjoint_left.1 h.tree.kinds hd (hpoints.2 (of_decide_eq_false hfile) h2)
  · rw [wp_pure]
    exact ⟨_, h.moves hx hmark hnone, fun _ => hrw⟩

/-- **The entry that `fs_delete` has found** is deleted, or nothing changes. -/
theorem Sound.deleteFound : wp (Fat32.deleteFound b res) (fun _ w => ∃ A',
    (res.entry.isDir = true → ∀ e' ∈ A.entries (H.chain res.entry.firstCluster),
    IsDotName e'.longName) ∧ Moves b v A H (fun d ss => d = res.parentCluster ∧
    ss = res.entry.slotStart ∨ d = res.entry.firstCluster) w A' (H.without res.entry.firstCluster) ∧
    (res.entry.isDir = false → Rewrites A H A' (H.without res.entry.firstCluster) res.parentCluster
    (markDeleted res.entry.slotCount res.entry.slotStart (A.bytes (H.chain res.parentCluster)))))
    (fun e w => (∃ n, e = .err n) ∧ w = v) v := by
  have hdir : res.entry.isDir = true → res.entry.firstCluster ∈ H.dirs := by
    intro hd
    obtain ⟨j, s, -, heq, hr⟩ := h.tree.exists_ref he hname
    rw [heq] at hd ⊢
    exact ((h.tree.points _ j s hr).1 (of_decide_eq_true hd)).1
  rw [Fat32.deleteFound, wp_bind, wp_readDev_iff]
  refine ⟨fun _ hcheck => ?_, fun e herr => ⟨?_, rfl⟩⟩
  · rw [wp_bind, wp_get]
    split_ifs with hbusy
    · exact ⟨⟨_, rfl⟩, rfl⟩
    have hempty := checkEmpty_ok h hf hdir hcheck
    refine (h.deleteEntry hb hf hp he hname hempty fun hfile => ?_).mono ?_ fun _ _ hF => hF.elim
    · by_contra hopen
      exact hbusy ⟨hfile, by simpa using hopen⟩
    · rintro - w ⟨A', hm⟩
      exact ⟨A', hempty, hm⟩
  · unfold checkEmpty at herr
    split_ifs at herr with hd
    · rw [h.image.readChain hf (h.tree.isChain (hdir hd))] at herr
      simp only [bind, Except.bind] at herr
      split_ifs at herr
      · cases herr
      · exact ⟨_, (Except.error.inj herr).symm⟩
    · cases herr

end

/-- **`fs_delete`**: what is deleted, and that a refused deletion changes nothing. -/
theorem Sound.fsDelete (h : Sound b v A H) (hb : b.Covers) (hf : b.Fits) (hpath : Canonical path) :
    wp (Fat32.fsDelete path) (fun _ w => ∃ cs c p e A', path = render (cs ++ [c]) ∧
    DirAt b A H cs p ∧ ¬ IsDotName c ∧ findName (A.entries (H.chain p)) c = some e ∧
    (e.isDir = true → ∀ e' ∈ A.entries (H.chain e.firstCluster), IsDotName e'.longName) ∧
    Moves b v A H (fun d ss => d = p ∧ ss = e.slotStart ∨ d = e.firstCluster) w A'
    (H.without e.firstCluster)) (fun _ w => w = v) v := by
  obtain ⟨cs, hcs, rfl⟩ := hpath
  have hcomp : components (render cs) = cs := components_render fun c hc => (hcs c hc).1
  rw [Fat32.fsDelete, wp_bind, wp_readDev h.image.getBpb_eq, wp_bind, wp_readDev_iff]
  refine ⟨fun res hres => ?_, fun e _ => rfl⟩
  have hfound := h.tree.resolveSimple_ok h.image hf (by
    rw [hcomp]; exact fun x hx => (hcs x hx).2) hres
  rw [hcomp] at hfound
  rcases eq_nil_or_concat cs with rfl | ⟨cs, c, rfl⟩
  · rw [hfound.root rfl, if_pos rfl, wp_throw]
  rw [concat_eq_append] at *
  have hc := hcs c (by simp)
  obtain ⟨hdir, hfind, hlocked⟩ := hfound.entry cs c rfl
  have hp := hdir.mem h.tree
  rw [hlocked, if_neg (by simp)]
  refine (h.deleteFound hb hf hp ⟨hp, (findName_spec hfind).1⟩
    (not_isDotName_of_findName hfind hc.2)).mono ?_ fun _ _ hw => hw.2
  rintro - w ⟨A', hempty, hm, -⟩
  exact ⟨cs, c, res.parentCluster, res.entry, A', rfl, hdir, hc.2, hfind, hempty, hm⟩

/-! ## Opening, closing and reading -/

/-- **`fs_open`**: the handle of a directory, or of a file whose place is registered. -/
theorem Sound.openEntry (h : Sound b v A H) {res : ResolveOk} (hres : res.entry.isDir = false →
    HasEntry A H res.parentCluster res.entry ∧ ¬ IsDotName res.entry.longName) : wp (Fat32.openEntry res)
    (fun r w => r = .opened v.nextHandle res.entry.isDir ∧ Sound b w A H ∧ w.dev = v.dev) (fun _ _ => False) v := by
  rw [Fat32.openEntry, wp_bind, wp_get]
  split_ifs with hdir
  · rw [wp_bind, wp_modify, wp_pure]
    exact ⟨rfl, ⟨h.image, h.tree, h.opens.openDir rfl⟩, rfl⟩
  rw [Bool.not_eq_true] at hdir
  rw [wp_bind, wp_modify, wp_pure]
  obtain ⟨he, hname⟩ := hres hdir
  have hdev : ∀ (key : ℕ × ℕ) (c n : ℕ), (acquireOpenFile key c n v).dev = v.dev := by
    intro key c n
    rw [acquireOpenFile_eq]
    rfl
  refine ⟨rfl, ⟨?_, h.tree, h.opens.openFile he hdir hname⟩, ?_⟩
  · change Shows b (acquireOpenFile _ _ _ v).dev A
    rw [hdev]
    exact h.image
  · change (acquireOpenFile _ _ _ v).dev = v.dev
    rw [hdev]

theorem Sound.resolve_found (h : Sound b v A H) (hf : b.Fits) (hpath : Canonical path) {follow : Bool}
    {res : ResolveOk} (hres : resolve b path follow v.dev = .ok (.found res)) : Found b A H (components path) res ∧
    (res.entry.isDir = false → HasEntry A H res.parentCluster res.entry ∧ ¬ IsDotName res.entry.longName) := by
  have hplain := hpath.plain
  have hsimple : resolveSimple b path follow v.dev = .ok res := by rw [resolveSimple, hres]; rfl
  have hfound := h.tree.resolveSimple_ok h.image hf (fun c hc => (hplain c hc).2) hsimple
  refine ⟨hfound, fun hdir => ?_⟩
  rcases eq_nil_or_concat (components path) with h0 | ⟨cs, c, h0⟩
  · rw [hfound.root h0, root_isDir] at hdir; cases hdir
  · rw [concat_eq_append] at h0
    obtain ⟨h1, h2, -⟩ := hfound.entry cs c h0
    exact ⟨⟨h1.mem h.tree, (findName_spec h2).1⟩, not_isDotName_of_findName h2 (hplain c (by rw [h0]; simp)).2⟩

theorem Sound.fsOpen (h : Sound b v A H) (hf : b.Fits) (hpath : Canonical path) (follow : Bool)
    (symlinkLen remainingLen : ℕ) : wp (Fat32.fsOpen path follow symlinkLen remainingLen)
    (fun _ w => Sound b w A H ∧ w.dev = v.dev) (fun _ w => w = v) v := by
  rw [Fat32.fsOpen, wp_bind, wp_readDev h.image.getBpb_eq, wp_bind, wp_readDev_iff]
  refine ⟨fun r hr => ?_, fun e _ => rfl⟩
  cases r with
  | symlink target remaining => exact ⟨h, rfl⟩
  | found res =>
    obtain ⟨-, hres⟩ := h.resolve_found hf hpath hr
    exact (h.openEntry hres).mono (fun _ w hw => hw.2) fun _ _ hF => hF.elim

theorem Sound.fsClose (h : Sound b v A H) (handle : ℕ) : wp (Fat32.fsClose handle)
    (fun _ w => Sound b w A H ∧ w.dev = v.dev) (fun e w => e = .panic ∧ w = v) v := by
  rw [Fat32.fsClose, wp_bind, wp_get]
  cases ho : v.handles handle with
  | none => exact ⟨rfl, rfl⟩
  | some o =>
    simp only
    rw [wp_bind, wp_modify]
    cases hk : o.kind with
    | dir c => exact ⟨⟨h.image, h.tree, h.opens.closeDir ho (by rw [OpenFile.key, hk])⟩, rfl⟩
    | file =>
      have hkey : o.key = some (o.parentCluster, o.slotStart) := by rw [OpenFile.key, hk]
      have hopens := h.opens.closeFile ho hkey
      obtain ⟨sh, hsh⟩ := h.opens.registered.exists_shared ho hkey
      simp only [wp_modify]
      rw [releaseOpenFile_eq (v := { v with handles := Function.update v.handles handle none }) hsh] at hopens ⊢
      exact ⟨⟨h.image, h.tree, hopens⟩, rfl⟩

end

end Archis.Fat32
