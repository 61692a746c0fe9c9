/-
  The listings of a volume, and what a section changes in them.

  `Change` says of each job how the listings differ when it has succeeded.  `Listed.run`: on a sound volume with
  well-formed directories and distinct names they differ so, or stay.
-/
import Archis.Fat32.Listing
import Archis.Fat32.Rename
import Archis.Fat32.Tasks

namespace Archis.Fat32

open Archis.Lib
open List hiding utf8Encode
open Function (update_of_ne update_self)

/-! ## Listings -/

/-- `decode_dir_entries(&read_chain(..))`. -/
def listDir (b : Bpb) (d : ℕ) (dev : Dev) : Except Fault (List DirEntryView) := do
  let buf ← readChain b d dev
  return decodeDirEntries buf

def lists (b : Bpb) (dirs : List ℕ) (dev : Dev) (d : ℕ) : Option (List DirEntryView) :=
  if d ∈ dirs then (listDir b d dev).toOption else none

def Distinct (es : List DirEntryView) : Prop := (es.map fun e => asciiLower e.longName).Nodup

def dotEntries (c p : ℕ) : List DirEntryView :=
  [⟨['.'], DOT_NAME, ATTR_DIRECTORY, c, 0, 0, 1⟩, ⟨['.', '.'], DOTDOT_NAME, ATTR_DIRECTORY, p, 0, 32, 1⟩]

/-- The same file or directory under another name. -/
structure SameTarget (e e' : DirEntryView) : Prop where
  attr : e'.attr = e.attr
  firstCluster : e'.firstCluster = e.firstCluster
  size : e'.size = e.size

/-- **What a job changes**: its own entry, in the directories where it works. -/
inductive Change (D : ℕ → Option (List DirEntryView)) :
    Job → List ℕ → Option ℕ → (ℕ → Option (List DirEntryView)) → Prop where
  | createFile {leaf : List Char} {p : ℕ} {es : List DirEntryView} {e : DirEntryView} :
    D p = some es → e.longName = leaf → e.attr = ATTR_ARCHIVE → e.firstCluster = 0 → e.size = 0 →
    Change D (.createFile leaf) [p] none (Function.update D p (some (es ++ [e])))
  | mkdir {leaf : List Char} {p c : ℕ} {es : List DirEntryView} {e : DirEntryView} :
    D p = some es → D c = none → e.longName = leaf → e.attr = ATTR_DIRECTORY → e.firstCluster = c →
    Change D (.mkdir leaf) [p] (some c)
      (Function.update (Function.update D c (some (dotEntries c p))) p (some (es ++ [e])))
  | createSymlink {leaf target : List Char} {p : ℕ} {es : List DirEntryView} {e : DirEntryView} :
    D p = some es → e.longName = leaf → e.attr = ATTR_ARCHIVE ||| ATTR_SYMLINK →
    e.size = (utf8Encode target).length % 2 ^ 32 →
    Change D (.createSymlink leaf target) [p] none (Function.update D p (some (es ++ [e])))
  | delete {leaf : List Char} {p : ℕ} {es : List DirEntryView} {e : DirEntryView} :
    D p = some es → findName es leaf = some e →
    Change D (.delete leaf) [p] none (Function.update D p (some (es.erase e)))
  | renameSameDir {fromLeaf toLeaf : List Char} {p : ℕ} {es : List DirEntryView}
      {e e' : DirEntryView} :
    D p = some es → findName es fromLeaf = some e → e'.longName = toLeaf → SameTarget e e' →
    Change D (.renameSameDir fromLeaf toLeaf) [p] none (Function.update D p (some (es.erase e ++ [e'])))
  | renameCrossDir {fromFirst : Bool} {fromLeaf toLeaf : List Char} {p q : ℕ}
      {es es' : List DirEntryView} {e e' : DirEntryView} :
    p ≠ q → D p = some es → D q = some es' → findName es fromLeaf = some e →
    e'.longName = toLeaf → SameTarget e e' →
    Change D (.renameCrossDir fromFirst fromLeaf toLeaf) (if fromFirst then [p, q] else [q, p]) none
      (Function.update (Function.update D p (some (es.erase e))) q (some (es' ++ [e'])))

/-! ## Good directories -/

section
variable {es : List DirEntryView} {e : DirEntryView}

theorem Distinct.append (h : Distinct es)
    (hnew : ∀ e' ∈ es, asciiLower e'.longName ≠ asciiLower e.longName) : Distinct (es ++ [e]) := by
  rw [Distinct, map_append, map_singleton]
  refine nodup_append.2 ⟨h, nodup_singleton _, ?_⟩
  intro x hx y hy
  obtain ⟨e', he', rfl⟩ := mem_map.1 hx
  rw [mem_singleton.1 hy]
  exact hnew e' he'

theorem Distinct.erase (h : Distinct es) (e : DirEntryView) : Distinct (es.erase e) :=
  h.sublist (erase_sublist.map _)

end

/-- A directory that is well formed, whose names are distinct and whose subdirectories are among
    these. -/
structure Good (buf : List UInt8) (dirs : List ℕ) : Prop where
  formed : WellFormedDir buf
  distinct : Distinct (decodeDirEntries buf)
  closed : ∀ e ∈ decodeDirEntries buf, ¬ IsDotName e.longName → e.isDir = true → e.firstCluster ∈ dirs

namespace Good

variable {b : Bpb} {buf : List UInt8} {dirs : List ℕ}

theorem grow (h : Good buf dirs) (more : List ℕ) : Good buf (more ++ dirs) :=
  ⟨h.formed, h.distinct, fun e he hn hd => mem_append_right _ (h.closed e he hn hd)⟩

theorem pad (h : Good buf dirs) (hb : b.Valid) (k : ℕ) : Good (buf ++ replicate (k * b.clusterSize) 0) dirs := by
  obtain ⟨h1, h2⟩ := h.formed.pad hb k
  exact ⟨h1, by rw [h2]; exact h.distinct, by rw [h2]; exact h.closed⟩

theorem append (h : Good buf dirs) (hb : b.Valid) {name : List Char} (hname : ShortEnough name)
    (existing : List DirEntryView) (attr : UInt8) {firstCluster size : ℕ} (hattr : attr &&& ATTR_VOLUME_ID = 0)
    (hfc : firstCluster < 2 ^ 32) (hsize : size < 2 ^ 32) (hnew : ∀ e ∈ decodeDirEntries buf,
    asciiLower e.longName ≠ asciiLower name) (hdir : attr &&& ATTR_DIRECTORY ≠ 0 → firstCluster ∈ dirs) : Good
    (appendBuf b.clusterSize buf (encodeEntrySlots name (uniqueShortName name existing) attr firstCluster size)) dirs
    ∧ ∃ e : DirEntryView, decodeDirEntries
    (appendBuf b.clusterSize buf (encodeEntrySlots name (uniqueShortName name existing) attr firstCluster size)) =
    decodeDirEntries buf ++ [e] ∧ e.longName = name ∧ e.attr = attr ∧ e.firstCluster = firstCluster ∧ e.size = size :=
    by
  obtain ⟨h1, h2⟩ := h.formed.append hb hname existing hattr hfc hsize rfl
  refine ⟨⟨h1, ?_, ?_⟩, _, h2, rfl, rfl, rfl, rfl⟩
  · rw [h2]
    exact h.distinct.append hnew
  rw [h2]
  intro e he hn hd
  rcases mem_append.1 he with he | he
  · exact h.closed e he hn hd
  · rw [mem_singleton.1 he] at hd ⊢
    exact hdir (of_decide_eq_true hd)

theorem withEntry (h : Good buf dirs) (hb : b.Valid) (parent : DirEntryView) {leaf : List Char}
    (hleaf : ShortEnough leaf) (attr : UInt8) (firstCluster size : ℕ) (hattr : attr &&& ATTR_VOLUME_ID = 0)
    (hfc : firstCluster < 2 ^ 32) (hsize : size < 2 ^ 32) (hnew : ∀ e ∈ decodeDirEntries buf,
    asciiLower e.longName ≠ asciiLower leaf) (hdir : attr &&& ATTR_DIRECTORY ≠ 0 → firstCluster ∈ dirs) : Good
    (Fat32.withEntry b ⟨parent, leaf, buf⟩ attr firstCluster size) dirs ∧
      ∃ e : DirEntryView, decodeDirEntries (Fat32.withEntry b ⟨parent, leaf, buf⟩ attr firstCluster size) =
          decodeDirEntries buf ++ [e] ∧
        e.longName = leaf ∧ e.attr = attr ∧ e.firstCluster = firstCluster ∧ e.size = size :=
  h.append hb hleaf (decodeDirEntries buf) attr hattr hfc hsize hnew hdir

theorem markDeleted (h : Good buf dirs) {j : ℕ} {s : Slot} (hv : Visible (chunks 32 buf) j s)
    (href : RefSlot s) {e : DirEntryView} (he : e = entryAt (chunks 32 buf) j s) :
    Good (Fat32.markDeleted e.slotCount e.slotStart buf) dirs ∧
      decodeDirEntries (Fat32.markDeleted e.slotCount e.slotStart buf) = (decodeDirEntries buf).erase e := by
  subst he
  obtain ⟨h1, h2⟩ := h.formed.markDeleted hv href rfl
  refine ⟨⟨h1, ?_, ?_⟩, h2⟩
  · rw [h2]
    exact h.distinct.erase _
  · rw [h2]
    exact fun e he => h.closed e (mem_of_mem_erase he)

theorem newDir (hb : b.Valid) {c p : ℕ} (hc : c < 2 ^ 32) (hp : p < 2 ^ 32) (dirs : List ℕ) :
    Good (newDirBuf b c p) dirs ∧ decodeDirEntries (newDirBuf b c p) = dotEntries c p := by
  obtain ⟨h1, h2⟩ := decode_newDirBuf hb hc hp
  refine ⟨⟨h1, ?_, ?_⟩, h2⟩
  · rw [h2]
    exact show [asciiLower ['.'], asciiLower ['.', '.']].Nodup by decide
  rw [h2]
  intro e he hn
  refine absurd ?_ hn
  simp only [mem_cons, not_mem_nil, or_false] at he
  rcases he with rfl | rfl
  · exact .inl rfl
  · exact .inr rfl

end Good

/-! ## Volumes with good directories -/

/-- A sound volume, some of whose directories are good; the root is one of them. -/
structure Listed (b : Bpb) (v : Vol) (dirs : List ℕ) (A : Image) (H : Heads) : Prop where
  sound : Sound b v A H
  root : b.rootCluster.toNat ∈ dirs
  mem : ∀ d ∈ dirs, d ∈ H.dirs
  good : ∀ d ∈ dirs, Good (A.bytes (H.chain d)) dirs

namespace Listed

variable {b : Bpb} {v w : Vol} {A A' : Image} {H H' : Heads} {dirs more : List ℕ} {p d : ℕ}
  {buf : List UInt8} {e : DirEntryView}

theorem listDir_eq (h : Listed b v dirs A H) (hf : b.Fits) (hd : d ∈ dirs) :
    listDir b d v.dev = .ok (A.entries (H.chain d)) := by
  rw [listDir, h.sound.image.readChain hf (h.sound.tree.isChain (h.mem d hd))]
  rfl

theorem lists_eq (h : Listed b v dirs A H) (hf : b.Fits) (hd : d ∈ dirs) :
    lists b dirs v.dev d = some (A.entries (H.chain d)) := by
  rw [lists, if_pos hd, h.listDir_eq hf hd]
  rfl

theorem lists_of_notMem {dev : Dev} (hd : d ∉ dirs) : lists b dirs dev d = none := if_neg hd

theorem update (h : Listed b v dirs A H) (hs : Sound b w A' H') (hdirs : ∀ d ∈ H.dirs, d ∈ H'.dirs)
    (hold : ∀ d ∈ dirs, A'.bytes (H'.chain d) = A.bytes (H.chain d) ∨ Good (A'.bytes (H'.chain d))
    (more ++ dirs)) (hnew : ∀ d ∈ more, d ∈ H'.dirs ∧ Good (A'.bytes (H'.chain d)) (more ++ dirs)) :
    Listed b w (more ++ dirs) A' H' := by
  refine ⟨hs, mem_append_right _ h.root, fun d hd => ?_, fun d hd => ?_⟩
  · rcases mem_append.1 hd with hd | hd
    · exact (hnew d hd).1
    · exact hdirs d (h.mem d hd)
  rcases mem_append.1 hd with hd | hd
  · exact (hnew d hd).2
  · rcases hold d hd with h1 | h1
    · rw [h1]
      exact (h.good d hd).grow more
    · exact h1

theorem rewrite (h : Listed b v dirs A H) (hf : b.Fits) (hs : Sound b w A' H') (hp : p ∈ dirs)
    (hr : Rewrites A H A' H' p buf) (hbuf : Good buf dirs) : Listed b w dirs A' H' ∧
    lists b dirs w.dev = Function.update (lists b dirs v.dev) p (some (decodeDirEntries buf)) := by
  have hw : Listed b w ([] ++ dirs) A' H' := by
    refine h.update hs hr.dirs (fun d hd => ?_) (by simp)
    by_cases hne : d = p
    · rw [hne, hr.self]
      exact .inr hbuf
    · exact .inl (hr.other d (h.mem d hd) hne)
  refine ⟨hw, funext fun d => ?_⟩
  by_cases hne : d = p
  · subst hne
    rw [update_self]
    exact (hw.lists_eq hf hp).trans (by rw [Image.entries, hr.self])
  rw [update_of_ne hne]
  by_cases hd : d ∈ dirs
  · rw [h.lists_eq hf hd]
    exact (hw.lists_eq hf hd).trans (by rw [Image.entries, hr.other d (h.mem d hd) hne]; rfl)
  · rw [lists_of_notMem hd, lists_of_notMem hd]

theorem exists_slot (h : Listed b v dirs A H) (hp : p ∈ dirs) {name : List Char}
    (hname : ¬ IsDotName name) (hfind : findName (A.entries (H.chain p)) name = some e) :
    ∃ j s, Visible (chunks 32 (A.bytes (H.chain p))) j s ∧ RefSlot s ∧
      e = entryAt (chunks 32 (A.bytes (H.chain p))) j s ∧ e.attr &&& ATTR_VOLUME_ID = 0 ∧
      e.firstCluster < 2 ^ 32 ∧ e.size < 2 ^ 32 ∧
      (e.attr &&& ATTR_DIRECTORY ≠ 0 → e.firstCluster ∈ dirs) := by
  have hmem := (findName_spec hfind).1
  have hdot := not_isDotName_of_findName hfind hname
  obtain ⟨j, s, hv, heq, hr⟩ := h.sound.tree.exists_ref ⟨h.mem p hp, hmem⟩ hdot
  obtain ⟨h1, h2, h3⟩ := hr.spec
  refine ⟨j, s, hv, hr.2, heq, by rw [heq]; exact h1, by rw [heq]; exact h2, by rw [heq]; exact h3, fun hd => ?_⟩
  exact (h.good p hp).closed e hmem hdot (decide_eq_true hd)

end Listed

/-! ## The sections -/

/-- A job finds entries by names that are no dot names, and new names have up to 255 units. -/
def Job.Legal : Job → Prop
  | .createFile leaf | .mkdir leaf | .createSymlink leaf _ => ShortEnough leaf
  | .delete leaf => ¬ IsDotName leaf
  | .renameSameDir fromLeaf toLeaf | .renameCrossDir _ fromLeaf toLeaf =>
    ¬ IsDotName fromLeaf ∧ ShortEnough toLeaf

/-- The section has succeeded and changed the listings as its job does. -/
def Succeeds (b : Bpb) (v : Vol) (dirs : List ℕ) (job : Job) (parents : List ℕ) (made : Option ℕ) (w : Vol) : Prop :=
  (∃ A H, Listed b w (made.toList ++ dirs) A H) ∧
    Change (lists b dirs v.dev) job parents made (lists b (made.toList ++ dirs) w.dev)

/-- The section has failed with an error code, and the listings are what they were. -/
def Fails (b : Bpb) (v : Vol) (dirs : List ℕ) (e : Fault) (w : Vol) : Prop :=
  (∃ n, e = .err n) ∧ (∃ A H, Listed b w dirs A H) ∧ lists b dirs w.dev = lists b dirs v.dev

namespace Listed

variable {b : Bpb} {v w : Vol} {A : Image} {H : Heads} {dirs : List ℕ} {parent : DirEntryView}
  {leaf : List Char} {e : Fault}

theorem fails (h : Listed b v dirs A H) (n : Errno) : Fails b v dirs (.err n) v :=
  ⟨⟨n, rfl⟩, ⟨A, H, h⟩, rfl⟩

/-- **A section that failed**: a directory may have grown. -/
theorem padded (h : Listed b v dirs A H) (hb : b.Covers) (hf : b.Fits) {A' : Image} {H' : Heads} {p k : ℕ}
    (hs : Sound b w A' H') (hp : p ∈ dirs) (hr : Rewrites A H A' H' p (padded b A H p k)) (n : Errno) :
    Fails b v dirs (.err n) w := by
  obtain ⟨h1, h2⟩ := h.rewrite hf hs hp hr ((h.good p hp).pad hb.valid k)
  refine ⟨⟨n, rfl⟩, ⟨A', H', h1⟩, h2.trans ?_⟩
  rw [Fat32.padded, ((h.good p hp).formed.pad hb.valid k).2, Function.update_eq_self_iff, h.lists_eq hf hp]
  rfl

theorem placeIn (h : Listed b v dirs A H) (hf : b.Fits) (hp : parent.firstCluster ∈ dirs)
    {α : Type} {f : NewPlace → FsM α} {Q : α → Vol → Prop}
    (hok : (∀ e ∈ A.entries (H.chain parent.firstCluster), asciiLower e.longName ≠ asciiLower leaf) →
      wp (f ⟨parent, leaf, A.bytes (H.chain parent.firstCluster)⟩) Q (Fails b v dirs) v) :
    wp (readDev (Fat32.placeIn b parent leaf) >>= f) Q (Fails b v dirs) v := by
  rw [wp_bind, wp_readDev_iff]
  refine ⟨fun pl hpl => ?_, fun e he => ?_⟩
  · obtain ⟨rfl, hnew⟩ := h.sound.placeIn hf (h.mem _ hp) hpl
    exact hok hnew
  rw [Fat32.placeIn, h.sound.image.readChain hf (h.sound.tree.isChain (h.mem _ hp))] at he
  simp only [bind, Except.bind] at he
  split_ifs at he
  · cases he
    exact h.fails _
  · cases he

section
variable (h : Listed b v dirs A H) (hb : b.Covers) (hf : b.Fits) (hp : parent.firstCluster ∈ dirs)
include h hb hf hp

theorem createFileIn (hleaf : ShortEnough leaf) : wp (Fat32.createFileIn b parent leaf)
    (fun _ => Succeeds b v dirs (.createFile leaf) [parent.firstCluster] none) (Fails b v dirs)
    v := by
  refine h.placeIn hf hp fun hnew => ?_
  refine (h.sound.addEntry hb hf (h.mem _ hp) rfl (by decide) (by norm_num) (by norm_num)
    ⟨fun h0 => absurd h0 (by decide), fun _ h2 => absurd h2 (by norm_num)⟩
    fun h2 => absurd h2 (by norm_num)).mono ?_ ?_
  · rintro - w ⟨A', H', hm, -, -, hr⟩
    obtain ⟨hgood, e, hdec, hn, ha, hc, hs⟩ := (h.good _ hp).withEntry hb.valid parent hleaf
      ATTR_ARCHIVE 0 0 (by decide) (by norm_num) (by norm_num) hnew fun h0 => absurd h0 (by decide)
    obtain ⟨h1, h2⟩ := h.rewrite hf hm.sound hp hr hgood
    rw [hdec] at h2
    exact ⟨⟨A', H', h1⟩, h2 ▸ .createFile (h.lists_eq hf hp) hn ha hc hs⟩
  · rintro e w ⟨rfl, ⟨A', H', k, hm, -, hr⟩, -⟩
    exact h.padded hb hf hm.sound hp hr _

theorem createSymlinkIn (hleaf : ShortEnough leaf) (target : List Char) :
    wp (Fat32.createSymlinkIn b parent leaf target)
      (fun _ => Succeeds b v dirs (.createSymlink leaf target) [parent.firstCluster] none)
      (Fails b v dirs) v := by
  refine h.placeIn hf hp fun hnew => ?_
  refine (h.sound.makeSymlink hb hf (h.mem _ hp) rfl target).mono ?_ ?_
  · rintro - w ⟨c, A', H', hm, -, -, hc, hr⟩
    obtain ⟨hgood, e, hdec, hn, ha, -, hs⟩ := (h.good _ hp).withEntry hb.valid parent hleaf
      (ATTR_ARCHIVE ||| ATTR_SYMLINK) c ((utf8Encode target).length % 2 ^ 32) (by decide) hc
      (Nat.mod_lt _ (by norm_num)) hnew fun h0 => absurd h0 (by decide)
    obtain ⟨h1, h2⟩ := h.rewrite hf hm.sound hp hr hgood
    rw [hdec] at h2
    exact ⟨⟨A', H', h1⟩, h2 ▸ .createSymlink (h.lists_eq hf hp) hn ha hs⟩
  · rintro e w ⟨rfl, A', H', k, hm, -, hr⟩
    exact h.padded hb hf hm.sound hp hr _

/-- **A new directory** is one more directory with a listing. -/
theorem mkdirIn (hleaf : ShortEnough leaf) : wp (Fat32.mkdirIn b parent leaf)
    (fun c => Succeeds b v dirs (.mkdir leaf) [parent.firstCluster] (some c)) (Fails b v dirs)
    v := by
  refine h.placeIn hf hp fun hnew => ?_
  have hp32 := hf.lt (h.sound.tree.isChain (h.mem _ hp)).first
  refine (h.sound.makeDir hb hf (h.mem _ hp) rfl).mono ?_ ?_
  · rintro c w ⟨A', H', hm, -, -, hnot, hc, hc32, hbytes, hr⟩
    have hcd : c ∉ dirs := fun hd => hnot (.inl (h.mem c hd))
    have hne : ∀ d ∈ dirs, d ≠ c := fun d hd heq => hcd (heq ▸ hd)
    obtain ⟨hgood, e, hdec, hn, ha, hfc, -⟩ := ((h.good _ hp).grow [c]).withEntry hb.valid
      parent hleaf ATTR_DIRECTORY c 0 (by decide) hc32 (by norm_num) hnew fun _ => by simp
    obtain ⟨hdots, hlist⟩ := Good.newDir hb.valid hc32 hp32 ([c] ++ dirs)
    have hw : Listed b w ([c] ++ dirs) A' H' := by
      refine h.update hm.sound hr.dirs (fun d hd => ?_) fun d hd => ?_
      · by_cases hdp : d = parent.firstCluster
        · rw [hdp, hr.self]
          exact .inr hgood
        · exact .inl (hr.other d (h.mem d hd) hdp)
      · rw [mem_singleton.1 hd, hbytes]
        exact ⟨hc, hdots⟩
    refine ⟨⟨A', H', hw⟩, ?_⟩
    have hlists : lists b ((some c).toList ++ dirs) w.dev = Function.update (Function.update
        (lists b dirs v.dev) c (some (dotEntries c parent.firstCluster))) parent.firstCluster
          (some (A.entries (H.chain parent.firstCluster) ++ [e])) := by
      funext d
      by_cases hdp : d = parent.firstCluster
      · rw [hdp, update_self]
        refine (hw.lists_eq hf (by simp [hp])).trans ?_
        rw [Image.entries, hr.self]
        exact congrArg some hdec
      · rw [update_of_ne hdp]
        by_cases hdc : d = c
        · rw [hdc, update_self]
          refine (hw.lists_eq hf (by simp)).trans ?_
          rw [Image.entries, hbytes, hlist]
        rw [update_of_ne hdc]
        by_cases hd : d ∈ dirs
        · rw [h.lists_eq hf hd]
          refine (hw.lists_eq hf (by simp [hd])).trans ?_
          rw [Image.entries, hr.other d (h.mem d hd) hdp]
          rfl
        · rw [lists_of_notMem hd]
          exact lists_of_notMem (by simp [hd, hdc])
    rw [hlists]
    exact .mkdir (h.lists_eq hf hp) (lists_of_notMem hcd) hn ha hfc
  · rintro e w ⟨rfl, A', H', k, hm, -, hr⟩
    exact h.padded hb hf hm.sound hp hr _

/-- **The deletion of a file or a symlink.** -/
theorem deleteIn (hleaf : ¬ IsDotName leaf) (hfile : ∀ e,
    findName (A.entries (H.chain parent.firstCluster)) leaf = some e → e.isDir = false) :
    wp (Fat32.deleteIn b parent leaf) (fun _ => Succeeds b v dirs (.delete leaf)
    [parent.firstCluster] none) (Fails b v dirs) v := by
  have hd := h.mem _ hp
  rw [Fat32.deleteIn, wp_bind, wp_readDev_iff, findIn, h.sound.image.readChain hf (h.sound.tree.isChain hd)]
  simp only [bind, Except.bind]
  cases hfind : findName (decodeDirEntries (A.bytes (H.chain parent.firstCluster))) leaf with
  | none =>
    refine ⟨fun res hres => (by cases hres), fun e he => ?_⟩
    cases he
    exact h.fails _
  | some e =>
    refine ⟨fun res hres => ?_, fun e he => (by cases he)⟩
    cases hres
    obtain ⟨j, s, hv, href, heq, -⟩ := h.exists_slot hp hleaf hfind
    refine (h.sound.deleteFound hb hf hd ⟨hd, (findName_spec hfind).1⟩
      (not_isDotName_of_findName hfind hleaf)).mono ?_ ?_
    · rintro - w ⟨A', -, hm, hr⟩
      obtain ⟨hgood, hdec⟩ := (h.good _ hp).markDeleted hv href heq
      obtain ⟨h1, h2⟩ := h.rewrite hf hm.sound hp (hr (hfile e hfind)) hgood
      rw [hdec] at h2
      exact ⟨⟨A', _, h1⟩, h2 ▸ .delete (h.lists_eq hf hp) hfind⟩
    · rintro e w ⟨⟨n, rfl⟩, rfl⟩
      exact h.fails n

theorem renameIn {fromLeaf toLeaf : List Char} (hfrom : ¬ IsDotName fromLeaf) (hto : ShortEnough toLeaf) : wp
    (Fat32.renameIn b parent fromLeaf toLeaf)
    (fun _ => Succeeds b v dirs (.renameSameDir fromLeaf toLeaf) [parent.firstCluster] none) (Fails b v dirs) v := by
  refine (h.sound.renameIn hb hf (h.mem _ hp) hfrom).mono ?_ ?_
  · rintro - w ⟨e, A', H', hfind, hdup, hren, hr⟩
    obtain ⟨j, s, hv, href, heq, hattr, hfc, hsize, hdir⟩ := h.exists_slot hp hfrom hfind
    obtain ⟨hgood, hdec⟩ := (h.good _ hp).markDeleted hv href heq
    have hnew : ∀ e' ∈ decodeDirEntries (markDeleted e.slotCount e.slotStart
        (A.bytes (H.chain parent.firstCluster))), asciiLower e'.longName ≠ asciiLower toLeaf := by
      intro e' he' hname
      rw [hdec, (nodup_decodeDirEntries _).mem_erase_iff] at he'
      refine he'.1 (HasEntry.unique ⟨h.mem _ hp, he'.2⟩ ⟨h.mem _ hp, (findName_spec hfind).1⟩ ?_)
      exact hdup e' he'.2 hname
    obtain ⟨hgood', e', hdec', hn, ha, hc, hs⟩ := hgood.append hb.valid hto
      (A.entries (H.chain parent.firstCluster)) e.attr hattr hfc hsize hnew hdir
    obtain ⟨h1, h2⟩ := h.rewrite hf hren.moves.sound hp hr hgood'
    rw [movedSlots, hdec', hdec] at h2
    exact ⟨⟨A', H', h1⟩, h2 ▸ .renameSameDir (h.lists_eq hf hp) hfind hn ⟨ha, hc, hs⟩⟩
  · rintro e w ⟨⟨n, rfl⟩, A', H', k, hm, -, -, hr⟩
    exact h.padded hb hf hm.sound hp hr _

end

theorem renameBetween (h : Listed b v dirs A H) (hb : b.Covers) (hf : b.Fits) {fromParent toParent :
    DirEntryView} (hp : fromParent.firstCluster ∈ dirs) (hq : toParent.firstCluster ∈ dirs)
    (hpq : fromParent.firstCluster ≠ toParent.firstCluster) {fromLeaf toLeaf : List Char}
    (hfrom : ¬ IsDotName fromLeaf) (hto : ShortEnough toLeaf) (fromFirst : Bool) :
    wp (Fat32.renameBetween b fromParent toParent fromLeaf toLeaf)
    (fun _ => Succeeds b v dirs (.renameCrossDir fromFirst fromLeaf toLeaf)
    (if fromFirst then [fromParent.firstCluster, toParent.firstCluster] else [toParent.firstCluster,
    fromParent.firstCluster]) none) (Fails b v dirs) v := by
  refine (h.sound.renameBetween hb hf (h.mem _ hp) (h.mem _ hq) hpq hfrom).mono ?_ ?_
  · rintro - w ⟨e, A', H', A₁, H₁, hfind, hdup, hren, hr₁, hr₂⟩
    obtain ⟨j, s, hv, href, heq, hattr, hfc, hsize, hdir⟩ := h.exists_slot hp hfrom hfind
    obtain ⟨hgood, hdec⟩ := (h.good _ hp).markDeleted hv href heq
    obtain ⟨hgood', e', hdec', hn, ha, hc, hs⟩ :=
      (h.good _ hq).append hb.valid hto (A.entries (H.chain toParent.firstCluster)) e.attr hattr hfc hsize hdup hdir
    -- the bytes of the two directories, and of the others
    have hbp : A'.bytes (H'.chain fromParent.firstCluster) =
        markDeleted e.slotCount e.slotStart (A.bytes (H.chain fromParent.firstCluster)) := by
      rw [hr₂.other _ (hr₁.dirs _ (h.mem _ hp)) hpq, hr₁.self]
    have hbd : ∀ d ∈ dirs, d ≠ fromParent.firstCluster → d ≠ toParent.firstCluster →
        A'.bytes (H'.chain d) = A.bytes (H.chain d) := by
      intro d hd h1 h2
      rw [hr₂.other _ (hr₁.dirs _ (h.mem _ hd)) h2, hr₁.other _ (h.mem _ hd) h1]
    have hw : Listed b w ([] ++ dirs) A' H' := by
      refine h.update hren.moves.sound (fun d hd => hr₂.dirs d (hr₁.dirs d hd)) (fun d hd => ?_) (by simp)
      by_cases h1 : d = fromParent.firstCluster
      · rw [h1, hbp]
        exact .inr hgood
      · by_cases h2 : d = toParent.firstCluster
        · rw [h2, hr₂.self]
          exact .inr hgood'
        · exact .inl (hbd d hd h1 h2)
    refine ⟨⟨A', H', hw⟩, ?_⟩
    have hlists : lists b dirs w.dev = Function.update (Function.update (lists b dirs v.dev)
        fromParent.firstCluster (some ((A.entries (H.chain fromParent.firstCluster)).erase e)))
        toParent.firstCluster (some (A.entries (H.chain toParent.firstCluster) ++ [e'])) := by
      funext d
      by_cases h2 : d = toParent.firstCluster
      · rw [h2, update_self]
        refine (hw.lists_eq hf hq).trans ?_
        rw [Image.entries, hr₂.self]
        exact congrArg some hdec'
      · rw [update_of_ne h2]
        by_cases h1 : d = fromParent.firstCluster
        · rw [h1, update_self]
          refine (hw.lists_eq hf hp).trans ?_
          rw [Image.entries, hbp, hdec]
          rfl
        · rw [update_of_ne h1]
          by_cases hd : d ∈ dirs
          · rw [h.lists_eq hf hd]
            refine (hw.lists_eq hf hd).trans ?_
            rw [Image.entries, hbd d hd h1 h2]
            rfl
          · rw [lists_of_notMem hd, lists_of_notMem hd]
    change Change _ _ _ _ (lists b dirs w.dev)
    rw [hlists]
    exact .renameCrossDir hpq (h.lists_eq hf hp) (h.lists_eq hf hq) hfind hn ⟨ha, hc, hs⟩
  · rintro e w ⟨⟨n, rfl⟩, A', H', k, hm, -, -, hr⟩
    exact h.padded hb hf hm.sound hq hr _

theorem run (h : Listed b v dirs A H) (hb : b.Covers) (hf : b.Fits) {job : Job} {found : List DirEntryView}
    (hcount : found.length = job.arity) (hfound : ∀ e ∈ found, e.firstCluster ∈ dirs)
    (hnodup : (found.map (·.firstCluster)).Nodup) (hjob : job.Legal) (hfile : ∀ leaf, job = .delete leaf →
    ∀ p ∈ found, ∀ e,
      findName (A.entries (H.chain p.firstCluster)) leaf = some e → e.isDir = false) :
    wp (job.run b found) (Succeeds b v dirs job (found.map (·.firstCluster))) (Fails b v dirs) v := by
  cases job with
  | renameCrossDir fromFirst fromLeaf toLeaf =>
    obtain ⟨p, q, rfl⟩ := length_eq_two.1 hcount
    have hp := hfound p (by simp)
    have hq := hfound q (by simp)
    have hpq : p.firstCluster ≠ q.firstCluster := by
      intro heq
      simp [heq] at hnodup
    cases fromFirst with
    | true =>
      exact wp_bind.2 (h.renameBetween hb hf hp hq hpq hjob.1 hjob.2 true)
    | false =>
      exact wp_bind.2 (h.renameBetween hb hf hq hp (.symm hpq) hjob.1 hjob.2 false)
  | createFile leaf =>
    obtain ⟨p, rfl⟩ := length_eq_one_iff.1 hcount
    exact wp_bind.2 (h.createFileIn hb hf (hfound p (by simp)) hjob)
  | mkdir leaf =>
    obtain ⟨p, rfl⟩ := length_eq_one_iff.1 hcount
    exact wp_bind.2 (h.mkdirIn hb hf (hfound p (by simp)) hjob)
  | createSymlink leaf target =>
    obtain ⟨p, rfl⟩ := length_eq_one_iff.1 hcount
    exact wp_bind.2 (h.createSymlinkIn hb hf (hfound p (by simp)) hjob target)
  | delete leaf =>
    obtain ⟨p, rfl⟩ := length_eq_one_iff.1 hcount
    exact wp_bind.2 (h.deleteIn hb hf (hfound p (by simp)) hjob (hfile leaf rfl p (by simp)))
  | renameSameDir fromLeaf toLeaf =>
    obtain ⟨p, rfl⟩ := length_eq_one_iff.1 hcount
    exact wp_bind.2 (h.renameIn hb hf (hfound p (by simp)) hjob.1 hjob.2)

end Listed

end Archis.Fat32
