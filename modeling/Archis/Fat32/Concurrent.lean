/-
  The listings of a volume under concurrent operations.

  `exec_listings`: in every state of a run on a volume whose cluster numbers fit the FAT, every directory is read, its
  names are distinct, a step changes the listings by its own entry only, and no task is stuck without a lock.  On other
  volumes a directory may be linked to itself (`createFile_unreadable`).
-/
import Archis.Fat32.CrossLink
import Archis.Fat32.Listed

namespace Archis.Fat32

open Archis.Lib
open List hiding next

/-! ## One step of a walk -/

/-- A computation that ends with a value or an error code. -/
def Returns {α : Type} (x : Except Fault α) : Prop := ∀ f, x = .error f → ∃ n, f = .err n

section
variable {α β : Type} {x : Except Fault α}

theorem returns_ok (a : α) : Returns (.ok a : Except Fault α) := fun _ h => by cases h

theorem returns_err (n : Errno) : Returns (.error (.err n) : Except Fault α) :=
  fun f h => ⟨n, by cases h; rfl⟩

theorem Returns.bind {g : α → Except Fault β} (hx : Returns x) (hg : ∀ a, Returns (g a)) : Returns (x >>= g) := by
  cases x with
  | ok a => exact hg a
  | error f =>
    obtain ⟨n, rfl⟩ := hx f rfl
    exact returns_err n

end

section
variable {b : Bpb} {d : Dev}

theorem returns_clusterAtIndexWalk (hd : d.Healthy) : ∀ (n c : ℕ), Returns (clusterAtIndexWalk b d n c)
  | 0, c => returns_ok c
  | n + 1, c => by
    rw [clusterAtIndexWalk, readFatEntry_eq hd]
    refine (returns_ok _).bind fun next => ?_
    split_ifs
    · exact returns_err _
    · exact returns_clusterAtIndexWalk hd n next

theorem returns_readLoop (hd : d.Healthy) (hb : b.Valid) :
    ∀ (n c i off left : ℕ), Returns (readLoop b d n c i off left)
  | 0, _, _, _, _ => returns_ok _
  | n + 1, c, i, off, left => by
    rw [readLoop]
    split_ifs
    · exact returns_ok _
    refine .bind ?_ fun c' => ?_
    · unfold seekWalk
      split_ifs
      · exact returns_clusterAtIndexWalk hd _ _
      · exact returns_ok _
    · rw [readSectors_eq hd (Shows.clusterSize_mod hb) hb.clusterSize_pos]
      exact (returns_ok _).bind fun _ =>
        (returns_readLoop hd hb n _ _ _ _).bind fun _ => returns_ok _

theorem returns_readSymlinkTarget (hd : d.Healthy) (hb : b.Valid) (e : DirEntryView) :
    Returns (readSymlinkTarget b e d) := by
  rw [readSymlinkTarget]
  refine .bind ?_ fun buf => ?_
  · unfold readFile
    split_ifs
    · exact returns_ok _
    · exact (returns_clusterAtIndexWalk hd _ _).bind fun _ => returns_readLoop hd hb _ _ _ _ _
  · cases utf8Decode buf with
    | none => exact returns_err _
    | some target => exact returns_ok target

end

section
variable {b : Bpb} {v : Vol} {dirs : List ℕ} {A : Image} {H : Heads} {cur : ℕ} {comp : List Char}

/-- **One step of the walk** leads from a directory to a directory, or ends with an error code. -/
theorem Listed.lookupDir (h : Listed b v dirs A H) (hf : b.Fits) (hcur : cur ∈ dirs)
    (hcomp : ¬ IsDotName comp) : Returns (Fat32.lookupDir b cur comp v.dev) ∧ ∀ e, Fat32.lookupDir b
    cur comp v.dev = .ok e → e.firstCluster ∈ dirs := by
  rw [Fat32.lookupDir, h.sound.image.readChain hf (h.sound.tree.isChain (h.mem _ hcur))]
  simp only [bind, Except.bind]
  cases hfind : findName (decodeDirEntries (A.bytes (H.chain cur))) comp with
  | none => exact ⟨returns_err _, fun e he => by cases he⟩
  | some e =>
    simp only
    split_ifs with hsym hdir
    · have hread := returns_readSymlinkTarget h.sound.image.healthy h.sound.image.valid e
      cases htarget : readSymlinkTarget b e v.dev with
      | ok target => exact ⟨returns_err _, fun e he => by cases he⟩
      | error f =>
        rw [htarget] at hread
        exact ⟨fun f' hf' => hread f' (by cases hf'; rfl), fun e he => by cases he⟩
    · refine ⟨returns_ok _, fun e' he' => ?_⟩
      obtain rfl : e = e' := by cases he'; rfl
      exact (h.good cur hcur).closed e (findName_spec hfind).1 (not_isDotName_of_findName hfind hcomp) hdir
    · exact ⟨returns_err _, fun e he => by cases he⟩

end

/-! ## Tasks -/

structure TaskOk (b : Bpb) (dirs : List ℕ) (t : Task) : Prop where
  bpb : t.bpb = b
  cur : t.cur.firstCluster ∈ dirs
  found : ∀ e ∈ t.found, e.firstCluster ∈ dirs
  nodup : (t.found.map (·.firstCluster)).Nodup
  names : ∀ comps ∈ t.todo, ∀ c ∈ comps, ¬ IsDotName c
  legal : t.job.Legal
  count : t.found.length + t.todo.length = t.job.arity

variable {b : Bpb} {dirs : List ℕ}

theorem TaskOk.grow {t : Task} (h : TaskOk b dirs t) (more : List ℕ) : TaskOk b (more ++ dirs) t :=
  ⟨h.bpb, mem_append_right _ h.cur, fun e he => mem_append_right _ (h.found e he), h.nodup,
    h.names, h.legal, h.count⟩

def Advances (b : Bpb) (v : Vol) (dirs : List ℕ) (t : Task) (w : Vol) : Task ⊕ Option ℕ → Prop
  | .inl t' => w = v ∧ TaskOk b dirs t' ∧ t.todo ≠ []
  | .inr made => t.todo = [] ∧ Succeeds b v dirs t.job (t.found.map (·.firstCluster)) made w

/-- **One step of a task** that does not wait for a lock. -/
theorem Listed.advance {v : Vol} {A : Image} {H : Heads} {t : Task} (h : Listed b v dirs A H)
    (hb : b.Covers) (hf : b.Fits) (ht : TaskOk b dirs t) (hfree : t.todo ≠ [] → t.cur.firstCluster ∉
    t.found.map (·.firstCluster)) (hfile : ∀ leaf, t.todo = [] → t.job = .delete leaf →
    ∀ p ∈ t.found, ∀ e, findName (A.entries (H.chain p.firstCluster)) leaf = some e →
    e.isDir = false) : wp t.advance (fun r w => Advances b v dirs t w r) (Fails b v dirs) v := by
  unfold Task.advance
  have hcount := ht.count
  cases htodo : t.todo with
  | nil =>
    rw [htodo, length_nil, add_zero] at hcount
    rw [ht.bpb]
    refine (h.run hb hf hcount ht.found ht.nodup ht.legal fun leaf hleaf => hfile leaf htodo hleaf).seq'
      (fun made w hw => ?_) fun _ _ hw => hw
    rw [wp_pure]
    exact ⟨htodo, hw⟩
  | cons comps later =>
    rw [htodo, length_cons] at hcount
    have hne : t.todo ≠ [] := by rw [htodo]; simp
    cases comps with
    | nil =>
      simp only
      rw [wp_pure]
      refine ⟨rfl, ⟨ht.bpb, ?_, fun e he => ?_, ?_, fun cs hcs => ?_, ht.legal, ?_⟩, hne⟩
      · rw [ht.bpb]
        exact h.root
      · rcases mem_append.1 he with he | he
        · exact ht.found e he
        · rw [mem_singleton.1 he]
          exact ht.cur
      · rw [map_append, map_singleton, nodup_append]
        refine ⟨ht.nodup, nodup_singleton _, fun x hx y hy heq => ?_⟩
        rw [heq, mem_singleton.1 hy] at hx
        exact hfree hne hx
      · exact ht.names cs (by rw [htodo]; exact mem_cons_of_mem _ hcs)
      · simp only [length_append, length_singleton]
        omega
    | cons comp rest =>
      have hnames := ht.names (comp :: rest) (by rw [htodo]; simp)
      obtain ⟨hret, hok⟩ := h.lookupDir hf ht.cur (hnames comp (by simp))
      simp only
      rw [ht.bpb, wp_bind, wp_readDev_iff]
      refine ⟨fun e he => ?_, fun f hf' => ?_⟩
      · rw [wp_pure]
        refine ⟨rfl, ⟨rfl, hok e he, ht.found, ht.nodup, fun cs hcs => ?_, ht.legal, ?_⟩, hne⟩
        · rcases mem_cons.1 hcs with rfl | hcs
          · exact fun c hc => hnames c (.tail _ hc)
          · exact ht.names cs (by rw [htodo]; exact mem_cons_of_mem _ hcs)
        · simp only [length_cons]
          omega
      · obtain ⟨n, rfl⟩ := hret f hf'
        exact h.fails n

/-! ## Operations -/

/-- The paths of an operation are as the kernel passes them, and a new name is of up to 255 units. -/
def DirOp.Legal : DirOp → Prop
  | .createFile path | .mkdir path | .createSymlink path _ =>
    Canonical path ∧ ShortEnough (splitParent path).2
  | .delete path => Canonical path
  | .rename src dst => Canonical src ∧ Canonical dst ∧ ShortEnough (splitParent dst).2

section
variable {b : Bpb} {dirs : List ℕ} {t : Task}

theorem taskOk_start {job : Job} {todo : List (List (List Char))} (hroot : b.rootCluster.toNat ∈ dirs)
    (hnames : ∀ comps ∈ todo, ∀ c ∈ comps, ¬ IsDotName c) (hjob : job.Legal)
    (hcount : todo.length = job.arity) : TaskOk b dirs (.start b job todo) :=
  ⟨rfl, hroot, fun e he => (by cases he), nodup_nil, hnames, hjob, (Nat.zero_add _).trans hcount⟩

theorem Canonical.parts {path : List Char} (h : Canonical path) (hleaf : (splitParent path).2 ≠ []) :
    (∀ c ∈ components (splitParent path).1, ¬ IsDotName c) ∧ ¬ IsDotName (splitParent path).2 := by
  obtain ⟨cs, hcs, rfl⟩ := h
  rcases eq_nil_or_concat cs with rfl | ⟨cs, c, rfl⟩
  · exact absurd (by rw [splitParent_root]) hleaf
  rw [concat_eq_append] at hcs ⊢
  have hc := hcs c (by simp)
  have hcomp : components (cs.flatMap fun c => '/' :: c) = cs :=
    components_flatMap fun x hx => (hcs x (by simp [hx])).1
  rw [splitParent_render hc.1, hcomp]
  exact ⟨fun x hx => (hcs x (by simp [hx])).2, hc.2⟩

theorem beginIn_ok {path : List Char} (job : List Char → Job) (hroot : b.rootCluster.toNat ∈ dirs)
    (hpath : Canonical path) (hjob : (job (splitParent path).2).Legal) (harity : (job (splitParent path).2).arity = 1) :
    Returns (beginIn b path job) ∧ ∀ t, beginIn b path job = .ok t → TaskOk b dirs t := by
  unfold beginIn
  split_ifs with h0
  · exact ⟨returns_err _, fun t ht => by cases ht⟩
  refine ⟨returns_ok _, fun t ht => ?_⟩
  cases ht
  refine taskOk_start hroot (fun comps hcomps => ?_) hjob harity.symm
  rw [mem_singleton.1 hcomps]
  exact (hpath.parts h0).1

/-- **A call** is refused, or begins a task. -/
theorem DirOp.Legal.begin {op : DirOp} (h : op.Legal) (hroot : b.rootCluster.toNat ∈ dirs) :
    Returns (op.begin b) ∧ ∀ t, op.begin b = .ok t → TaskOk b dirs t := by
  cases op with
  | createFile path => exact beginIn_ok .createFile hroot h.1 h.2 rfl
  | mkdir path => exact beginIn_ok .mkdir hroot h.1 h.2 rfl
  | createSymlink path target => exact beginIn_ok (.createSymlink · target) hroot h.1 h.2 rfl
  | delete path =>
    have hplain := Canonical.plain h
    rw [DirOp.begin]
    cases hlast : (components path).getLast? with
    | none => exact ⟨returns_err _, fun t ht => by cases ht⟩
    | some leaf =>
      refine ⟨returns_ok _, fun t ht => ?_⟩
      cases ht
      refine taskOk_start hroot (fun comps hcomps c hc => ?_) (hplain leaf (mem_of_getLast? hlast)).2
        rfl
      rw [mem_singleton.1 hcomps] at hc
      exact (hplain c (mem_of_mem_dropLast hc)).2
  | rename src dst =>
    simp only [DirOp.begin]
    split_ifs with h0 hsame hfirst
    · exact ⟨returns_err _, fun t ht => by cases ht⟩
    all_goals
      rw [not_or] at h0
      obtain ⟨hsrc, hfrom⟩ := h.1.parts h0.1
      obtain ⟨hdst, -⟩ := h.2.1.parts h0.2
      refine ⟨returns_ok _, fun t ht => ?_⟩
      cases ht
      refine taskOk_start hroot (fun comps hcomps => ?_) ⟨hfrom, h.2.2⟩ rfl
      simp only [mem_cons, not_mem_nil, or_false] at hcomps
    · rw [hcomps]
      exact hsrc
    · rcases hcomps with rfl | rfl
      · exact hsrc
      · exact hdst
    · rcases hcomps with rfl | rfl
      · exact hdst
      · exact hsrc

end

/-! ## Runs -/

def Sys.lists (b : Bpb) (s : Sys) : ℕ → Option (List DirEntryView) := Fat32.lists b s.dirs s.vol.dev

def Event.Effect (D D' : ℕ → Option (List DirEntryView)) : Event → Prop
  | .going | .failed _ => D' = D
  | .done job parents made => Change D job parents made D'

/-- The steps of the runs: legal calls, and no deletion of a directory. -/
def Allowed (b : Bpb) (s : Sys) : Act → Prop
  | .call op => op.Legal
  | .next i => ∀ t leaf, s.tasks[i]? = some t → t.todo = [] → t.job = .delete leaf →
    ∀ p ∈ t.found, ∀ es e, s.lists b p.firstCluster = some es → findName es leaf = some e → e.isDir = false

/-- The directories of the system are good, and its tasks work in them. -/
structure Inv (b : Bpb) (s : Sys) : Prop where
  listed : ∃ A H, Listed b s.vol s.dirs A H
  tasks : ∀ t ∈ s.tasks, TaskOk b s.dirs t

section
variable {b : Bpb} {s s' : Sys} {t : Task} {i : ℕ} {ev : Event} {a : Act}

theorem not_mem_found_of_free (ht : s.tasks[i]? = some t) (hfree : ¬ s.Blocked t) (hne : t.todo ≠ []) :
    t.cur.firstCluster ∉ t.found.map (·.firstCluster) := by
  intro hmem
  refine hfree ⟨_, if_neg hne, mem_flatMap.2 ⟨t, mem_of_getElem? ht, ?_⟩⟩
  exact mem_append_right _ hmem

theorem Inv.wp_advance (h : Inv b s) (hb : b.Covers) (hf : b.Fits) (ha : Allowed b s (.next i))
    (ht : s.tasks[i]? = some t) (hfree : ¬ s.Blocked t) :
    wp t.advance (fun r w => Advances b s.vol s.dirs t w r) (Fails b s.vol s.dirs) s.vol := by
  obtain ⟨A, H, hl⟩ := h.listed
  have htask := h.tasks t (mem_of_getElem? ht)
  refine hl.advance hb hf htask (not_mem_found_of_free ht hfree) fun leaf htodo hjob p hp e hfind => ?_
  exact ha t leaf ht htodo hjob p hp _ e (hl.lists_eq hf (htask.found p hp)) hfind

/-- **A step of a task** keeps the invariant, and changes the listings as it should. -/
theorem Inv.next (h : Inv b s) (hb : b.Covers) (hf : b.Fits) (ha : Allowed b s (.next i))
    (hstep : s.next i = some (ev, s')) : Inv b s' ∧ ev.Effect (s.lists b) (s'.lists b) := by
  unfold Sys.next at hstep
  cases ht : s.tasks[i]? with
  | none => rw [ht] at hstep; cases hstep
  | some t =>
    simp only [ht] at hstep
    split_ifs at hstep with hfree
    have hwp := h.wp_advance hb hf ha ht hfree
    unfold wp at hwp
    split at hstep
    · rename_i t' w hrun
      rw [hrun] at hwp
      obtain ⟨rfl, ht', -⟩ := hwp
      cases hstep
      refine ⟨⟨h.listed, fun u hu => ?_⟩, rfl⟩
      rcases mem_or_eq_of_mem_set hu with hu | rfl
      · exact h.tasks u hu
      · exact ht'
    · rename_i made w hrun
      rw [hrun] at hwp
      obtain ⟨-, hl, hchange⟩ := hwp
      cases hstep
      exact ⟨⟨hl, fun u hu => (h.tasks u (mem_of_mem_eraseIdx hu)).grow _⟩, hchange⟩
    · rename_i n w hrun
      rw [hrun] at hwp
      obtain ⟨-, hl, hsame⟩ := hwp
      cases hstep
      exact ⟨⟨hl, fun u hu => h.tasks u (mem_of_mem_eraseIdx hu)⟩, hsame⟩
    · cases hstep

/-- **A call** adds a task at most. -/
theorem Inv.call (h : Inv b s) {op : DirOp} (hop : op.Legal) (hstep : s.call op = some (ev, s')) :
    Inv b s' ∧ ev.Effect (s.lists b) (s'.lists b) := by
  obtain ⟨A, H, hl⟩ := h.listed
  unfold Sys.call at hstep
  rw [hl.sound.image.getBpb_eq] at hstep
  obtain ⟨-, hok⟩ := hop.begin hl.root
  split at hstep
  · rename_i t hbegin
    cases hstep
    refine ⟨⟨h.listed, fun u hu => ?_⟩, rfl⟩
    rcases mem_append.1 hu with hu | hu
    · exact h.tasks u hu
    · rw [mem_singleton.1 hu]
      exact hok t hbegin
  · cases hstep
    exact ⟨h, rfl⟩
  · cases hstep

theorem Inv.advance (h : Inv b s) (hb : b.Covers) (hf : b.Fits) (ha : Allowed b s a)
    (hstep : s.advance a = some (ev, s')) : Inv b s' ∧ ev.Effect (s.lists b) (s'.lists b) := by
  cases a with
  | call op => exact h.call ha hstep
  | next i => exact h.next hb hf ha hstep

/-- **A task that does not wait for a lock** goes on. -/
theorem Inv.exists_next (h : Inv b s) (hb : b.Covers) (hf : b.Fits) (ha : Allowed b s (.next i))
    (ht : s.tasks[i]? = some t) (hfree : ¬ s.Blocked t) : ∃ ev s', s.next i = some (ev, s') := by
  have hwp := h.wp_advance hb hf ha ht hfree
  unfold wp at hwp
  unfold Sys.next
  simp only [ht, if_neg hfree]
  cases hrun : t.advance s.vol with
  | ok r w =>
    cases r with
    | inl t' => exact ⟨_, _, rfl⟩
    | inr made => exact ⟨_, _, rfl⟩
  | error e w =>
    rw [hrun] at hwp
    obtain ⟨⟨n, rfl⟩, -⟩ := hwp
    exact ⟨_, _, rfl⟩

/-- **The listings under concurrent operations.** -/
theorem exec_listings (hb : b.Covers) (hf : b.Fits) {v : Vol} {dirs : List ℕ} (hv : ∃ A H, Listed b v dirs A H)
    {acts : List Act} (hacts : Along Sys.step (Allowed b) ⟨v, dirs, []⟩ acts) (hrun : exec Sys.step ⟨v, dirs,
    []⟩ acts = some s) : (∀ d ∈ s.dirs, ∃ es, s.lists b d = some es ∧ Distinct es) ∧ (∀ a ev s', Allowed b s a →
    s.advance a = some (ev, s') → ev.Effect (s.lists b) (s'.lists b)) ∧ ∀ i t, Allowed b s (.next i) → s.tasks[i]? =
    some t → ¬ s.Blocked t → ∃ ev s', s.advance (.next i) = some (ev, s') := by
  have hinv : Inv b s := by
    refine exec_induction (I := Inv b) (fun s a t hs ha hstep => ?_) ⟨hv, by simp⟩ hacts hrun
    obtain ⟨⟨ev, u⟩, hadv, rfl⟩ := Option.map_eq_some_iff.1 hstep
    exact (hs.advance hb hf ha hadv).1
  refine ⟨fun d hd => ?_, fun a ev s' ha hstep => (hinv.advance hb hf ha hstep).2,
    fun i t ha ht hfree => hinv.exists_next hb hf ha ht hfree⟩
  obtain ⟨A, H, hl⟩ := hinv.listed
  exact ⟨_, hl.lists_eq hf hd, (hl.good d hd).distinct⟩

end

/-! ## Two operations on a small volume -/

/-- The steps of runs in which only `/a` is made. -/
def Making (s : Sys) : Act → Prop
  | .call (.createFile path) | .call (.mkdir path) => path = ['/', 'a']
  | .call _ => False
  | .next _ => ∀ t ∈ s.tasks, t.job = .createFile ['a'] ∨ t.job = .mkdir ['a']

instance (s : Sys) : DecidablePred (Making s)
  | .call (.createFile path) | .call (.mkdir path) => inferInstanceAs (Decidable (path = _))
  | .call (.createSymlink _ _) | .call (.delete _) | .call (.rename _ _) => .isFalse id
  | .next _ => inferInstanceAs (Decidable (∀ t ∈ s.tasks, _))

theorem Making.allowed {b : Bpb} {s : Sys} : ∀ {a : Act}, Making s a → Allowed b s a
  | .call (.createFile path), h | .call (.mkdir path), h => by
    obtain rfl : path = ['/', 'a'] := h
    exact ⟨⟨[['a']], by decide, rfl⟩, by decide⟩
  | .next i, h => by
    intro t leaf ht _ hjob
    have := h t (mem_of_getElem? ht)
    simp [hjob] at this

theorem listed_rootHeads {b : Bpb} {v : Vol} {A : Image} (h : Sound b v A (rootHeads b))
    (hform : WellFormedDir (A.data b.rootCluster.toNat)) (hempty : decodeDirEntries (A.data b.rootCluster.toNat) = []) :
    Listed b v [b.rootCluster.toNat] A (rootHeads b) := by
  refine ⟨h, by simp, fun d hd => mem_singleton.1 hd, fun d hd => ?_⟩
  have hbytes : A.bytes ((rootHeads b).chain d) = A.data b.rootCluster.toNat :=
    flatMap_singleton _ _
  rw [hbytes]
  exact ⟨hform, by rw [hempty]; exact nodup_nil, fun e he => by rw [hempty] at he; cases he⟩

theorem usedVol_listed : Listed tinyBpb usedVol [2] usedImage (rootHeads tinyBpb) :=
  listed_rootHeads usedVol_sound (wellFormedDir_zero 16) (by decide +kernel)

def sameName : List Act :=
  [.call (.mkdir ['/', 'a']), .call (.createFile ['/', 'a']), .next 0, .next 0, .next 0, .next 0]

/-- The names of the root directory are distinct after the two operations. -/
theorem exec_listings_sameName : ∃ s, exec Sys.step ⟨usedVol, [2], []⟩ sameName = some s ∧
    ∀ d ∈ s.dirs, ∃ es, s.lists tinyBpb d = some es ∧ Distinct es := by
  have hrun : (exec Sys.step ⟨usedVol, [2], []⟩ sameName).isSome = true ∧
      Along Sys.step Making ⟨usedVol, [2], []⟩ sameName := by decide +kernel
  obtain ⟨s, hs⟩ := Option.isSome_iff_exists.1 hrun.1
  have hv : ∃ A H, Listed tinyBpb usedVol [2] A H := ⟨_, _, usedVol_listed⟩
  exact ⟨s, hs, (exec_listings tinyBpb_covers (by decide) hv (hrun.2.mono fun _ _ => Making.allowed) hs).1⟩

/-! ## A volume whose cluster numbers do not fit -/

theorem readChain_of_loop {b : Bpb} {d : Dev} {a : ℕ} (h2 : 2 ≤ a) (ha : isEoc a = false)
    (hread : (readSectors d (clusterToLba b a) b.clusterSize).isOk = true) (hnext : readFatEntry b a d = .ok a) :
    readChain b a d = .error .hang := by
  obtain ⟨buf, hbuf⟩ : ∃ buf, readSectors d (clusterToLba b a) b.clusterSize = .ok buf := by
    cases h : readSectors d (clusterToLba b a) b.clusterSize with
    | ok buf => exact ⟨buf, rfl⟩
    | error e => rw [h] at hread; cases hread
  have hfree : isFree a = false := by
    simp only [isFree, decide_eq_false_iff_not]; omega
  have hloop : ∀ (n : ℕ) (out : List UInt8), readChainLoop b d n a out = .error .hang := by
    intro n
    induction n with
    | zero => exact fun _ => rfl
    | succ n ih =>
      intro out
      simp only [readChainLoop, hbuf, hnext, ha, hfree, bind, Except.bind]
      exact ih _
  rw [readChain, if_neg (by omega), hloop]

theorem wideVol_listed : Listed wideBpb wideVol [2] wideImage (rootHeads wideBpb) :=
  listed_rootHeads wideVol_sound
    ⟨replicate 16 (replicate 32 0xE5), 0, by decide +kernel, by decide +kernel, by decide +kernel, by decide +kernel⟩
    (by decide +kernel)

/-- **A directory that cannot be read any more**: the link to cluster `2 ^ 28 + 2` is cut to 28 bits and leads
back. -/
theorem createFile_unreadable : wideBpb.Covers ∧ Listed wideBpb wideVol [2] wideImage (rootHeads wideBpb) ∧ Along
    Sys.step (Allowed wideBpb) ⟨wideVol, [2], []⟩ [.call (.createFile ['/', 'a']), .next 0, .next 0] ∧ ∃ s, exec
    Sys.step ⟨wideVol, [2], []⟩ [.call (.createFile ['/', 'a']), .next 0, .next 0] = some s ∧ 2 ∈ s.dirs ∧ listDir
    wideBpb 2 s.vol.dev = .error .hang := by
  have hacts : Along Sys.step Making ⟨wideVol, [2], []⟩ [.call (.createFile ['/', 'a']), .next 0, .next 0] := by
    decide +kernel
  have hrun : (exec Sys.step ⟨wideVol, [2], []⟩ [.call (.createFile ['/', 'a']), .next 0, .next 0]).map (fun s =>
      (s.dirs, readFatEntry wideBpb 2 s.vol.dev, (readSectors s.vol.dev (clusterToLba wideBpb 2) 512).isOk)) =
      some ([2], .ok 2, true) := by
    decide +kernel
  obtain ⟨s, hs, heq⟩ := Option.map_eq_some_iff.1 hrun
  simp only [Prod.mk.injEq] at heq
  obtain ⟨hdirs, hnext, hread⟩ := heq
  refine ⟨wideBpb_covers, wideVol_listed, hacts.mono fun _ _ => Making.allowed, s, hs, by simp [hdirs], ?_⟩
  rw [listDir, readChain_of_loop le_rfl (by decide) hread hnext]
  rfl

end Archis.Fat32
