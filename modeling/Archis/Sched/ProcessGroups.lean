/-
  Sessions and process groups: `sched/proc.rs` and `sched/job.rs`.

  `exec_consistent`: the groups stay consistent if a process becomes session leader only when no group has its id.
  `set_session_leader` looks only at the group the process is in: one that it founded and left may still have members.
-/
import Archis.Lib.Run

namespace Archis.Sched.Groups

open Archis.Lib
open Function (update update_apply update_idem update_of_ne update_self)
open List hiding next

/-! ## The state -/

structure Session where
  sid : ℕ
  leader : Option ℕ
  processes : List ℕ
  deriving DecidableEq

structure ProcessGroup where
  pgid : ℕ
  sid : ℕ
  processes : List ℕ
  deriving DecidableEq

/-- `Process`: the id of the parent, and pointers to the session and the group. -/
structure Process where
  pid : ℕ
  session : ℕ
  pgroup : ℕ
  deriving DecidableEq

/-- Sessions and groups have addresses; those from `nextSession` and `nextGroup` on are not in use. -/
structure Jobs where
  /-- `PROCESSES` -/
  processes : ℕ → Option Process
  /-- `PROCESS_ID` -/
  processId : ℕ
  sessions : ℕ → Session
  nextSession : ℕ
  groups : ℕ → ProcessGroup
  nextGroup : ℕ
  /-- `PGRP_DIRECTORY` -/
  directory : ℕ → Option ℕ

namespace Jobs

/-! ## The code -/

section
variable (s : Jobs) (id : ℕ)

def setGroup (g : ℕ) (members : List ℕ) : Jobs :=
  { s with groups := update s.groups g { s.groups g with processes := members } }

def setSession (a : ℕ) (sess : Session) : Jobs :=
  { s with sessions := update s.sessions a sess }

def setProcess (p : Option Process) : Jobs :=
  { s with processes := update s.processes id p }

def leavePgroup (g id : ℕ) : Jobs :=
  let members := (s.groups g).processes.erase id
  let t := s.setGroup g members
  if members = [] then { t with directory := update t.directory (s.groups g).pgid none } else t

/-- `processes.add_node` of a group. -/
def addToGroup (g id : ℕ) : Jobs := s.setGroup g ((s.groups g).processes ++ [id])

/-- `ProcessGroup::new`, and the entry for it in the directory. -/
def insertGroup (pgid sid : ℕ) : Jobs :=
  { s with
    groups := update s.groups s.nextGroup ⟨pgid, sid, []⟩
    nextGroup := s.nextGroup + 1
    directory := update s.directory pgid (some s.nextGroup) }

def leaveSession (a id : ℕ) : Jobs :=
  s.setSession a { s.sessions a with processes := (s.sessions a).processes.erase id }

/-- `Session::new`, with the process as its leader. -/
def newSession : Jobs :=
  { s.setSession s.nextSession ⟨id, some id, [id]⟩ with nextSession := s.nextSession + 1 }

/-- The caller is the process, or its parent with the same `same` pointer. -/
def allowed (caller id : ℕ) (p : Process) (same : Process → Process → Bool) : Bool :=
  caller = id || (caller = p.pid && (match s.processes p.pid with
    | some parent => same parent p
    | none => false))

/-- The part of `set_session_leader` that changes something. -/
def becomeLeader (p : Process) : Jobs :=
  let session := s.nextSession
  let s := ((s.leaveSession p.session id).newSession id).leavePgroup p.pgroup id
  let pgroup := s.nextGroup
  ((s.insertGroup id id).addToGroup pgroup id).setProcess id (some { p with session, pgroup })

/-- Why `set_session_leader` does not refuse. -/
def mayLead (caller id : ℕ) (p : Process) : Bool :=
  !((s.sessions p.session).leader = some id || (s.groups p.pgroup).pgid = id) &&
    s.allowed caller id p fun parent p => parent.session = p.session

/-- `set_session_leader(id)`, from a process that runs; it panics for the system process. -/
def setSessionLeader (caller id : ℕ) : Option Jobs :=
  match s.processes id with
  | none => some s
  | some p =>
    if id = 0 then none
    else if s.mayLead caller id p then some (s.becomeLeader id p)
    else some s

/-- The group that `set_pgroup` moves the process to, and the state with it. -/
def findGroup (p : Process) (target : ℕ) : Option (ℕ × Jobs) :=
  let sid := (s.sessions p.session).sid
  match s.directory target with
  | some g => if (s.groups g).sid = sid then some (g, s) else none
  | none => if target = id then some (s.nextGroup, s.insertGroup target sid) else none

/-- `set_pgroup(id, target)`. -/
def setPgroup (caller id target : ℕ) : Option Jobs :=
  match s.processes id with
  | none => some s
  | some p =>
    if id = 0 then none
    else
      let target := if target = 0 then id else target
      if (s.groups p.pgroup).pgid = target then some s
      else if !s.allowed caller id p (fun parent p => parent.pgroup = p.pgroup) then some s
      else match s.findGroup id p target with
        | none => some s
        | some (g, t) =>
          some (((t.leavePgroup p.pgroup id).addToGroup g id).setProcess id (some { p with pgroup := g }))

/-- How far `create_process` gets. -/
inductive Creation where
  | done
  /-- `Process::new` fails. -/
  | noProcess
  /-- The first thread cannot be created or started: the new id stays in the lists. -/
  | noThread
  deriving DecidableEq

/-- The new process is listed in the session and the group of its parent. -/
def list (parent : Process) (id : ℕ) : Jobs :=
  let sess := s.sessions parent.session
  (s.setSession parent.session { sess with processes := sess.processes ++ [id] }).addToGroup parent.pgroup id

/-- `create_process`. -/
def create (caller : ℕ) (c : Creation) : Option Jobs :=
  (s.processes caller).map fun parent =>
    let id := s.processId
    let s := { s with processId := id + 1 }
    match c with
    | .noProcess => s
    | .noThread => s.list parent id
    | .done => (s.list parent id).setProcess id (some ⟨caller, parent.session, parent.pgroup⟩)

/-- `destroy_process`, after the last thread has ended; the system process does not end. -/
def exit : Option Jobs :=
  match s.processes id with
  | none => some s
  | some p =>
    if id = 0 then none
    else
      let s := s.setProcess id none
      let sess := s.sessions p.session
      let s := s.setSession p.session { sess with
        processes := sess.processes.erase id
        leader := if sess.leader = some id then none else sess.leader }
      some (s.leavePgroup p.pgroup id)

inductive Act where
  | create (caller : ℕ) (c : Creation)
  | setSessionLeader (caller id : ℕ)
  | setPgroup (caller id target : ℕ)
  | exit (id : ℕ)

def step : Act → Option Jobs
  | .create caller c => s.create caller c
  | .setSessionLeader caller id => s.setSessionLeader caller id
  | .setPgroup caller id target => s.setPgroup caller id target
  | .exit id => s.exit id

/-- `init`: the system process, its session and its group. -/
def start : Jobs where
  processes := update (fun _ => none) 0 (some ⟨0, 0, 0⟩)
  processId := 1
  sessions := fun a => ⟨0, none, if a = 0 then [0] else []⟩
  nextSession := 1
  groups := fun g => ⟨0, 0, if g = 0 then [0] else []⟩
  nextGroup := 1
  directory := update (fun _ => none) 0 (some 0)

/-! ## What holds of the groups -/

/-- The process is in the list at `a`, once, and in no other. -/
def Listed (lists : ℕ → List ℕ) (id a : ℕ) : Prop := ∀ b, (lists b).count id = if b = a then 1 else 0

def groupLists (g : ℕ) : List ℕ := (s.groups g).processes
def sessionLists (a : ℕ) : List ℕ := (s.sessions a).processes

/-- The directory holds exactly the groups with members, and the group that is `held`, by their ids. -/
def Directory (held : Option ℕ) : Prop :=
  ∀ k g, s.directory k = some g ↔ (s.groupLists g ≠ [] ∨ held = some g) ∧ (s.groups g).pgid = k

end

structure Consistent (s : Jobs) : Prop where
  /-- Groups with members have different ids. -/
  distinct : ∀ g h, s.groupLists g ≠ [] → s.groupLists h ≠ [] → (s.groups g).pgid = (s.groups h).pgid → g = h
  /-- The directory holds exactly the groups with members. -/
  directory : ∀ k g, s.directory k = some g ↔ s.groupLists g ≠ [] ∧ (s.groups g).pgid = k
  /-- A live process is listed in the group and the session it points to, and in no other. -/
  group : ∀ id p, s.processes id = some p → Listed s.groupLists id p.pgroup
  session : ∀ id p, s.processes id = some p → Listed s.sessionLists id p.session
  /-- The members of a group have the session id of the group. -/
  sid : ∀ id p, s.processes id = some p → (s.groups p.pgroup).sid = (s.sessions p.session).sid

/-! ## Lists -/

section
variable (lists : ℕ → List ℕ)

def Unlisted (id : ℕ) : Prop := ∀ b, (lists b).count id = 0

def takeFrom (a id : ℕ) : ℕ → List ℕ := update lists a ((lists a).erase id)

def putOn (a id : ℕ) : ℕ → List ℕ := update lists a (lists a ++ [id])

end

section
variable {lists lists' : ℕ → List ℕ} {id q a b : ℕ}

theorem Listed.mem (h : Listed lists id a) : id ∈ lists a := by
  rw [← count_pos_iff, h a, if_pos rfl]
  exact Nat.one_pos

theorem Listed.congr (h : Listed lists q a) (hc : ∀ b, (lists' b).count q = (lists b).count q) :
    Listed lists' q a :=
  fun b => (hc b).trans (h b)

theorem Listed.takeFrom (h : Listed lists id a) : Unlisted (takeFrom lists a id) id := by
  intro b
  rw [Jobs.takeFrom, update_apply]
  split_ifs with hb
  · rw [count_erase_self, h a, if_pos rfl]
  · rw [h b, if_neg hb]

theorem Unlisted.putOn (h : Unlisted lists id) : Listed (putOn lists a id) id a := by
  intro b
  rw [Jobs.putOn, update_apply]
  split_ifs
  · rw [count_append, h a, count_singleton_self]
  · exact h b

theorem count_takeFrom (hq : q ≠ id) (b : ℕ) : (takeFrom lists a id b).count q = (lists b).count q := by
  rw [takeFrom, update_apply]
  split_ifs with hb
  · rw [count_erase_of_ne hq, hb]
  · rfl

theorem count_putOn (hq : q ≠ id) (b : ℕ) : (putOn lists a id b).count q = (lists b).count q := by
  rw [putOn, update_apply]
  split_ifs with hb
  · rw [count_append, count_singleton, if_neg (by simpa using hq.symm), hb, Nat.add_zero]
  · rfl

theorem takeFrom_of_ne (hb : b ≠ a) : takeFrom lists a id b = lists b := update_of_ne hb ..

theorem putOn_of_ne (hb : b ≠ a) : putOn lists a id b = lists b := update_of_ne hb ..

end

/-! ## Groups and sessions: who is listed where

  `Members` is said of the groups and of the sessions: `ptr` is the pointer of a process to the one or the
  other. -/

/-- Every process is listed where it points to; addresses from `next` on and ids from `n` on are not in use. -/
structure Members (procs : ℕ → Option Process) (n : ℕ) (lists : ℕ → List ℕ) (next : ℕ) (ptr : Process → ℕ) :
    Prop where
  listed : ∀ id p, procs id = some p → Listed lists id (ptr p)
  fresh : ∀ a, next ≤ a → lists a = []
  unlisted : ∀ id, n ≤ id → Unlisted lists id

theorem of_update {procs : ℕ → Option Process} {id q : ℕ} {p : Process} {p' : Option Process}
    (hq : update procs id p' q = some p) : (q = id ∧ p' = some p) ∨ (q ≠ id ∧ procs q = some p) := by
  rw [update_apply] at hq
  split_ifs at hq with hne
  · exact .inl ⟨hne, hq⟩
  · exact .inr ⟨hne, hq⟩

namespace Members

variable {procs : ℕ → Option Process} {n next next' a id : ℕ} {lists : ℕ → List ℕ} {ptr : Process → ℕ}
variable {p : Process}

section
variable (h : Members procs n lists next ptr)
include h

theorem mem (hp : procs id = some p) : id ∈ lists (ptr p) :=
  (h.listed id p hp).mem

theorem ptr_lt (hp : procs id = some p) : ptr p < next := by
  by_contra hlt
  have hmem := h.mem hp
  rw [h.fresh _ (Nat.le_of_not_lt hlt)] at hmem
  cases hmem

theorem id_lt (hp : procs id = some p) : id < n := by
  by_contra hlt
  have hpos := count_pos_iff.2 (h.mem hp)
  rw [h.unlisted id (Nat.le_of_not_lt hlt)] at hpos
  exact absurd hpos (Nat.lt_irrefl 0)

theorem mono (hn : next ≤ next') : Members procs n lists next' ptr :=
  ⟨h.listed, fun a ha => h.fresh a (hn.trans ha), h.unlisted⟩

theorem takeFrom (hp : procs id = some p) :
    Members (update procs id none) n (takeFrom lists (ptr p) id) next ptr where
  listed := fun q pq hq => by
    obtain ⟨-, ⟨⟩⟩ | ⟨hne, hq⟩ := of_update hq
    exact (h.listed q pq hq).congr (count_takeFrom hne)
  fresh := fun a ha => by
    rw [takeFrom_of_ne ((h.ptr_lt hp).trans_le ha).ne']
    exact h.fresh a ha
  unlisted := fun q hq b => by
    rw [count_takeFrom ((h.id_lt hp).trans_le hq).ne']
    exact h.unlisted q hq b

theorem unlisted_takeFrom (hp : procs id = some p) :
    Unlisted (Jobs.takeFrom lists (ptr p) id) id := (h.listed id p hp).takeFrom

theorem putOn (hid : Unlisted lists id) (hlt : id < n) (ha : ptr p < next) :
    Members (update procs id (some p)) n (putOn lists (ptr p) id) next ptr where
  listed := fun q pq hq => by
    obtain ⟨rfl, ⟨⟩⟩ | ⟨hne, hq⟩ := of_update hq
    · exact hid.putOn
    · exact (h.listed q pq hq).congr (count_putOn hne)
  fresh := fun a hle => by
    rw [putOn_of_ne (ha.trans_le hle).ne']
    exact h.fresh a hle
  unlisted := fun q hq b => by
    rw [count_putOn (hlt.trans_le hq).ne']
    exact h.unlisted q hq b

/-- **A process moves** from its list to another. -/
theorem move (hp : procs id = some p) (p' : Process) (ha : ptr p' < next) :
    Members (update procs id (some p')) n (Jobs.putOn (Jobs.takeFrom lists (ptr p) id) (ptr p') id) next
      ptr := by
  have ht := (h.takeFrom hp).putOn (p := p') (h.unlisted_takeFrom hp) (h.id_lt hp) ha
  rwa [update_idem] at ht

theorem repoint (hp : procs id = some p) (p' : Process)
    (hptr : ptr p' = ptr p) : Members (update procs id (some p')) n lists next ptr where
  listed := fun q pq hq => by
    obtain ⟨rfl, ⟨⟩⟩ | ⟨-, hq⟩ := of_update hq
    · exact hptr ▸ h.listed q p hp
    · exact h.listed q pq hq
  fresh := h.fresh
  unlisted := h.unlisted

theorem skip : Members procs (n + 1) lists next ptr :=
  ⟨h.listed, h.fresh, fun id hid => h.unlisted id (Nat.le_of_succ_le hid)⟩

end

theorem forget (h : Members (update procs id (some p)) n lists next ptr) (hnone : procs id = none) :
    Members procs n lists next ptr where
  listed := fun q pq hq => by
    have hne : q ≠ id := by
      rintro rfl
      rw [hnone] at hq
      cases hq
    exact h.listed q pq ((update_of_ne hne ..).trans hq)
  fresh := h.fresh
  unlisted := h.unlisted

end Members

/-! ## Groups -/

section
variable {s t : Jobs} {g id k : ℕ} {held : Option ℕ} {l : List ℕ}

theorem groupLists_setGroup : (s.setGroup g l).groupLists = update s.groupLists g l :=
  Function.comp_update ProcessGroup.processes ..

theorem setGroup_ids (h : ℕ) : ((s.setGroup g l).groups h).pgid = (s.groups h).pgid ∧
    ((s.setGroup g l).groups h).sid = (s.groups h).sid := by
  simp only [setGroup, update_apply]
  split_ifs with hg
  · simp [hg]
  · simp

theorem leavePgroup_eq (s : Jobs) (g id : ℕ) :
    ∃ d, s.leavePgroup g id = { s.setGroup g ((s.groupLists g).erase id) with directory := d } ∧
    ∀ k, d k = if (s.groupLists g).erase id = [] ∧ k = (s.groups g).pgid then none else s.directory k := by
  unfold leavePgroup
  by_cases h : (s.groupLists g).erase id = []
  · exact ⟨_, if_pos h, fun k => by simp [setGroup, update_apply, h]⟩
  · exact ⟨s.directory, if_neg h, fun k => by simp [h]⟩

theorem Directory.leave (h : s.Directory held) (hmem : id ∈ s.groupLists g) (hheld : held ≠ some g) :
    (s.leavePgroup g id).Directory held := by
  obtain ⟨d, hd, hdir⟩ := leavePgroup_eq s g id
  intro k g'
  rw [hd]
  show d k = some g' ↔ ((s.setGroup g _).groupLists g' ≠ [] ∨ held = some g') ∧ ((s.setGroup g _).groups g').pgid = k
  rw [hdir, groupLists_setGroup, (setGroup_ids g').1]
  have hg : s.directory (s.groups g).pgid = some g := (h _ _).2 ⟨.inl (ne_nil_of_mem hmem), rfl⟩
  by_cases hgg : g' = g
  · -- the group itself: it goes with its last member
    subst hgg
    rw [update_self]
    by_cases hempty : (s.groupLists g').erase id = []
    · simp only [hempty, true_and, ne_eq, not_true_eq_false, false_or, hheld, false_and, iff_false]
      split_ifs with hk
      · simp
      · intro hk'
        exact hk ((h k g').1 hk').2.symm
    · simp only [hempty, false_and, if_false, ne_eq, not_false_eq_true, true_or, true_and]
      rw [h k g']
      exact ⟨fun hh => hh.2, fun hk => ⟨.inl (ne_nil_of_mem hmem), hk⟩⟩
  · rw [update_of_ne hgg]
    split_ifs with hk
    · -- another group does not have this id
      simp only [false_iff]
      intro hh
      have := (h k g').2 hh
      rw [hk.2, hg] at this
      exact hgg (Option.some.inj this).symm
    · exact h k g'

/-- **A member comes**, to the group that is held. -/
theorem Directory.add (h : s.Directory (some g)) : (s.addToGroup g id).Directory none := by
  intro k g'
  show s.directory k = some g' ↔ ((s.setGroup g _).groupLists g' ≠ [] ∨ _) ∧ ((s.setGroup g _).groups g').pgid = k
  rw [groupLists_setGroup, (setGroup_ids g').1, h k g']
  by_cases hgg : g' = g
  · subst hgg
    simp
  · rw [update_of_ne hgg]
    simp [Ne.symm hgg]

theorem Directory.hold (h : s.Directory none) (hg : s.groupLists g ≠ []) : s.Directory (some g) := by
  intro k g'
  rw [h k g']
  by_cases hgg : g' = g
  · subst hgg
    simp [hg]
  · simp [Ne.symm hgg]

theorem groupLists_insertGroup {sid : ℕ} (hfresh : s.groupLists s.nextGroup = []) :
    (s.insertGroup k sid).groupLists = s.groupLists :=
  (Function.comp_update ProcessGroup.processes ..).trans (Function.update_eq_self_iff.2 hfresh.symm)

/-- **A new group**, under an id that no group with members has. -/
theorem Directory.insert (h : s.Directory none) (hk : s.directory k = none)
    (hfresh : s.groupLists s.nextGroup = []) (sid : ℕ) : (s.insertGroup k sid).Directory (some s.nextGroup) := by
  intro k' g'
  rw [groupLists_insertGroup hfresh]
  show update s.directory k (some s.nextGroup) k' = some g' ↔
    _ ∧ (update s.groups s.nextGroup ⟨k, sid, []⟩ g').pgid = k'
  by_cases hg : g' = s.nextGroup
  · subst hg
    rw [update_self]
    by_cases hkk : k' = k
    · subst hkk
      simp
    rw [update_of_ne hkk]
    simp only [or_true, true_and]
    refine iff_of_false (fun hh => ?_) fun hh => hkk hh.symm
    have := (h k' s.nextGroup).1 hh
    simp [hfresh] at this
  · rw [update_of_ne hg]
    by_cases hkk : k' = k
    · subst hkk
      rw [update_self]
      refine iff_of_false (fun hh => hg (Option.some.inj hh).symm) fun hh => ?_
      have := (h k' g').2 ⟨.inl (hh.1.resolve_right fun hs => hg (Option.some.inj hs).symm), hh.2⟩
      rw [hk] at this
      cases this
    · rw [update_of_ne hkk, h k' g']
      simp [Ne.symm hg]

end

/-! ### What the changes leave -/

section
variable (s : Jobs) (g id a k sid : ℕ) (sess : Session)

@[simp] theorem setProcess_frame (p : Option Process) :
    (s.setProcess id p).processes = update s.processes id p ∧ (s.setProcess id p).processId = s.processId ∧
    (s.setProcess id p).sessions = s.sessions ∧ (s.setProcess id p).nextSession = s.nextSession ∧
    (s.setProcess id p).groups = s.groups ∧ (s.setProcess id p).nextGroup = s.nextGroup ∧
    (s.setProcess id p).groupLists = s.groupLists ∧ (s.setProcess id p).sessionLists = s.sessionLists :=
  ⟨rfl, rfl, rfl, rfl, rfl, rfl, rfl, rfl⟩

@[simp] theorem addToGroup_frame : (s.addToGroup g id).processes = s.processes ∧ (s.addToGroup g id).processId =
    s.processId ∧ (s.addToGroup g id).sessions = s.sessions ∧ (s.addToGroup g id).sessionLists = s.sessionLists ∧
    (s.addToGroup g id).nextSession = s.nextSession ∧ (s.addToGroup g id).nextGroup = s.nextGroup :=
  ⟨rfl, rfl, rfl, rfl, rfl, rfl⟩

@[simp] theorem insertGroup_frame : (s.insertGroup k sid).processes = s.processes ∧ (s.insertGroup k sid).processId =
    s.processId ∧ (s.insertGroup k sid).sessions = s.sessions ∧ (s.insertGroup k sid).sessionLists = s.sessionLists ∧
    (s.insertGroup k sid).nextSession = s.nextSession ∧ (s.insertGroup k sid).nextGroup = s.nextGroup + 1 :=
  ⟨rfl, rfl, rfl, rfl, rfl, rfl⟩

@[simp] theorem leavePgroup_frame : (s.leavePgroup g id).processes = s.processes ∧
    (s.leavePgroup g id).processId = s.processId ∧ (s.leavePgroup g id).sessions = s.sessions ∧
    (s.leavePgroup g id).nextSession = s.nextSession ∧ (s.leavePgroup g id).nextGroup = s.nextGroup := by
  obtain ⟨d, hd, -⟩ := leavePgroup_eq s g id
  rw [hd]
  exact ⟨rfl, rfl, rfl, rfl, rfl⟩

@[simp] theorem sessionLists_leavePgroup : (s.leavePgroup g id).sessionLists = s.sessionLists := by
  funext a
  simp [sessionLists]

@[simp] theorem groupLists_leavePgroup : (s.leavePgroup g id).groupLists = takeFrom s.groupLists g id := by
  obtain ⟨d, hd, -⟩ := leavePgroup_eq s g id
  rw [hd]
  exact groupLists_setGroup

@[simp] theorem groupLists_addToGroup : (s.addToGroup g id).groupLists = putOn s.groupLists g id :=
  groupLists_setGroup

@[simp] theorem leavePgroup_sid (h : ℕ) : ((s.leavePgroup g id).groups h).sid = (s.groups h).sid := by
  obtain ⟨d, hd, -⟩ := leavePgroup_eq s g id
  rw [hd]
  exact (setGroup_ids h).2

@[simp] theorem addToGroup_sid (h : ℕ) : ((s.addToGroup g id).groups h).sid = (s.groups h).sid :=
  (setGroup_ids h).2

theorem insertGroup_sid (h : ℕ) :
    ((s.insertGroup k sid).groups h).sid = if h = s.nextGroup then sid else (s.groups h).sid := by
  simp only [insertGroup, update_apply]
  split_ifs <;> rfl

theorem sessionLists_setSession : (s.setSession a sess).sessionLists = update s.sessionLists a sess.processes :=
  Function.comp_update Session.processes ..

theorem setSession_sid (hsid : sess.sid = (s.sessions a).sid) (b : ℕ) :
    ((s.setSession a sess).sessions b).sid = (s.sessions b).sid := by
  simp only [setSession, update_apply]
  split_ifs with hb
  · rw [hb, hsid]
  · rfl

theorem list_views (p : Process) : (s.list p id).groupLists = putOn s.groupLists p.pgroup id ∧
    (s.list p id).sessionLists = putOn s.sessionLists p.session id ∧ (∀ h,
    ((s.list p id).groups h).sid = (s.groups h).sid) ∧ ∀ b, ((s.list p id).sessions b).sid = (s.sessions b).sid :=
  ⟨groupLists_setGroup, sessionLists_setSession .., fun h => (setGroup_ids h).2, 
    fun b => setSession_sid _ _ _ (by rfl) b⟩

end

theorem sessionLists_lead {s : Jobs} {a : ℕ} (id : ℕ) (hfresh : s.sessionLists s.nextSession = [])
    (ha : a ≠ s.nextSession) :
    ((s.leaveSession a id).newSession id).sessionLists = putOn (takeFrom s.sessionLists a id) s.nextSession id := by
  show ((s.leaveSession a id).setSession s.nextSession _).sessionLists = _
  rw [sessionLists_setSession, putOn, takeFrom_of_ne ha.symm, hfresh, leaveSession, sessionLists_setSession]
  rfl

theorem lead_sid (s : Jobs) (a id b : ℕ) : (((s.leaveSession a id).newSession id).sessions b).sid =
    if b = s.nextSession then id else (s.sessions b).sid := by
  show (update (s.leaveSession a id).sessions s.nextSession ⟨id, some id, [id]⟩ b).sid = _
  rw [update_apply]
  split_ifs
  · rfl
  · exact setSession_sid s a _ (by rfl) b

/-! ### What the calls do -/

section
variable {s t u : Jobs} {id caller target g : ℕ} {p : Process}

theorem findGroup_cases (hs : s.findGroup id p target = some (g, u)) :
    (s.directory target = some g ∧ (s.groups g).sid = (s.sessions p.session).sid ∧ u = s) ∨
    (s.directory target = none ∧ target = id ∧ g = s.nextGroup ∧
      u = s.insertGroup target (s.sessions p.session).sid) := by
  unfold findGroup at hs
  dsimp only at hs
  split at hs
  case h_1 g' hdir =>
    split_ifs at hs with hsid
    cases hs
    exact .inl ⟨hdir, hsid, rfl⟩
  case h_2 hdir =>
    split_ifs at hs with hid
    cases hs
    exact .inr ⟨hdir, hid, rfl, rfl⟩

theorem setPgroup_cases (hs : s.setPgroup caller id target = some t) :
    t = s ∨ ∃ p k g u, s.processes id = some p ∧ (s.groups p.pgroup).pgid ≠ k ∧ s.findGroup id p k = some (g, u) ∧
      t = ((u.leavePgroup p.pgroup id).addToGroup g id).setProcess id (some { p with pgroup := g }) := by
  unfold Jobs.setPgroup at hs
  split at hs
  case h_1 => exact .inl (Option.some.inj hs).symm
  case h_2 p hp =>
    generalize hk : (if target = 0 then id else target) = k at hs
    dsimp only at hs
    split_ifs at hs with h0 h1 h2
    · exact .inl (Option.some.inj hs).symm
    · exact .inl (Option.some.inj hs).symm
    · split at hs
      case h_1 => exact .inl (Option.some.inj hs).symm
      case h_2 g u hfind => exact .inr ⟨p, k, g, u, hp, h1, hfind, (Option.some.inj hs).symm⟩

end

/-! ## The invariant -/

/-- What holds after every step, and while a group is `held`. -/
structure Inv (held : Option ℕ) (s : Jobs) : Prop where
  directory : s.Directory held
  groups : Members s.processes s.processId s.groupLists s.nextGroup Process.pgroup
  sessions : Members s.processes s.processId s.sessionLists s.nextSession Process.session
  sid : ∀ id p, s.processes id = some p → (s.groups p.pgroup).sid = (s.sessions p.session).sid

namespace Inv

variable {s t : Jobs} {id caller target g k : ℕ} {p : Process} {held : Option ℕ}

theorem consistent (h : Inv none s) : Consistent s where
  distinct := fun g g' hg hg' hk => by
    have h1 := (h.directory _ g).2 ⟨.inl hg, rfl⟩
    have h2 := (h.directory _ g').2 ⟨.inl hg', rfl⟩
    rw [hk, h2] at h1
    exact (Option.some.inj h1).symm
  directory := fun k g => by
    rw [h.directory k g]
    simp
  group := h.groups.listed
  session := h.sessions.listed
  sid := h.sid

theorem start : Inv none start := by
  have hlist : ∀ q p, (update (fun _ => none) 0 (some ⟨0, 0, 0⟩) : ℕ → Option Process) q = some p →
      q = 0 ∧ p = ⟨0, 0, 0⟩ := by
    intro q p hq
    obtain ⟨rfl, ⟨⟩⟩ | ⟨-, ⟨⟩⟩ := of_update hq
    exact ⟨rfl, rfl⟩
  have hmem : ∀ ptr : Process → ℕ, ptr ⟨0, 0, 0⟩ = 0 →
      Members Jobs.start.processes 1 (fun a => if a = 0 then [0] else []) 1 ptr := by
    intro ptr hptr
    refine ⟨fun q p hq b => ?_, fun a ha => if_neg (by omega), fun q hq b => ?_⟩
    · obtain ⟨rfl, rfl⟩ := hlist q p hq
      rw [hptr]
      split_ifs <;> rfl
    · split_ifs
      · exact count_eq_zero_of_not_mem (by simpa using (by omega : q ≠ 0))
      · rfl
  refine ⟨fun k g => ?_, hmem _ rfl, hmem _ rfl, fun q p hq => ?_⟩
  · show update (fun _ => none) 0 (some 0) k = some g ↔ ((if g = 0 then [0] else []) ≠ [] ∨ _) ∧ 0 = k
    rw [update_apply]
    split_ifs with hk hg hg
    · simp [hk, hg]
    · simp [Ne.symm hg]
    · simp [Ne.symm hk]
    · simp
  · rfl

theorem sid_update {p' : Process} (h : Inv held s) (hg : ∀ q pq, q ≠ id → s.processes q = some pq →
    (t.groups pq.pgroup).sid = (s.groups pq.pgroup).sid) (ha : ∀ q pq, q ≠ id → s.processes q = some pq →
    (t.sessions pq.session).sid = (s.sessions pq.session).sid)
    (hid : (t.groups p'.pgroup).sid = (t.sessions p'.session).sid) (q : ℕ) (pq : Process)
    (hq : update s.processes id (some p') q = some pq) : (t.groups pq.pgroup).sid = (t.sessions pq.session).sid := by
  obtain ⟨rfl, ⟨⟩⟩ | ⟨hne, hq⟩ := of_update hq
  · exact hid
  · rw [hg q pq hne hq, ha q pq hne hq]
    exact h.sid q pq hq

theorem list (h : Inv none s) (hp : s.processes caller = some p) :
    Inv none ((({ s with processId := s.processId + 1 } : Jobs).list p s.processId).setProcess s.processId
      (some ⟨caller, p.session, p.pgroup⟩)) := by
  obtain ⟨hgl, hsl, hgs, hss⟩ := list_views { s with processId := s.processId + 1 } s.processId p
  refine ⟨(h.directory.hold (ne_nil_of_mem (h.groups.mem hp))).add, ?_, ?_, ?_⟩
  · have hput := h.groups.skip.putOn (p := ⟨caller, p.session, p.pgroup⟩) (h.groups.unlisted _ (Nat.le_refl _))
      (Nat.lt_succ_self _) (h.groups.ptr_lt hp :)
    exact (hgl ▸ hput :)
  · have hput := h.sessions.skip.putOn (p := ⟨caller, p.session, p.pgroup⟩) (h.sessions.unlisted _ (Nat.le_refl _))
      (Nat.lt_succ_self _) (h.sessions.ptr_lt hp :)
    exact (hsl ▸ hput :)
  · exact h.sid_update (fun _ pq _ _ => hgs pq.pgroup) (fun _ pq _ _ => hss pq.session)
      ((hgs p.pgroup).trans ((h.sid caller p hp).trans (hss p.session).symm))

theorem create {c : Creation} (h : Inv none s) (hs : s.create caller c = some t) : Inv none t := by
  obtain ⟨p, hp, rfl⟩ := Option.map_eq_some_iff.1 hs
  have hlist := h.list hp
  have hnone : s.processes s.processId = none := by
    by_contra hne
    obtain ⟨p', hp'⟩ := Option.ne_none_iff_exists'.1 hne
    exact Nat.lt_irrefl _ (h.groups.id_lt hp')
  cases c with
  | done => exact hlist
  | noProcess => exact ⟨h.directory, h.groups.skip, h.sessions.skip, h.sid⟩
  | noThread =>
    refine ⟨hlist.directory, hlist.groups.forget hnone, hlist.sessions.forget hnone, fun q pq hq => ?_⟩
    refine hlist.sid q pq ?_
    have hne : q ≠ s.processId := by
      rintro rfl
      cases hnone.symm.trans hq
    exact (update_of_ne hne ..).trans hq

theorem exit (h : Inv none s) (hs : s.exit id = some t) : Inv none t := by
  unfold Jobs.exit at hs
  split at hs
  case h_1 => exact Option.some.inj hs ▸ h
  case h_2 p hp =>
    split_ifs at hs with h0
    obtain rfl := Option.some.inj hs
    refine ⟨Directory.leave h.directory (h.groups.mem hp) nofun, ?_, ?_, fun q pq hq => ?_⟩
    · simp only [leavePgroup_frame, groupLists_leavePgroup]
      exact h.groups.takeFrom hp
    · simp only [leavePgroup_frame, sessionLists_leavePgroup, sessionLists_setSession]
      exact h.sessions.takeFrom hp
    · simp only [leavePgroup_frame, leavePgroup_sid] at hq ⊢
      obtain ⟨-, ⟨⟩⟩ | ⟨-, hq⟩ := of_update hq
      refine (h.sid q pq hq).trans (Eq.symm ?_)
      exact setSession_sid (s.setProcess id none) _ _ (by rfl) _

theorem insert {sid : ℕ} (h : Inv none s) (hk : s.directory k = none) :
    Inv (some s.nextGroup) (s.insertGroup k sid) where
  directory := h.directory.insert hk (h.groups.fresh _ (Nat.le_refl _)) sid
  groups := groupLists_insertGroup (h.groups.fresh _ (Nat.le_refl _)) ▸ h.groups.mono (Nat.le_succ _)
  sessions := h.sessions
  sid := fun q pq hq => by
    rw [insertGroup_sid, if_neg (h.groups.ptr_lt hq).ne]
    exact h.sid q pq hq

theorem hold (h : Inv none s) (hg : s.groupLists g ≠ []) : Inv (some g) s :=
  ⟨h.directory.hold hg, h.groups, h.sessions, h.sid⟩

/-- **A process moves** to the group that is held. -/
theorem join (h : Inv (some g) s) (hp : s.processes id = some p) (hne : g ≠ p.pgroup) (hlt : g < s.nextGroup)
    (hsid : (s.groups g).sid = (s.sessions p.session).sid) :
    Inv none (((s.leavePgroup p.pgroup id).addToGroup g id).setProcess id (some { p with pgroup := g })) := by
  have hg := h.groups.move hp { p with pgroup := g } hlt
  have ha := h.sessions.repoint hp { p with pgroup := g } rfl
  have hs : ∀ q pq, update s.processes id (some { p with pgroup := g }) q = some pq →
      (s.groups pq.pgroup).sid = (s.sessions pq.session).sid :=
    h.sid_update (fun _ _ _ _ => rfl) (fun _ _ _ _ => rfl) hsid
  refine ⟨(h.directory.leave (h.groups.mem hp) fun he => hne (Option.some.inj he)).add, ?_, ?_, ?_⟩
  · simpa using hg
  · simpa using ha
  · simpa using hs

/-- **A process becomes the leader of a session**, and no group has its id. -/
theorem becomeLeader (h : Inv none s) (hp : s.processes id = some p) (hid : s.directory id = none) :
    Inv none (s.becomeLeader id p) := by
  have hpg := h.groups.ptr_lt hp
  have hps := h.sessions.ptr_lt hp
  have hg := (h.groups.mono (Nat.le_succ _)).move hp { p with session := s.nextSession, pgroup := s.nextGroup }
    (Nat.lt_succ_self _)
  have ha := (h.sessions.mono (Nat.le_succ _)).move hp { p with session := s.nextSession, pgroup := s.nextGroup }
    (Nat.lt_succ_self _)
  have hlists := sessionLists_lead id (h.sessions.fresh _ (Nat.le_refl _)) hps.ne
  have hsids := lead_sid s p.session id
  unfold Jobs.becomeLeader
  obtain ⟨u, hu⟩ : ∃ u, (s.leaveSession p.session id).newSession id = u := ⟨_, rfl⟩
  have hproc : u.processes = s.processes ∧ u.processId = s.processId ∧ u.nextSession = s.nextSession + 1 ∧
      u.groups = s.groups ∧ u.nextGroup = s.nextGroup ∧ u.directory = s.directory ∧ u.groupLists = s.groupLists := by
    subst hu
    exact ⟨rfl, rfl, rfl, rfl, rfl, rfl, rfl⟩
  obtain ⟨hprocs, hpid, hnext, hgroups, hnextg, hdirs, hgl⟩ := hproc
  rw [hu] at hlists hsids ⊢
  -- the group is left before the new one is made
  have hleave : (u.leavePgroup p.pgroup id).Directory none := by
    refine Directory.leave ?_ (hgl ▸ h.groups.mem hp) nofun
    intro k g
    rw [hdirs, hgl, hgroups]
    exact h.directory k g
  have hnone : (u.leavePgroup p.pgroup id).directory id = none := by
    obtain ⟨d, hd, hdir⟩ := leavePgroup_eq u p.pgroup id
    rw [hd]
    show d id = none
    rw [hdir, hdirs, hid, ite_self]
  have hfresh : (u.leavePgroup p.pgroup id).groupLists (u.leavePgroup p.pgroup id).nextGroup = [] := by
    simp only [groupLists_leavePgroup, leavePgroup_frame, hnextg, hgl]
    rw [takeFrom_of_ne hpg.ne']
    exact h.groups.fresh _ (Nat.le_refl _)
  refine ⟨(hleave.insert hnone hfresh id).add, ?_, ?_, ?_⟩
  · simpa [groupLists_insertGroup hfresh, hprocs, hpid, hgl, hnextg] using hg
  · simpa [hprocs, hpid, hnext, hnextg, hlists] using ha
  simp only [setProcess_frame, addToGroup_frame, insertGroup_frame, leavePgroup_frame, addToGroup_sid,
    insertGroup_sid, leavePgroup_sid, hprocs, hgroups, hnextg, hsids]
  intro q pq hq
  obtain ⟨rfl, ⟨⟩⟩ | ⟨-, hq⟩ := of_update hq
  · rw [if_pos rfl, if_pos rfl]
  · rw [if_neg (h.groups.ptr_lt hq).ne, if_neg (h.sessions.ptr_lt hq).ne]
    exact h.sid q pq hq

theorem setPgroup (h : Inv none s) (hs : s.setPgroup caller id target = some t) : Inv none t := by
  obtain rfl | ⟨p, target, g, u, hp, hpg, hfind, rfl⟩ := setPgroup_cases hs
  · exact h
  obtain ⟨hdir, hsid, rfl⟩ | ⟨hdir, rfl, rfl, rfl⟩ := findGroup_cases hfind
  · -- a group that others are in
    obtain ⟨hne, hk⟩ := (h.directory target g).1 hdir
    replace hne := hne.resolve_right nofun
    refine (h.hold hne).join hp (fun he => hpg (he ▸ hk)) ?_ hsid
    by_contra hlt
    exact hne (h.groups.fresh g (Nat.le_of_not_lt hlt))
  · exact (h.insert hdir).join hp (h.groups.ptr_lt hp).ne' (Nat.lt_succ_self _)
      ((insertGroup_sid ..).trans (if_pos rfl))

end Inv

/-! ## Runs -/

/-- A process that becomes session leader has the id of no group. -/
def Act.FreshId (s : Jobs) : Act → Prop
  | .setSessionLeader caller id => ∀ p ∈ s.processes id, s.mayLead caller id p → s.directory id = none
  | _ => True

instance (s : Jobs) : ∀ a : Act, Decidable (a.FreshId s)
  | .setSessionLeader caller id =>
    inferInstanceAs (Decidable (∀ p ∈ s.processes id, s.mayLead caller id p → s.directory id = none))
  | .create .. | .setPgroup .. | .exit .. => inferInstanceAs (Decidable True)

theorem Inv.step {s t : Jobs} {a : Act} (h : Inv none s) (ha : a.FreshId s) (hs : s.step a = some t) :
    Inv none t := by
  cases a with
  | create caller c => exact h.create hs
  | setPgroup caller id target => exact h.setPgroup hs
  | exit id => exact h.exit hs
  | setSessionLeader caller id =>
    simp only [Jobs.step, setSessionLeader] at hs
    split at hs
    case h_1 => exact Option.some.inj hs ▸ h
    case h_2 p hp =>
      split_ifs at hs with h0 hlead
      · exact Option.some.inj hs ▸ h.becomeLeader hp (ha p hp hlead)
      · exact Option.some.inj hs ▸ h

/-- **Process groups stay consistent** if a process becomes session leader only when no group has its id. -/
theorem exec_consistent {as : List Act} {t : Jobs} (hfresh : Along step (fun s a => a.FreshId s) start as)
    (hrun : exec step start as = some t) : Consistent t :=
  (exec_induction (I := Inv none) (fun _ _ _ hs hok hstep => hs.step hok hstep) Inv.start hfresh hrun).consistent

/-- One child gets a group of its own, the other joins it, the parent becomes session leader, and a child ends.
-/
def jobActs : List Act :=
  [.create 0 .done, .create 1 .done, .create 1 .done, .setPgroup 1 2 0, .setPgroup 3 3 2, .setSessionLeader 1 1,
    .exit 2]

theorem exec_consistent_jobs : ∃ t, exec step start jobActs = some t ∧ (t.processes 1).isSome ∧ Consistent t := by
  have hrun : (exec step start jobActs).any (fun t => (t.processes 1).isSome) = true := by decide +kernel
  obtain ⟨t, ht, hlive⟩ := (Option.any_eq_true _ _).1 hrun
  exact ⟨t, ht, hlive, exec_consistent (by decide +kernel) ht⟩

/-- Process 1 founds a group, goes to the group of its child, and founds a second group with its id. -/
def founderActs : List Act :=
  [.create 0 .done, .setPgroup 1 1 0, .create 1 .done, .create 1 .done, .setPgroup 2 2 0, .setPgroup 1 1 2,
    .setSessionLeader 1 1]

/-- **The founder of a group comes back to its id**: two groups have the id 1, and the directory has lost the
first. -/
theorem founder_shares_id : ∃ t, exec step start founderActs = some t ∧ t.groups 1 = ⟨1, 0, [3]⟩ ∧
    t.groups 3 = ⟨1, 1, [1]⟩ ∧ t.directory 1 = some 3 ∧ ¬ Consistent t := by
  have hrun : (exec step start founderActs).any (fun t => t.groups 1 = ⟨1, 0, [3]⟩ ∧ t.groups 3 = ⟨1, 1, [1]⟩ ∧
      t.directory 1 = some 3) = true := by decide +kernel
  obtain ⟨t, ht, hstate⟩ := (Option.any_eq_true _ _).1 hrun
  obtain ⟨h1, h3, hdir⟩ := of_decide_eq_true hstate
  refine ⟨t, ht, h1, h3, hdir, fun h => ?_⟩
  have hsame := h.distinct 1 3 (by rw [groupLists, h1]; nofun) (by rw [groupLists, h3]; nofun) (by rw [h1, h3])
  exact absurd hsame (by decide)

end Jobs

end Archis.Sched.Groups
