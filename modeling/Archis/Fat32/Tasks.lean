/-
  Operations that run at the same time.

  A step of a `Task` is one section under a directory lock, the lock of a directory that was found, or the last section;
  any task may take the next step unless it waits for a lock.  Between two steps of `resolve` no lock is kept, except
  that of the last directory on the way to a parent (`Task.hop`).  A task that needs a lock which it holds itself waits
  for ever, as in the source.
-/
import Archis.Lib.Run
import Archis.Fat32.Sections

namespace Archis.Fat32

open Archis.Lib

/-! ## Tasks -/

inductive Job where
  | createFile (leaf : List Char)
  | mkdir (leaf : List Char)
  | createSymlink (leaf target : List Char)
  | delete (leaf : List Char)
  | renameSameDir (fromLeaf toLeaf : List Char)
  /-- `fromFirst`: the directory of the source was locked first -/
  | renameCrossDir (fromFirst : Bool) (fromLeaf toLeaf : List Char)
  deriving DecidableEq

def Job.arity : Job → ℕ
  | .renameCrossDir _ _ _ => 2
  | _ => 1

/-- The last section, on the directories that are locked: the cluster of a new directory. -/
def Job.run (b : Bpb) : Job → List DirEntryView → FsM (Option ℕ)
  | .createFile leaf, [parent] => do
    createFileIn b parent leaf
    return none
  | .mkdir leaf, [parent] => do
    let newCluster ← mkdirIn b parent leaf
    return some newCluster
  | .createSymlink leaf target, [parent] => do
    createSymlinkIn b parent leaf target
    return none
  | .delete leaf, [parent] => do
    deleteIn b parent leaf
    return none
  | .renameSameDir fromLeaf toLeaf, [parent] => do
    renameIn b parent fromLeaf toLeaf
    return none
  | .renameCrossDir fromFirst fromLeaf toLeaf, [first, second] => do
    if fromFirst then renameBetween b first second fromLeaf toLeaf
    else renameBetween b second first fromLeaf toLeaf
    return none
  | _, _ => throw .panic

structure Task where
  bpb : Bpb
  job : Job
  /-- the names that lead to the directories still to be locked; the first of them from `cur` on -/
  todo : List (List (List Char))
  /-- the directory that the walk has come to -/
  cur : DirEntryView
  /-- the lock that the last hop has kept -/
  hop : Option ℕ
  found : List DirEntryView

namespace Task

def held (t : Task) : List ℕ := t.hop.toList ++ t.found.map (·.firstCluster)

def wants (t : Task) : Option ℕ := if t.todo = [] then none else some t.cur.firstCluster

/-- `resolve_and_lock_dir` walks with `hold_lock`; `fs_delete` takes the last lock itself. -/
def handsOver (t : Task) : Bool :=
  match t.job with
  | .delete _ => false
  | _ => true

def advance (t : Task) : FsM (Task ⊕ Option ℕ) :=
  match t.todo with
  | [] => do
    let made ← t.job.run t.bpb t.found
    return .inr made
  | [] :: later =>
    return .inl { t with
      todo := later
      cur := .root t.bpb.rootCluster.toNat
      hop := none
      found := t.found ++ [t.cur] }
  | (comp :: rest) :: later => do
    let entry ← readDev (lookupDir t.bpb t.cur.firstCluster comp)
    return .inl { t with
      todo := rest :: later
      cur := entry
      hop := if rest = [] ∧ t.handsOver then some t.cur.firstCluster else none }

end Task

/-! ## Operations -/

inductive DirOp where
  | createFile (path : List Char)
  | mkdir (path : List Char)
  | createSymlink (path target : List Char)
  | delete (path : List Char)
  | rename (src dst : List Char)

def Task.start (b : Bpb) (job : Job) (todo : List (List (List Char))) : Task :=
  ⟨b, job, todo, .root b.rootCluster.toNat, none, []⟩

def beginIn (b : Bpb) (path : List Char) (job : List Char → Job) : Except Fault Task :=
  if (splitParent path).2 = [] then throw (.err .invalid)
  else pure (.start b (job (splitParent path).2) [components (splitParent path).1])

/-- What an operation does before it looks at a directory. -/
def DirOp.begin (b : Bpb) : DirOp → Except Fault Task
  | .createFile path => beginIn b path .createFile
  | .mkdir path => beginIn b path .mkdir
  | .createSymlink path target => beginIn b path (.createSymlink · target)
  | .delete path =>
    match (components path).getLast? with
    | none => throw (.err .invalid)
    | some leaf => pure (.start b (.delete leaf) [(components path).dropLast])
  | .rename src dst =>
    let (fromParentPath, fromLeaf) := splitParent src
    let (toParentPath, toLeaf) := splitParent dst
    if fromLeaf = [] ∨ toLeaf = [] then throw (.err .invalid)
    else if eqIgnoreAsciiCase fromParentPath toParentPath then
      pure (.start b (.renameSameDir fromLeaf toLeaf) [components fromParentPath])
    else if pathOrderLe toParentPath fromParentPath then
      pure (.start b (.renameCrossDir true fromLeaf toLeaf) [components fromParentPath, components toParentPath])
    else
      pure (.start b (.renameCrossDir false fromLeaf toLeaf) [components toParentPath, components fromParentPath])

/-! ## Systems -/

structure Sys where
  vol : Vol
  /-- the directories, by their first clusters; the code has no such list -/
  dirs : List ℕ
  tasks : List Task

inductive Act where
  | call (op : DirOp)
  /-- the task at this place takes its next step -/
  | next (i : ℕ)

/-- What comes of a step. -/
inductive Event where
  | going
  | failed (e : Errno)
  /-- the section of the job succeeded, in these directories -/
  | done (job : Job) (parents : List ℕ) (made : Option ℕ)

namespace Sys

variable (s : Sys)

def locked : List ℕ := s.tasks.flatMap Task.held

def Blocked (t : Task) : Prop := ∃ c, t.wants = some c ∧ c ∈ s.locked

instance (t : Task) : Decidable (s.Blocked t) :=
  match h : t.wants with
  | none => isFalse fun ⟨_, hc, _⟩ => by rw [h] at hc; cases hc
  | some c => decidable_of_iff (c ∈ s.locked)
    ⟨fun hc => ⟨c, h, hc⟩, fun ⟨_, hc, hm⟩ => by rw [h] at hc; cases hc; exact hm⟩

def call (op : DirOp) : Option (Event × Sys) :=
  match getBpb s.vol.dev >>= op.begin with
  | .ok t => some (.going, { s with tasks := s.tasks ++ [t] })
  | .error (.err e) => some (.failed e, s)
  | .error _ => none

/-- Task number `i` takes its next step; it is gone when its operation returns. -/
def next (i : ℕ) : Option (Event × Sys) :=
  match s.tasks[i]? with
  | none => none
  | some t =>
    if s.Blocked t then none
    else
      match t.advance s.vol with
      | .ok (.inl t') w => some (.going, ⟨w, s.dirs, s.tasks.set i t'⟩)
      | .ok (.inr made) w =>
        some (.done t.job (t.found.map (·.firstCluster)) made, ⟨w, made.toList ++ s.dirs, s.tasks.eraseIdx i⟩)
      | .error (.err e) w => some (.failed e, ⟨w, s.dirs, s.tasks.eraseIdx i⟩)
      | .error _ _ => none

def advance : Act → Option (Event × Sys)
  | .call op => s.call op
  | .next i => s.next i

def step (a : Act) : Option Sys := (s.advance a).map Prod.snd

end Sys

end Archis.Fat32
