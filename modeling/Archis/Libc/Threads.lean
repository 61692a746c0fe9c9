/-
  Threads (`libc/pthread.c`): the table that takes the id of a thread to its handle.

  A slot with id 0 is free, and a thread for which no slot is free is left out of the table.  Where no call has the id
  0 and no thread is left out, a call finds just the threads that are neither joined nor detached, and their handles are
  the open ones (`exec_joins`).
-/
import Archis.Lib.Run

namespace Archis.Libc.Threads

open Lib (exec Along exec_induction)
open List

def PTHREAD_MAX_THREADS : ℕ := 64

/-- A slot of the table: an id and a handle. -/
abbrev Entry := (_ : ℕ) × ℕ

def pthreadRegister (tid handle : ℕ) : List Entry → List Entry
  | [] => []
  | e :: table => if e.1 = 0 then ⟨tid, handle⟩ :: table else e :: pthreadRegister tid handle table

/-- The handle, if there is an entry; the slot keeps it. -/
def pthreadTake (tid : ℕ) : List Entry → Option ℕ × List Entry
  | [] => (none, [])
  | e :: table =>
    if e.1 = tid then (some e.2, ⟨0, e.2⟩ :: table)
    else ((pthreadTake tid table).1, e :: (pthreadTake tid table).2)

structure State where
  table : List Entry
  /-- The threads of the calls of `pthread_create` that have not registered them. -/
  creating : List Entry
  /-- The threads that are neither joined nor detached. -/
  created : List Entry
  /-- The handles that a call has taken and will close. -/
  taken : List ℕ
  /-- The open handles of threads. -/
  handles : List ℕ
  /-- A call has found another handle than that of the thread with its id, or one where there is no thread. -/
  wrong : Bool

inductive Action where
  /-- `sys_create_thread` and `sys_get_thread_info`. -/
  | create (tid handle : ℕ)
  | register (tid handle : ℕ)
  /-- The first half of `pthread_join` and `pthread_detach`, up to the unlocking of the table. -/
  | take (tid : ℕ)
  | close (handle : ℕ)

namespace State

def new : State := ⟨replicate PTHREAD_MAX_THREADS ⟨0, 0⟩, [], [], [], [], false⟩

def step (s : State) : Action → Option State
  -- the kernel counts the threads from 0 on, and thread 0 is its own
  | .create tid handle =>
    if tid ≠ 0 ∧ tid ∉ (s.creating ++ s.created).keys ∧ handle ∉ s.handles then
      some { s with creating := ⟨tid, handle⟩ :: s.creating, handles := handle :: s.handles }
    else none
  | .register tid handle =>
    if ⟨tid, handle⟩ ∈ s.creating then some { s with
      table := pthreadRegister tid handle s.table
      creating := s.creating.erase ⟨tid, handle⟩
      created := ⟨tid, handle⟩ :: s.created }
    else none
  | .take tid => some { s with
      table := (pthreadTake tid s.table).2
      created := s.created.kerase tid
      taken := (pthreadTake tid s.table).1.toList ++ s.taken
      wrong := s.wrong || (pthreadTake tid s.table).1 ≠ s.created.dlookup tid }
  | .close handle =>
    if handle ∈ s.taken then
      some { s with taken := s.taken.erase handle, handles := s.handles.erase handle }
    else none

/-- No call has the id 0, and a slot is free for each new thread. -/
def Room (s : State) : Action → Prop
  | .take tid => tid ≠ 0
  | .register _ _ => s.created.length < PTHREAD_MAX_THREADS
  | _ => True

end State

/-! ## The table -/

/-- The entries in use. -/
def used (table : List Entry) : List Entry := table.filter (·.1 ≠ 0)

section
variable {tid handle : ℕ}

theorem length_pthreadRegister (table : List Entry) :
    (pthreadRegister tid handle table).length = table.length := by
  induction table with
  | nil => rfl
  | cons e table ih => rw [pthreadRegister]; split_ifs <;> simp [ih]

theorem used_pthreadRegister (htid : tid ≠ 0) {table : List Entry} (h : (used table).length < table.length) :
    used (pthreadRegister tid handle table) ~ ⟨tid, handle⟩ :: used table := by
  induction table with
  | nil => simp at h
  | cons e table ih =>
    rw [pthreadRegister]
    split_ifs with he
    · simp [used, htid, he]
    · simp only [used, filter_cons, ne_eq, he, not_false_eq_true, decide_true, if_true, length_cons] at h ⊢
      exact ((ih (by simpa [used] using h)).cons e).trans (.swap ..)

theorem pthreadTake_spec (htid : tid ≠ 0) (table : List Entry) :
    (pthreadTake tid table).1 = (used table).dlookup tid ∧
    used (pthreadTake tid table).2 = (used table).kerase tid ∧
    (pthreadTake tid table).2.length = table.length := by
  induction table with
  | nil => exact ⟨rfl, rfl, rfl⟩
  | cons e table ih =>
    obtain ⟨h1, h2, h3⟩ := ih
    rw [pthreadTake]
    split_ifs with he
    · obtain ⟨id, handle⟩ := e
      subst he
      simp [used, show id ≠ 0 from htid]
    · have hcons : ∀ l, used (e :: l) = if e.1 = 0 then used l else e :: used l := fun l => by
        simp [used, filter_cons]
      simp only [hcons, h1, h2, length_cons, h3, and_true]
      split_ifs with h0
      · exact ⟨rfl, rfl⟩
      · exact ⟨(dlookup_cons_ne _ e (Ne.symm he)).symm, (kerase_cons_ne (Ne.symm he)).symm⟩

theorem map_snd_kerase (tid : ℕ) (l : List Entry) :
    l.map Sigma.snd ~ (l.dlookup tid).toList ++ (l.kerase tid).map Sigma.snd := by
  induction l with
  | nil => exact .nil
  | cons e l ih =>
    by_cases he : tid = e.1
    · obtain ⟨id, handle⟩ := e
      subst he
      simp
    · rw [dlookup_cons_ne _ e he, kerase_cons_ne he]
      exact (ih.cons _).trans perm_middle.symm

end

/-! ## Runs -/

structure Joins (s : State) : Prop where
  length : s.table.length = PTHREAD_MAX_THREADS
  entries : used s.table ~ s.created
  keys : (s.creating ++ s.created).NodupKeys
  ids : 0 ∉ (s.creating ++ s.created).keys
  handles : s.handles ~ (s.creating ++ s.created).map Sigma.snd ++ s.taken
  right : s.wrong = false

theorem Joins.new : Joins .new := by
  refine ⟨rfl, ?_, nodupKeys_nil, by simp [State.new], .nil, rfl⟩
  simp [used, State.new]

theorem Joins.step {s t : State} {a : Action} (h : Joins s) (hok : s.Room a) (hstep : s.step a = some t) :
    Joins t := by
  cases a with
  | create tid handle =>
    simp only [State.step, Option.ite_none_right_eq_some, Option.some.injEq] at hstep
    obtain ⟨⟨h0, hkey, -⟩, rfl⟩ := hstep
    exact { h with
      keys := nodupKeys_cons.2 ⟨hkey, h.keys⟩
      ids := by simpa [Ne.symm h0] using h.ids
      handles := h.handles.cons handle }
  | register tid handle =>
    simp only [State.step, Option.ite_none_right_eq_some, Option.some.injEq] at hstep
    obtain ⟨hmem, rfl⟩ := hstep
    have hperm : s.creating.erase ⟨tid, handle⟩ ++ ⟨tid, handle⟩ :: s.created ~ s.creating ++ s.created :=
      perm_middle.trans ((perm_cons_erase hmem).symm.append_right s.created)
    have htid : tid ≠ 0 := by
      rintro rfl
      exact h.ids (mem_keys_of_mem (mem_append_left _ hmem))
    have hroom : (used s.table).length < s.table.length := by
      rw [h.entries.length_eq, h.length]; exact hok
    exact { h with
      length := (length_pthreadRegister _).trans h.length
      entries := (used_pthreadRegister htid hroom).trans (h.entries.cons _)
      keys := (perm_nodupKeys hperm).2 h.keys
      ids := fun h0 => h.ids ((hperm.map Sigma.fst).mem_iff.1 h0)
      handles := h.handles.trans ((hperm.map Sigma.snd).symm.append_right _) }
  | take tid =>
    obtain rfl := Option.some.inj hstep
    obtain ⟨h1, h2, h3⟩ := pthreadTake_spec hok s.table
    have hsub : s.creating ++ s.created.kerase tid <+ s.creating ++ s.created :=
      (Sublist.refl _).append (kerase_sublist ..)
    have hkeys : (used s.table).NodupKeys :=
      (perm_nodupKeys h.entries).2 (h.keys.sublist (sublist_append_right ..))
    have hfound : (pthreadTake tid s.table).1 = s.created.dlookup tid := h1.trans (perm_dlookup tid hkeys h.entries)
    exact
      { length := h3.trans h.length
        entries := by rw [h2]; exact h.entries.kerase hkeys
        keys := h.keys.sublist hsub
        ids := fun h0 => h.ids ((hsub.map Sigma.fst).subset h0)
        handles := by
          have hmove := ((map_snd_kerase tid s.created).append_left (s.creating.map Sigma.snd)).append_right s.taken
          simp only [hfound, map_append, append_assoc] at hmove ⊢
          refine (h.handles.trans (by simpa using hmove)).trans (.append_left _ ?_)
          simpa using perm_append_comm_assoc ..
        right := by simp [h.right, hfound] }
  | close handle =>
    simp only [State.step, Option.ite_none_right_eq_some, Option.some.injEq] at hstep
    obtain ⟨hmem, rfl⟩ := hstep
    exact { h with
      handles := by
        have hperm := (((perm_cons_erase hmem).append_left _).trans perm_middle).symm.trans h.handles.symm
        simpa using (hperm.erase handle).symm }

/-- **Every thread is joined or detached once**: where no call has the id 0 and a slot is free for each new thread, every
    call finds the handle of the thread with its id that is neither joined nor detached, or none if there is no such
    thread; and the open handles are those of the other threads and those that a call is about to close. -/
theorem exec_joins {is : List Action} {t : State} (hok : Along State.step State.Room .new is)
    (h : exec State.step .new is = some t) :
    t.wrong = false ∧ t.handles ~ (t.creating ++ t.created).map Sigma.snd ++ t.taken := by
  have hjoins : Joins t := exec_induction (fun _ _ _ hs hok hstep => hs.step hok hstep) Joins.new hok h
  exact ⟨hjoins.right, hjoins.handles⟩

def oneThread : List Action := [.create 5 3, .register 5 3, .take 5, .close 3, .take 5]

theorem oneThread_joins : ∃ t, exec State.step .new oneThread = some t ∧ t.handles = [] ∧ t.wrong = false := by
  have hok : Along State.step State.Room .new oneThread := by
    simp [oneThread, Along, State.Room, State.step, State.new, PTHREAD_MAX_THREADS]
  exact ⟨_, rfl, rfl, (exec_joins hok rfl).1⟩

/-- A call with the id 0 finds the handle 0 in a free slot, and the last of 65 threads is not found. -/
theorem idZero_taken : (pthreadTake 0 State.new.table).1 = some 0 ∧
    (exec State.step .new ((List.range 65).flatMap fun k => [.create (k + 1) k, .register (k + 1) k])).map
      (fun s => ((pthreadTake 65 s.table).1, s.created.dlookup 65)) = some (none, some 64) := by
  decide +kernel

end Archis.Libc.Threads
