/-
  `RemoveLock` (`remove_lock.rs`), with every atomic access a step.

  The word holds the number of references, and in its top bit that the removal has begun.  One call is told to free: the
  one after which the removal has begun and no reference is out (`exec_freesOnce`).
-/
import Archis.Lib.Run

namespace Archis.Sync.RemoveLock

open Lib (exec Along exec_induction)
open Function (update update_of_ne update_self)
open List

def REMOVING : UInt64 := (1 : UInt64) <<< 63

structure State (τ : Type) where
  state : UInt64
  /-- What a thread in `acquire` has loaded. -/
  loaded : τ → Option UInt64
  /-- The threads that hold the references. -/
  held : List τ
  removed : Bool
  /-- The references that were out after each call that was told to free. -/
  told : List (List τ)
  /-- An `acquire` has succeeded after `begin_remove`. -/
  late : Bool
  /-- The assertion in `release` has failed. -/
  failed : Bool

inductive Action (τ : Type) where
  | load (t : τ)
  /-- `compare_exchange_weak`, which may fail spuriously. -/
  | exchange (t : τ) (spurious : Bool)
  | release (t : τ)
  | beginRemove

namespace State
variable {τ : Type}

def new : State τ := ⟨0, fun _ => none, [], false, [], false, false⟩

def step [DecidableEq τ] (s : State τ) : Action τ → Option (State τ)
  | .load t =>
    if s.loaded t ≠ none then none
    else some (if s.state &&& REMOVING ≠ 0 then s else { s with loaded := update s.loaded t (some s.state) })
  | .exchange t spurious => (s.loaded t).map fun cur =>
    if s.state = cur ∧ spurious = false then { s with
      state := cur + 1
      loaded := update s.loaded t none
      held := t :: s.held
      late := s.late || s.removed }
    else { s with loaded := update s.loaded t none }
  | .release t =>
    if t ∈ s.held then some { s with
      state := s.state - 1
      held := s.held.erase t
      failed := s.failed || s.state &&& ~~~REMOVING = 0
      told := if s.state &&& REMOVING ≠ 0 ∧ s.state &&& ~~~REMOVING = 1 then s.held.erase t :: s.told else s.told }
    else none
  | .beginRemove =>
    if s.removed then none
    else some { s with
      state := s.state ||| REMOVING
      removed := true
      told := if s.state &&& ~~~REMOVING = 0 then s.held :: s.told else s.told }

/-- There are fewer than `2 ^ 63` references. -/
def Room (s : State τ) : Action τ → Prop
  | .exchange _ _ => s.held.length + 1 < 2 ^ 63
  | _ => True

instance (s : State τ) : ∀ a, Decidable (s.Room a)
  | .exchange _ _ => inferInstanceAs (Decidable (_ < _))
  | .load _ | .release _ | .beginRemove => .isTrue trivial

/-! ## The word -/

theorem removing_iff (w : UInt64) : w &&& REMOVING = 0 ↔ w.toNat < 2 ^ 63 := by
  have hr : REMOVING.toNat = 2 ^ 63 := by decide
  have hlt := w.toNat_lt
  rw [← UInt64.toNat_inj, UInt64.toNat_and, hr, Nat.and_two_pow, Nat.testBit_eq_decide_div_mod_eq]
  simp
  omega

theorem toNat_count (w : UInt64) : (w &&& ~~~REMOVING).toNat = w.toNat % 2 ^ 63 := by
  have hr : (~~~REMOVING).toNat = 2 ^ 63 - 1 := by decide
  rw [UInt64.toNat_and, hr, Nat.and_two_pow_sub_one_eq_mod]

theorem toNat_or_removing {w : UInt64} (h : w.toNat < 2 ^ 63) : (w ||| REMOVING).toNat = 2 ^ 63 + w.toNat := by
  have hr : REMOVING.toNat = 2 ^ 63 * 1 := by decide
  rw [UInt64.toNat_or, hr, Nat.or_comm, ← Nat.two_pow_add_eq_or_of_lt h, mul_one]

/-- The word counts the references; a call has been told to free just when none is left to a removal. -/
structure FreesOnce (s : State τ) : Prop where
  word : s.state.toNat = (if s.removed then 2 ^ 63 else 0) + s.held.length
  room : s.held.length < 2 ^ 63
  loaded : ∀ t cur, s.loaded t = some cur → cur.toNat < 2 ^ 63
  told : s.told = if s.removed = true ∧ s.held = [] then [[]] else []
  not_late : s.late = false
  not_failed : s.failed = false

namespace FreesOnce
variable {s s' : State τ} {t : τ}

theorem loaded_update [DecidableEq τ] (h : s.FreesOnce) {v : Option UInt64} (hv : ∀ cur, v = some cur → cur.toNat < 2 ^ 63)
    (u : τ) (cur : UInt64) (hu : update s.loaded t v u = some cur) : cur.toNat < 2 ^ 63 := by
  by_cases htu : u = t
  · subst htu
    exact hv cur (by rwa [update_self] at hu)
  · exact h.loaded u cur (by rwa [update_of_ne htu] at hu)

theorem not_removed (h : s.FreesOnce) (hlt : s.state.toNat < 2 ^ 63) : s.removed = false := by
  have hw := h.word
  by_contra hr
  rw [Bool.not_eq_false] at hr
  rw [hr, if_pos rfl] at hw
  omega

theorem count (h : s.FreesOnce) : (s.state &&& ~~~REMOVING).toNat = s.held.length := by
  have hw := h.word
  have := h.room
  rw [toNat_count, hw]
  split <;> omega

variable [DecidableEq τ]

theorem load (h : s.FreesOnce) (hs : s.step (.load t) = some s') : s'.FreesOnce := by
  simp only [step, Option.ite_none_left_eq_some, Option.some.injEq] at hs
  obtain ⟨-, rfl⟩ := hs
  split
  · exact h
  · rename_i hr
    refine { h with loaded := h.loaded_update fun cur hcur => ?_ }
    exact Option.some.inj hcur ▸ (removing_iff _).1 (not_not.1 hr)

theorem exchange {spurious : Bool} (h : s.FreesOnce) (hroom : s.Room (.exchange t spurious))
    (hs : s.step (.exchange t spurious) = some s') : s'.FreesOnce := by
  simp only [step, Option.map_eq_some_iff] at hs
  obtain ⟨cur, hcur, rfl⟩ := hs
  have hloaded := h.loaded_update (t := t) (v := none) nofun
  split
  · rename_i hx
    have hlt := h.loaded t cur hcur
    -- The word has not changed since it had no flag, so the removal has not begun.
    have hr := h.not_removed (hx.1 ▸ hlt)
    have hw := h.word
    rw [hr, hx.1] at hw
    have hadd : (cur + 1).toNat = cur.toNat + 1 := by
      rw [UInt64.toNat_add, UInt64.toNat_one, Nat.mod_eq_of_lt (by omega)]
    exact ⟨by simpa [hr, hadd] using hw, hroom, hloaded, by simpa [hr] using h.told, by simp [hr, h.not_late],
      h.not_failed⟩
  · exact { h with loaded := hloaded }

theorem release (h : s.FreesOnce) (hs : s.step (.release t) = some s') : s'.FreesOnce := by
  simp only [step, Option.ite_none_right_eq_some, Option.some.injEq] at hs
  obtain ⟨ht, rfl⟩ := hs
  have hlen := length_erase_of_mem ht
  have hpos := length_pos_of_mem ht
  have hroom := h.room
  have hw := h.word
  have hc := h.count
  have hsub : (s.state - 1).toNat = s.state.toNat - 1 :=
    UInt64.toNat_sub_of_le _ _ (by rw [UInt64.le_iff_toNat_le, UInt64.toNat_one]; omega)
  have htold : s.told = [] := by simpa [ne_nil_of_mem ht] using h.told
  have h0 : s.state &&& ~~~REMOVING ≠ 0 := by
    rw [ne_eq, ← UInt64.toNat_inj, hc]
    exact hpos.ne'
  have h1 : s.state &&& ~~~REMOVING = 1 ↔ s.held.erase t = [] := by
    rw [← UInt64.toNat_inj, hc, ← length_eq_zero_iff, hlen, UInt64.toNat_one]
    omega
  have hr : s.state &&& REMOVING ≠ 0 ↔ s.removed = true := by
    rw [ne_eq, removing_iff, hw]
    split <;> simp_all
  refine { h with word := ?_, room := by simp only; omega, told := ?_, not_failed := ?_ }
  · simp only [hsub, hlen]
    omega
  · simp only [h1, hr, htold]
    split
    · rename_i hfree
      rw [hfree.2]
    · rfl
  · simp [h.not_failed, h0]

theorem beginRemove (h : s.FreesOnce) (hs : s.step .beginRemove = some s') : s'.FreesOnce := by
  simp only [step, Option.ite_none_left_eq_some, Option.some.injEq] at hs
  obtain ⟨hr, rfl⟩ := hs
  have hroom := h.room
  have hw := h.word
  have hc : s.state &&& ~~~REMOVING = 0 ↔ s.held = [] := by
    rw [← UInt64.toNat_inj, h.count, ← length_eq_zero_iff, UInt64.toNat_zero]
  have htold : s.told = [] := by simpa [hr] using h.told
  have hor := toNat_or_removing (w := s.state) (by simp_all)
  exact { h with word := by simp_all, told := by simp_all }

theorem step {a : Action τ} (h : s.FreesOnce) (hroom : s.Room a) (hs : s.step a = some s') : s'.FreesOnce := by
  cases a with
  | load t => exact h.load hs
  | exchange t spurious => exact h.exchange hroom hs
  | release t => exact h.release hs
  | beginRemove => exact h.beginRemove hs

end FreesOnce

theorem new_freesOnce : (new : State τ).FreesOnce :=
  ⟨rfl, Nat.two_pow_pos 63, fun _ _ h => (Option.some_ne_none _ h.symm).elim, rfl, rfl, rfl⟩

/-- In every interleaving exactly one call is told to free, and only with the removal begun and no reference out; no
`acquire` succeeds after `begin_remove`, and no assertion of `release` fails. -/
theorem exec_freesOnce [DecidableEq τ] {s : State τ} {as : List (Action τ)} (hroom : Along step Room new as)
    (hexec : exec step new as = some s) :
    s.told = (if s.removed = true ∧ s.held = [] then [[]] else []) ∧ s.late = false ∧ s.failed = false := by
  have h : s.FreesOnce := exec_induction (fun _ _ _ h hok hs => h.step hok hs) new_freesOnce hroom hexec
  exact ⟨h.told, h.not_late, h.not_failed⟩

def racing : List (Action Bool) := [.load true, .load false, .exchange true false, .exchange false false, .load false,
  .beginRemove, .exchange false false, .load false, .release true]

theorem racing_freesOnce : ∃ s, exec step new racing = some s ∧ s.removed = true ∧ s.held = [] ∧ s.told = [[]] ∧
    s.late = false ∧ s.failed = false :=
  ⟨_, rfl, rfl, rfl, exec_freesOnce (show Along step Room new racing by decide) rfl⟩

end State
end Archis.Sync.RemoveLock
