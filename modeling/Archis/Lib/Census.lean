/-
  Counting threads by where they are.

  `census w pc` adds up a weight of the places over all threads.  A step moves one thread, so it changes a census by the
  difference of two weights (`census_update`).
-/
import Mathlib

namespace Archis.Lib

variable {ι π : Type*} [Fintype ι] {w : π → ℕ} {pc : ι → π}

/-- The weights of all threads together. -/
def census (w : π → ℕ) (pc : ι → π) : ℕ := ∑ t, w (pc t)

theorem le_census (w : π → ℕ) (pc : ι → π) (t : ι) : w (pc t) ≤ census w pc :=
  Finset.single_le_sum (f := fun t => w (pc t)) (fun _ _ => Nat.zero_le _) (Finset.mem_univ t)

theorem exists_of_census_pos (h : 0 < census w pc) : ∃ t, 0 < w (pc t) := by
  by_contra hno
  have hzero : census w pc = 0 := Finset.sum_eq_zero fun t _ => by
    by_contra h
    exact hno ⟨t, Nat.pos_of_ne_zero h⟩
  omega

theorem census_mono {v : π → ℕ} (pc : ι → π) (h : ∀ p, w p ≤ v p) : census w pc ≤ census v pc :=
  Finset.sum_le_sum fun t _ => h (pc t)

theorem card_le_census {s : Finset ι} (h : ∀ t ∈ s, 1 ≤ w (pc t)) : s.card ≤ census w pc := by
  rw [Finset.card_eq_sum_ones]
  exact (Finset.sum_le_sum h).trans
    (Finset.sum_le_sum_of_subset_of_nonneg (Finset.subset_univ s) fun _ _ _ => Nat.zero_le _)

variable [DecidableEq ι]

/-- **A step of one thread.** -/
theorem census_update (w : π → ℕ) (pc : ι → π) (t : ι) (p : π) :
    census w (Function.update pc t p) + w (pc t) = census w pc + w p := by
  have hupd : ∀ u, w (Function.update pc t p u) = Function.update (fun u => w (pc u)) t (w p) u :=
    fun u => Function.apply_update (fun _ => w) pc t p u
  have hsum := Finset.sum_update_of_mem (Finset.mem_univ t) (fun u => w (pc u)) (w p)
  have hsplit := Finset.sum_eq_add_sum_sdiff_singleton_of_mem (Finset.mem_univ t) fun u => w (pc u)
  simp only [census, hupd]
  omega

theorem eq_of_census_le_one {t u : ι} (h : census w pc ≤ 1) (ht : 0 < w (pc t)) (hu : 0 < w (pc u)) : u = t := by
  by_contra hne
  have hcard : ({t, u} : Finset ι).card ≤ census w pc := card_le_census fun x hx => by
    rcases Finset.mem_insert.1 hx with rfl | hx
    · exact ht
    · rw [Finset.mem_singleton.1 hx]
      exact hu
  rw [Finset.card_pair (Ne.symm hne)] at hcard
  omega

end Archis.Lib
