/-
  Recursion along the links of a finite graph, without a record of the nodes visited.

  Such a recursion returns exactly if it meets no cycle.  `acyclic_induction` bounds its depth by the number of nodes,
  and by `cyclic_induction` no depth is enough on a cycle.
-/
import Mathlib

namespace Archis.Lib

open Relation

variable {α : Type*} {R : α → α → Prop} {a b : α}

/-- A cycle can be reached. -/
def Cyclic (R : α → α → Prop) (a : α) : Prop := ∃ b, ReflTransGen R a b ∧ TransGen R b b

theorem Cyclic.head (h : Cyclic R b) (hab : R a b) : Cyclic R a := by
  obtain ⟨c, hbc, hcc⟩ := h
  exact ⟨c, hbc.head hab, hcc⟩

theorem Cyclic.tail (h : Cyclic R a) : ∃ b, R a b ∧ Cyclic R b := by
  obtain ⟨c, hac, hcc⟩ := h
  rcases hac.cases_head with rfl | ⟨b, hab, hbc⟩
  · obtain ⟨b, hab, hba⟩ := TransGen.head'_iff.1 hcc
    exact ⟨b, hab, a, hba, hcc⟩
  · exact ⟨b, hab, c, hbc, hcc⟩

/-- What follows for a node at depth `n + 1` from the nodes it links to at depth `n`. -/
theorem acyclic_induction [Finite α] {P : ℕ → α → Prop} (hstep : ∀ n a, (∀ b, R a b → P n b) → P (n + 1) a)
    (h : ¬ Cyclic R a) : P (Nat.card α + 1) a := by
  -- the nodes that can be reached get fewer along a link
  have hlt : ∀ a b, R a b → ¬ Cyclic R a → {c | TransGen R b c}.ncard < {c | TransGen R a c}.ncard := by
    intro a b hab ha
    refine Set.ncard_lt_ncard ⟨fun c hc => TransGen.head hab hc, fun hsub => ?_⟩
    exact ha ⟨b, .single hab, hsub (TransGen.single hab)⟩
  have hall : ∀ n a, ¬ Cyclic R a → {c | TransGen R a c}.ncard < n → P n a := by
    intro n
    induction n with
    | zero => exact fun a _ h => absurd h (Nat.not_lt_zero _)
    | succ n ih =>
      refine fun a ha hn => hstep n a fun b hab => ih b (fun hb => ha (hb.head hab)) ?_
      have := hlt a b hab ha
      omega
  exact hall _ a h (Nat.lt_succ_of_le (Set.ncard_le_card _))

theorem cyclic_induction {P : ℕ → α → Prop} (hzero : ∀ a, P 0 a) (hstep : ∀ n a b, R a b → P n b → P (n + 1) a) :
    ∀ (n : ℕ) {a : α}, Cyclic R a → P n a
  | 0, a, _ => hzero a
  | n + 1, _, h => by
    obtain ⟨b, hab, hb⟩ := h.tail
    exact hstep n _ b hab (cyclic_induction hzero hstep n hb)

end Archis.Lib
