/-
  Chains of links.

  `Linked next a l`: the links from `a` on run through exactly the nodes `l` and end.  A chain is determined by its first
  node, has no node twice, and has at most as many nodes as a set that the links do not leave.
-/
import Mathlib

namespace Archis.Lib

open List

variable {α : Type*} {next next' : α → Option α} {a b x t : α} {l l' : List α}

/-- The links from `a` on run through `l` and end there. -/
inductive Linked (next : α → Option α) : α → List α → Prop where
  | last {a : α} : next a = none → Linked next a [a]
  | cons {a b : α} {l : List α} : next a = some b → Linked next b l → Linked next a (a :: l)

namespace Linked

section
variable (h : Linked next a l)
include h

theorem exists_tail : ∃ t, l = a :: t := by
  cases h with
  | last _ => exact ⟨[], rfl⟩
  | cons _ _ => exact ⟨_, rfl⟩

theorem mem : a ∈ l := by
  obtain ⟨t, rfl⟩ := h.exists_tail
  simp

theorem ne_nil : l ≠ [] := ne_nil_of_mem h.mem

theorem unique : ∀ {l' : List α}, Linked next a l' → l = l' := by
  induction h with
  | last h0 =>
    intro l' h'
    cases h' with
    | last _ => rfl
    | cons h1 _ => rw [h0] at h1; cases h1
  | cons h0 _ ih =>
    intro l' h'
    cases h' with
    | last h1 => rw [h0] at h1; cases h1
    | cons h1 h2 =>
      rw [h0, Option.some.injEq] at h1
      subst h1
      rw [ih h2]

/-- From each node of a chain on, the rest of the chain is a chain. -/
theorem of_mem (hx : x ∈ l) : ∃ l', Linked next x l' ∧ l' <:+ l := by
  induction h with
  | last h0 =>
    rw [mem_singleton] at hx
    subst hx
    exact ⟨_, .last h0, suffix_rfl⟩
  | cons h0 h1 ih =>
    rcases mem_cons.1 hx with rfl | hx
    · exact ⟨_, .cons h0 h1, suffix_rfl⟩
    · obtain ⟨l', h2, h3⟩ := ih hx
      exact ⟨l', h2, h3.trans (suffix_cons _ _)⟩

theorem nodup : l.Nodup := by
  induction h with
  | last _ => simp
  | cons h0 h1 ih =>
    refine nodup_cons.2 ⟨fun hmem => ?_, ih⟩
    -- the chain from the repeated node would be a proper part of itself
    obtain ⟨l', h2, h3⟩ := h1.of_mem hmem
    have h4 := congrArg List.length ((Linked.cons h0 h1).unique h2)
    have h5 := h3.length_le
    rw [length_cons] at h4; omega

theorem congr (hn : ∀ c ∈ l, next' c = next c) : Linked next' a l := by
  induction h with
  | last h0 => exact .last (by rw [hn _ (by simp), h0])
  | cons h0 _ ih =>
    exact .cons (by rw [hn _ (by simp), h0]) (ih fun c hc => hn c (by simp [hc]))

/-- What the chain runs through is either its end or linked to another node of it. -/
theorem next_mem (hx : x ∈ l) : next x = none ∨ ∃ y ∈ l, next x = some y := by
  induction h with
  | last h0 => rw [mem_singleton] at hx; subst hx; exact .inl h0
  | cons h0 h1 ih =>
    rcases mem_cons.1 hx with rfl | hx
    · exact .inr ⟨_, by simp [h1.mem], h0⟩
    · rcases ih hx with h | ⟨y, hy, h⟩
      · exact .inl h
      · exact .inr ⟨y, by simp [hy], h⟩

theorem next_last (hlast : l.getLast? = some t) : next t = none := by
  induction h with
  | last h0 =>
    rw [getLast?_singleton, Option.some.injEq] at hlast
    rw [← hlast]; exact h0
  | cons _ h1 ih =>
    rw [getLast?_cons_of_ne_nil h1.ne_nil] at hlast
    exact ih hlast

/-- **A longer chain.**  Where the last node begins another chain, the two are one chain. -/
theorem append (hlast : l.getLast? = some t) (hn : ∀ c ∈ l, c ≠ t → next' c = next c)
    (ht : Linked next' t (t :: l')) : Linked next' a (l ++ l') := by
  induction h with
  | @last a h0 =>
    obtain rfl : a = t := by simpa using hlast
    exact ht
  | @cons a b l h0 h1 ih =>
    rw [getLast?_cons_of_ne_nil h1.ne_nil] at hlast
    have hat : a ≠ t := by
      rintro rfl
      exact (nodup_cons.1 (Linked.cons h0 h1).nodup).1 (mem_of_getLast? hlast)
    refine .cons ?_ (ih hlast fun c hc => hn c (by simp [hc]))
    rw [hn a (by simp) hat, h0]

theorem drop : ∀ {n : ℕ} {c : α}, l[n]? = some c → Linked next c (l.drop n) := by
  induction h with
  | last h0 =>
    intro n c hn
    cases n with
    | zero => simp only [getElem?_cons_zero, Option.some.injEq] at hn; subst hn; exact .last h0
    | succ n => simp at hn
  | cons h0 h1 ih =>
    intro n c hn
    cases n with
    | zero =>
      simp only [getElem?_cons_zero, Option.some.injEq] at hn
      subst hn; exact .cons h0 h1
    | succ n => exact ih (by simpa using hn)

end

/-- A chain stays in a set that the links do not leave, and has no node twice. -/
theorem length_le_card [DecidableEq α] (h : Linked next a l) {S : Finset α} (ha : a ∈ S)
    (hS : ∀ x ∈ S, ∀ y, next x = some y → y ∈ S) : l.length ≤ S.card := by
  have hsub : ∀ c ∈ l, c ∈ S := by
    intro c hc
    induction h with
    | last _ => rwa [mem_singleton.1 hc]
    | cons h0 _ ih =>
      rcases mem_cons.1 hc with rfl | hc
      · exact ha
      · exact ih (hS _ ha _ h0) hc
  rw [← toFinset_card_of_nodup h.nodup]
  exact Finset.card_le_card fun c hc => hsub c (mem_toFinset.1 hc)

end Linked

theorem not_linked_of_self (h : next a = some a) : ¬ Linked next a l := by
  intro hl
  have hnd := hl.nodup
  cases hl with
  | last h0 => rw [h] at h0; cases h0
  | cons h0 h1 =>
    rw [h, Option.some.injEq] at h0
    subst h0
    exact (nodup_cons.1 hnd).1 h1.mem

/-! ## Chains of a bounded length -/

theorem exists_linked_of_none (h : next a = none) (n : ℕ) : ∃ l, Linked next a l ∧ l.length ≤ n + 1 :=
  ⟨[a], .last h, by simp⟩

theorem not_exists_linked_zero : ¬ ∃ l, Linked next a l ∧ l.length ≤ 0 := by
  rintro ⟨l, hl, h0⟩
  exact hl.ne_nil (length_eq_zero_iff.1 (Nat.le_zero.1 h0))

theorem exists_linked_succ (h : next a = some b) {n : ℕ} :
    (∃ l, Linked next a l ∧ l.length ≤ n + 1) ↔ ∃ l, Linked next b l ∧ l.length ≤ n := by
  constructor
  · rintro ⟨l, hl, hn⟩
    cases hl with
    | last h0 => rw [h] at h0; cases h0
    | cons h0 h1 =>
      rw [h, Option.some.injEq] at h0
      subst h0
      exact ⟨_, h1, by simpa using hn⟩
  · rintro ⟨l, hl, hn⟩
    exact ⟨a :: l, .cons h hl, by simpa using hn⟩

end Archis.Lib
