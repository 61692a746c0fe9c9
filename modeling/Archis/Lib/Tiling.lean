/-
  Tilings of an order by half-open intervals.

  A family of intervals is handled through its multiplicity: `cover lo hi l x` is the number of members of `l` whose
  interval `[lo b, hi b)` contains `x`.  Splitting, joining, moving and reordering intervals are then equations between
  sums:
  * `pairwise_disjoint_of_cover`: multiplicities at most one mean disjoint intervals;
  * `exists_mem_of_cover`: positive multiplicities mean points of the union.
-/
import Mathlib

namespace Archis.Lib

open List hiding Disjoint

variable {α β : Type*}

/-! ## Sums over updated lists -/

theorem sum_map_eraseIdx (f : β → ℕ) (l : List β) (i : ℕ) (b : β) (h : l[i]? = some b) :
    ((l.eraseIdx i).map f).sum + f b = (l.map f).sum := by
  obtain ⟨hi, rfl⟩ := List.getElem?_eq_some_iff.1 h
  rw [← ((getElem_cons_eraseIdx_perm hi).map f).sum_eq, map_cons, sum_cons, Nat.add_comm]

theorem sum_map_set (f : β → ℕ) (l : List β) (i : ℕ) (a b : β) (h : l[i]? = some b) :
    ((l.set i a).map f).sum + f b = (l.map f).sum + f a := by
  obtain ⟨hi, -⟩ := List.getElem?_eq_some_iff.1 h
  rw [((set_perm_cons_eraseIdx hi a).map f).sum_eq, map_cons, sum_cons, Nat.add_assoc,
    sum_map_eraseIdx f l i b h, Nat.add_comm]

/-! ## Multiplicities -/

section
variable [LinearOrder α]

/-- One if `x` lies in `[a, b)`, zero otherwise. -/
def hits (a b x : α) : ℕ := if a ≤ x ∧ x < b then 1 else 0

variable {x : α} {l : List β}

theorem hits_pos {a b : α} : 0 < hits a b x ↔ a ≤ x ∧ x < b := by
  unfold hits; split_ifs with h <;> simp [h]

theorem hits_le_one (a b x : α) : hits a b x ≤ 1 := by
  unfold hits; split_ifs <;> omega

theorem hits_self (a x : α) : hits a a x = 0 := by
  unfold hits; rw [if_neg]; exact fun h => absurd (h.1.trans_lt h.2) (lt_irrefl a)

/-- **Splitting an interval** at a point between its ends. -/
theorem hits_split {a m b : α} (h₁ : a ≤ m) (h₂ : m ≤ b) (x : α) : hits a b x = hits a m x + hits m b x := by
  unfold hits
  rcases lt_or_ge x m with hx | hx
  · rw [if_neg (c := m ≤ x ∧ x < b) (fun h => absurd h.1 (not_le.2 hx)), Nat.add_zero]
    exact if_congr (and_congr_right fun _ => iff_of_true (hx.trans_le h₂) hx) rfl rfl
  · rw [if_neg (c := a ≤ x ∧ x < m) (fun h => absurd h.2 (not_lt.2 hx)), Nat.zero_add]
    exact if_congr (and_congr_left fun _ => iff_of_true (h₁.trans hx) hx) rfl rfl

variable (lo hi : β → α)

/-- The number of members of `l` whose interval contains `x`. -/
def cover (l : List β) (x : α) : ℕ := (l.map fun b => hits (lo b) (hi b) x).sum

theorem cover_append (l l' : List β) (x : α) :
    cover lo hi (l ++ l') x = cover lo hi l x + cover lo hi l' x := by simp [cover]

theorem cover_cons (b : β) (l : List β) (x : α) :
    cover lo hi (b :: l) x = hits (lo b) (hi b) x + cover lo hi l x := by simp [cover]

@[simp] theorem cover_nil (x : α) : cover lo hi ([] : List β) x = 0 := rfl

theorem hits_le_cover {b : β} (h : b ∈ l) (x : α) : hits (lo b) (hi b) x ≤ cover lo hi l x :=
  single_le_sum (by simp) _ (mem_map.2 ⟨b, h, rfl⟩)

theorem cover_pos_iff : 0 < cover lo hi l x ↔ ∃ b ∈ l, lo b ≤ x ∧ x < hi b := by
  simp [cover, List.sum_pos_iff_exists_pos_nat, hits_pos]

theorem exists_mem_of_cover (h : 0 < cover lo hi l x) : ∃ b ∈ l, lo b ≤ x ∧ x < hi b := (cover_pos_iff lo hi).1 h

/-- **Multiplicities at most one mean pairwise disjoint intervals.** -/
theorem pairwise_disjoint_of_cover (h : ∀ x, cover lo hi l x ≤ 1) :
    l.Pairwise fun b b' => Disjoint (Set.Ico (lo b) (hi b)) (Set.Ico (lo b') (hi b')) := by
  induction l with
  | nil => exact .nil
  | cons b l ih =>
    refine .cons (fun b' hb' => Set.disjoint_left.2 fun x hx hx' => ?_) (ih fun x => ?_)
    · have h1 := h x
      have h2 := hits_pos.2 hx
      have h3 := (hits_pos.2 hx').trans_le (hits_le_cover lo hi hb' x)
      rw [cover_cons] at h1; omega
    · have := h x; rw [cover_cons] at this; omega

/-- **Pairwise disjoint intervals have multiplicities at most one.** -/
theorem cover_le_one_of_pairwise (h : l.Pairwise fun b b' => Disjoint (Set.Ico (lo b) (hi b))
    (Set.Ico (lo b') (hi b'))) (x : α) : cover lo hi l x ≤ 1 := by
  induction h with
  | nil => simp
  | @cons b l hb _ ih =>
    rw [cover_cons]
    rcases Nat.eq_zero_or_pos (cover lo hi l x) with h0 | h0
    · have := hits_le_one (lo b) (hi b) x; omega
    · obtain ⟨b', hb', hx'⟩ := exists_mem_of_cover lo hi h0
      have : ¬ 0 < hits (lo b) (hi b) x := fun hx =>
        Set.disjoint_left.1 (hb b' hb') (hits_pos.1 hx) hx'
      omega

end

/-! ## Total length -/

section
variable {β : Type*} (lo hi : β → ℕ)

/-- **The union of two intervals** that meet. -/
theorem hits_union {a b c d : ℕ} (h : d = a ∨ b = c) (hab : a ≤ b) (hcd : c ≤ d) (x : ℕ) :
    hits (min a c) (max b d) x = hits a b x + hits c d x := by
  unfold hits
  split_ifs <;> omega

theorem sum_hits {a b B : ℕ} (hb : b ≤ B) : ∑ x ∈ Finset.range B, hits a b x = b - a := by
  have hset : (Finset.range B).filter (fun x => a ≤ x ∧ x < b) = Finset.Ico a b := by
    ext x
    simp only [Finset.mem_filter, Finset.mem_range, Finset.mem_Ico]
    omega
  simp only [hits]
  rw [Finset.sum_boole, hset, Nat.cast_id, Nat.card_Ico]

theorem sum_cover {B : ℕ} : ∀ {l : List β}, (∀ b ∈ l, hi b ≤ B) →
    ∑ x ∈ Finset.range B, cover lo hi l x = (l.map fun b => hi b - lo b).sum
  | [], _ => by simp
  | b :: l, h => by
    simp only [cover_cons, Finset.sum_add_distrib, map_cons, sum_cons]
    rw [sum_hits (h b (by simp)), sum_cover fun c hc => h c (by simp [hc])]

/-- **Disjoint intervals below `B` have a total length of at most `B`.** -/
theorem sum_length_le {B : ℕ} {l : List β} (hB : ∀ b ∈ l, hi b ≤ B) (h : ∀ x, cover lo hi l x ≤ 1) :
    (l.map fun b => hi b - lo b).sum ≤ B := by
  rw [← sum_cover lo hi hB]
  calc ∑ x ∈ Finset.range B, cover lo hi l x ≤ ∑ _x ∈ Finset.range B, 1 :=
        Finset.sum_le_sum fun x _ => h x
    _ = B := by simp

theorem sum_length_congr {l l' : List β} (h : ∀ x, cover lo hi l x = cover lo hi l' x) :
    (l.map fun b => hi b - lo b).sum = (l'.map fun b => hi b - lo b).sum := by
  have hB : ∀ b ∈ l ++ l', hi b ≤ ((l ++ l').map hi).sum := fun b hb =>
    le_sum_of_mem (mem_map_of_mem hb)
  rw [forall_mem_append] at hB
  rw [← sum_cover lo hi hB.1, ← sum_cover lo hi hB.2]
  exact Finset.sum_congr rfl fun x _ => h x

end

end Archis.Lib
