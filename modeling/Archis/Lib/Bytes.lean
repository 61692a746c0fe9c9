/-
  Byte strings and byte memories.

  * `toLe n v` are the `n` low bytes of `v`, least significant first, and `ofLe` reads them back (`ofLe_toLe`);
  * `slice l i n` is `l[i..i + n]`, `splice l i d` overwrites `l[i..i + d.len()]` with `d`, and `spliceAll` does so for
    several parts;
  * a memory is a function from addresses to bytes, `load` reads a range of it and `store` overwrites one.
-/
import Mathlib

namespace Archis.Lib

open List

/-! ## Little-endian numbers -/

/-- The `n` low bytes of `v`, least significant first. -/
def toLe : ℕ → ℕ → List UInt8
  | 0, _ => []
  | n + 1, v => UInt8.ofNat v :: toLe n (v / 256)

/-- The number whose bytes, least significant first, are `l`. -/
def ofLe : List UInt8 → ℕ
  | [] => 0
  | b :: l => b.toNat + 256 * ofLe l

@[simp] theorem length_toLe : ∀ n v : ℕ, (toLe n v).length = n
  | 0, _ => rfl
  | n + 1, v => by simp [toLe, length_toLe n]

theorem ofLe_toLe : ∀ n v : ℕ, ofLe (toLe n v) = v % 256 ^ n
  | 0, v => by simp [toLe, ofLe, Nat.mod_one]
  | n + 1, v => by
    have h : (UInt8.ofNat v).toNat = v % 256 := by simp
    rw [toLe, ofLe, ofLe_toLe n, h, pow_succ, mul_comm (256 ^ n) 256, Nat.mod_mul]

theorem ofLe_toLe_of_lt {n v : ℕ} (h : v < 256 ^ n) : ofLe (toLe n v) = v := by
  rw [ofLe_toLe, Nat.mod_eq_of_lt h]

theorem ofLe_lt : ∀ l : List UInt8, ofLe l < 256 ^ l.length
  | [] => by simp [ofLe]
  | b :: l => by
    have h1 := ofLe_lt l
    have h2 := b.toNat_lt
    rw [ofLe, length_cons, pow_succ]; omega

/-! ## Parts of a byte string -/

section
variable {α : Type*} {l d : List α} {i j n : ℕ}

/-- `l[i..i + n]`. -/
def slice (l : List α) (i n : ℕ) : List α := (l.drop i).take n

/-- `l[i..i + d.len()].copy_from_slice(d)`. -/
def splice (l : List α) (i : ℕ) (d : List α) : List α := l.take i ++ d ++ l.drop (i + d.length)

theorem mem_take_iff_getElem? {a : α} : a ∈ l.take i ↔ ∃ j < i, l[j]? = some a := by
  rw [mem_iff_getElem?]
  constructor
  · rintro ⟨j, hj⟩
    by_cases hji : j < i
    · exact ⟨j, hji, by rwa [getElem?_take_of_lt hji] at hj⟩
    · rw [getElem?_take_eq_none (by omega)] at hj
      cases hj
  · exact fun ⟨j, hji, hj⟩ => ⟨j, by rw [getElem?_take_of_lt hji, hj]⟩

theorem length_slice (h : i + n ≤ l.length) : (slice l i n).length = n := by
  simp only [slice, length_take, length_drop]; omega

theorem getElem?_slice (h : j < n) : (slice l i n)[j]? = l[i + j]? := by
  rw [slice, getElem?_take_of_lt h, getElem?_drop]

section
variable (h : i + d.length ≤ l.length)
include h

theorem length_splice : (splice l i d).length = l.length := by
  simp only [splice, length_append, length_take, length_drop]; omega

theorem getElem?_splice (k : ℕ) : (splice l i d)[k]? = if i ≤ k ∧ k < i + d.length then d[k - i]? else l[k]? := by
  have hi : (l.take i).length = i := by rw [length_take]; omega
  rw [splice, append_assoc, getElem?_append, hi]
  split_ifs with h1 h2 h3
  · omega
  · exact getElem?_take_of_lt h1
  · rw [getElem?_append_left (by omega)]
  · rw [getElem?_append_right (by omega), getElem?_drop]
    congr 1; omega

theorem slice_splice_self : slice (splice l i d) i d.length = d := by
  have hi : (l.take i).length = i := by rw [length_take]; omega
  rw [slice, splice, append_assoc, drop_append_of_le_length (by omega),
    drop_of_length_le (by omega), nil_append, take_left']
  rfl

/-- A part that the copied bytes do not touch is left as it was. -/
theorem slice_splice_of_disjoint (hd : j + n ≤ i ∨ i + d.length ≤ j) : slice (splice l i d) j n = slice l j n := by
  refine ext_getElem? fun k => ?_
  by_cases hk : k < n
  · rw [getElem?_slice hk, getElem?_slice hk, getElem?_splice h, if_neg (by omega)]
  · rw [slice, slice, getElem?_take_eq_none (by omega), getElem?_take_eq_none (by omega)]

end

theorem splice_splice {e : List α} (h : i + d.length ≤ l.length) (he : e.length = d.length) :
    splice (splice l i d) i e = splice l i e := by
  refine ext_getElem? fun k => ?_
  have he' : i + e.length ≤ l.length := by omega
  rw [getElem?_splice (by rw [length_splice h]; exact he'), getElem?_splice h, getElem?_splice he', he]
  split_ifs <;> rfl

theorem splice_eq_self (h : i + d.length ≤ l.length) (hd : slice l i d.length = d) : splice l i d = l := by
  refine ext_getElem? fun k => ?_
  rw [getElem?_splice h]
  split_ifs with hk
  · have h1 : (slice l i d.length)[k - i]? = l[i + (k - i)]? := getElem?_slice (by omega)
    rw [hd] at h1
    rw [h1]; congr 1; omega
  · rfl

theorem slice_splice_inner (h : j + d.length ≤ n) (hn : i + n ≤ l.length) :
    slice (splice l (i + j) d) i n = splice (slice l i n) j d := by
  have hl : (slice l i n).length = n := length_slice hn
  refine ext_getElem? fun k => ?_
  by_cases hk : k < n
  · rw [getElem?_slice hk, getElem?_splice (by omega), getElem?_splice (by omega)]
    split_ifs
    · congr 1; omega
    · omega
    · omega
    · rw [getElem?_slice hk]
  · rw [getElem?_eq_none (by rw [length_slice (by rw [length_splice (by omega)]; omega)]; omega),
      getElem?_eq_none (by rw [length_splice (by omega), hl]; omega)]

theorem slice_zero_splice (h : i + d.length ≤ n) (hn : n ≤ l.length) :
    slice (splice l i d) 0 n = splice (slice l 0 n) i d := by
  have h1 := slice_splice_inner (l := l) (i := 0) h (by omega)
  rwa [zero_add] at h1

theorem getElem?_slice_eq_none (h : n ≤ j) : (slice l i n)[j]? = none :=
  getElem?_take_eq_none h

variable {k : ℕ} {x : List α} {xs : List (List α)}

theorem slice_slice {m : ℕ} (h : k + m ≤ n) : slice (slice l i n) k m = slice l (i + k) m := by
  refine ext_getElem? fun j => ?_
  by_cases hj : j < m
  · rw [getElem?_slice hj, getElem?_slice hj, getElem?_slice (by omega), add_assoc]
  · rw [getElem?_slice_eq_none (by omega), getElem?_slice_eq_none (by omega)]

theorem slice_append_slice (l : List α) (i n m : ℕ) : slice l i n ++ slice l (i + n) m = slice l i (n + m) := by
  rw [slice, slice, slice, take_add, drop_drop]

theorem flatMap_slice (l : List α) (n : ℕ) : ∀ m : ℕ,
    ((List.range m).flatMap fun k => slice l (k * n) n) = l.take (m * n)
  | 0 => by simp
  | m + 1 => by
    have h := slice_append_slice l 0 (m * n) n
    rw [slice, drop_zero, zero_add] at h
    rw [range_succ, flatMap_append, flatMap_slice l n m, flatMap_singleton, h, Nat.succ_mul]
    rfl

theorem splice_splice_next {e : List α} (h : i + d.length ≤ l.length) :
    splice (splice l i d) (i + d.length) e = splice l i (d ++ e) := by
  have hp : (l.take i ++ d).length = i + d.length := by
    rw [length_append, length_take]; omega
  rw [splice, splice, ← hp, take_left' rfl, hp, ← drop_drop, ← hp, drop_left' rfl,
    drop_drop, hp, splice, length_append]
  simp only [append_assoc, add_assoc]

theorem splice_append (h : i + d.length ≤ l.length) (r : List α) : splice (l ++ r) i d = splice l i d ++ r := by
  rw [splice, splice, take_append_of_le_length (by omega), drop_append_of_le_length h]
  simp only [append_assoc]

theorem append_splice (p l : List α) (i : ℕ) (d : List α) : splice (p ++ l) (p.length + i) d = p ++ splice l i d := by
  rw [splice, splice, take_length_add_append, add_assoc, drop_length_add_append]
  simp only [append_assoc]

/-- Several parts copied into `l`, one after the other. -/
def spliceAll (l : List α) (ps : List (ℕ × List α)) : List α :=
  ps.foldl (fun l p => splice l p.1 p.2) l

theorem length_spliceAll : ∀ (ps : List (ℕ × List α)) (l : List α),
    (∀ p ∈ ps, p.1 + p.2.length ≤ l.length) → (spliceAll l ps).length = l.length
  | [], _, _ => rfl
  | p :: ps, l, h => by
    have hl : (splice l p.1 p.2).length = l.length := length_splice (h p (by simp))
    rw [spliceAll, foldl_cons, ← spliceAll, length_spliceAll ps, hl]
    intro q hq
    rw [hl]; exact h q (by simp [hq])

theorem slice_spliceAll_of_disjoint : ∀ (ps : List (ℕ × List α)) (l : List α),
    (∀ p ∈ ps, p.1 + p.2.length ≤ l.length ∧ (j + n ≤ p.1 ∨ p.1 + p.2.length ≤ j)) →
      slice (spliceAll l ps) j n = slice l j n
  | [], _, _ => rfl
  | p :: ps, l, h => by
    have hp := h p (by simp)
    rw [spliceAll, foldl_cons, ← spliceAll, slice_spliceAll_of_disjoint ps, slice_splice_of_disjoint hp.1 hp.2]
    intro q hq
    rw [length_splice hp.1]; exact h q (by simp [hq])

theorem slice_spliceAll_of_mem : ∀ (ps : List (ℕ × List α)) (l : List α),
    (∀ p ∈ ps, p.1 + p.2.length ≤ l.length) → ps.Pairwise (fun p q => p.1 + p.2.length ≤ q.1) →
      ∀ p ∈ ps, slice (spliceAll l ps) p.1 p.2.length = p.2
  | [], _, _, _ => by simp
  | q :: ps, l, hl, ho => by
    have hq : q.1 + q.2.length ≤ l.length := hl q (by simp)
    have hs : (splice l q.1 q.2).length = l.length := length_splice hq
    obtain ⟨ho, hrest⟩ := pairwise_cons.1 ho
    have hl' : ∀ p ∈ ps, p.1 + p.2.length ≤ (splice l q.1 q.2).length := by
      intro p hp
      rw [hs]; exact hl p (by simp [hp])
    intro p hp
    rw [spliceAll, foldl_cons, ← spliceAll]
    rcases mem_cons.1 hp with rfl | hp
    · rw [slice_spliceAll_of_disjoint ps, slice_splice_self hq]
      exact fun r hr => ⟨hl' r hr, .inl (ho r hr)⟩
    · exact slice_spliceAll_of_mem ps _ hl' hrest p hp

/-- Records of equal length, one after the other: each is found at its place. -/
theorem slice_flatMap {β : Type*} {f : β → List α} (hf : ∀ x, (f x).length = n) :
    ∀ {xs : List β} {k : ℕ} {x : β}, xs[k]? = some x → slice (xs.flatMap f) (k * n) n = f x
  | [], k, x, h => by simp at h
  | y :: xs, 0, x, h => by
    simp only [getElem?_cons_zero, Option.some.injEq] at h
    subst h
    rw [slice, zero_mul, drop_zero, flatMap_cons, take_left' (hf y)]
  | y :: xs, k + 1, x, h => by
    have h1 := slice_flatMap hf (k := k) (x := x) (by simpa using h)
    rw [slice] at h1 ⊢
    rw [flatMap_cons, add_mul, one_mul, add_comm, ← drop_drop, drop_left' (hf y), h1]

theorem length_flatMap_const {β : Type*} {f : β → List α} (hf : ∀ x, (f x).length = n)
    (xs : List β) : (xs.flatMap f).length = xs.length * n := by
  induction xs with
  | nil => simp
  | cons x xs ih => rw [flatMap_cons, length_append, hf, ih, length_cons]; ring

/-! ## Records of a fixed size -/

/-- The whole records of `n` elements in `l`. -/
def chunks (n : ℕ) (l : List α) : List (List α) :=
  (List.range (l.length / n)).map fun k => slice l (k * n) n

theorem length_chunks : (chunks n l).length = l.length / n := by simp [chunks]

theorem length_of_mem_chunks (hx : x ∈ chunks n l) : x.length = n := by
  obtain ⟨k, hk, rfl⟩ := mem_map.1 hx
  have h1 : (k + 1) * n ≤ l.length / n * n := Nat.mul_le_mul_right _ (mem_range.1 hk)
  have h2 := Nat.div_mul_le_self l.length n
  rw [add_mul, one_mul] at h1
  exact length_slice (by omega)

theorem getElem?_chunks : (chunks n l)[k]? = some x ↔ k < l.length / n ∧ slice l (k * n) n = x := by
  rw [chunks, getElem?_map]
  by_cases hk : k < l.length / n
  · rw [getElem?_range hk, Option.map_some, Option.some.injEq, and_iff_right hk]
  · rw [getElem?_eq_none (by rw [length_range]; omega)]
    simp [hk]

theorem chunks_splice (hx : (chunks n l)[k]? = some x) (h : j + d.length ≤ n) :
    chunks n (splice l (k * n + j) d) = (chunks n l).set k (splice x j d) := by
  obtain ⟨hk, rfl⟩ := getElem?_chunks.1 hx
  have hfit : ∀ {m : ℕ}, m < l.length / n → m * n + n ≤ l.length := by
    intro m hm
    have h1 : (m + 1) * n ≤ l.length / n * n := Nat.mul_le_mul_right _ hm
    have h2 := Nat.div_mul_le_self l.length n
    rw [add_mul, one_mul] at h1; omega
  have hlen : (splice l (k * n + j) d).length = l.length :=
    length_splice (by have := hfit hk; omega)
  refine ext_getElem (by simp [length_chunks, hlen]) fun m hm hm' => ?_
  rw [length_chunks, hlen] at hm
  rw [getElem_set]
  simp only [chunks, getElem_map, getElem_range]
  split_ifs with hkm
  · subst hkm
    exact slice_splice_inner h (hfit hm)
  refine slice_splice_of_disjoint (by have := hfit hk; omega) ?_
  rcases Nat.lt_or_gt_of_ne hkm with hlt | hlt
  · right
    have h1 : (k + 1) * n ≤ m * n := Nat.mul_le_mul_right _ hlt
    rw [add_mul, one_mul] at h1; omega
  · left
    have h1 : (m + 1) * n ≤ k * n := Nat.mul_le_mul_right _ hlt
    rw [add_mul, one_mul] at h1; omega

theorem chunks_append (hn : 0 < n) {m : ℕ} (hl : l.length = m * n) (r : List α) :
    chunks n (l ++ r) = chunks n l ++ chunks n r := by
  have h1 : (l ++ r).length / n = m + r.length / n := by
    rw [length_append, hl, add_comm, Nat.add_mul_div_right _ _ hn, add_comm]
  simp only [chunks, h1, hl, Nat.mul_div_cancel _ hn]
  rw [range_add, map_append, map_map]
  congr 1
  · refine map_congr_left fun k hk => ?_
    have h2 : (k + 1) * n ≤ m * n := Nat.mul_le_mul_right _ (mem_range.1 hk)
    rw [add_mul, one_mul] at h2
    rw [slice, slice, drop_append_of_le_length (by omega), take_append_of_le_length]
    rw [length_drop]; omega
  · refine map_congr_left fun k _ => ?_
    simp only [Function.comp, slice, add_mul, ← hl]
    rw [drop_length_add_append]

theorem flatten_chunks (hn : 0 < n) : ∀ {m : ℕ} {l : List α}, l.length = m * n → (chunks n l).flatten = l
  | 0, l, h => by
    obtain rfl : l = [] := length_eq_zero_iff.1 (by omega)
    simp [chunks]
  | m + 1, l, h => by
    have hlen : (l.drop n).length = m * n := by rw [length_drop, h, add_mul, one_mul]; omega
    have ih := flatten_chunks hn hlen
    simp only [chunks, hlen, h, Nat.mul_div_cancel _ hn] at ih ⊢
    rw [range_succ_eq_map, map_cons, flatten_cons, map_map]
    have h1 : (fun k => slice l (k * n) n) ∘ Nat.succ = fun k => slice (l.drop n) (k * n) n := by
      funext k
      simp only [Function.comp, slice, drop_drop, Nat.succ_mul, add_comm n]
    rw [h1, ih, zero_mul, slice, drop_zero, take_append_drop]

theorem length_flatten_const (h : ∀ x ∈ xs, x.length = n) : xs.flatten.length = xs.length * n := by
  induction xs with
  | nil => simp
  | cons x xs ih =>
    rw [flatten_cons, length_append, ih fun y hy => h y (by simp [hy]), h x (by simp), length_cons]
    ring

theorem chunks_flatten (hn : 0 < n) (h : ∀ x ∈ xs, x.length = n) : chunks n xs.flatten = xs := by
  induction xs with
  | nil => simp [chunks]
  | cons x xs ih =>
    have hx := h x (by simp)
    have hxs := length_flatten_const fun y hy => h y (mem_cons_of_mem x hy)
    have ih := ih fun y hy => h y (mem_cons_of_mem x hy)
    simp only [chunks, hxs, Nat.mul_div_cancel _ hn] at ih
    have hdiv : (x :: xs).flatten.length / n = xs.length + 1 := by
      rw [flatten_cons, length_append, hx, hxs, add_comm, ← Nat.succ_mul, Nat.mul_div_cancel _ hn]
    simp only [chunks, hdiv]
    rw [range_succ_eq_map, map_cons, map_map, zero_mul, slice, drop_zero,
      flatten_cons, take_left' hx]
    congr 1
    have h1 : (fun k => slice (x ++ xs.flatten) (k * n) n) ∘ Nat.succ = fun k => slice xs.flatten (k * n) n := by
      funext k
      simp only [Function.comp, slice, Nat.succ_mul, add_comm _ n]
      rw [← drop_drop, drop_left' hx]
    rw [h1, ih]

theorem splice_flatten {ys : List (List α)} (hx : ∀ x ∈ xs, x.length = n) (hy : ∀ y ∈ ys, y.length = n) :
    splice xs.flatten (k * n) ys.flatten = (splice xs k ys).flatten := by
  have key : ∀ {xs : List (List α)} (k : ℕ), (∀ x ∈ xs, x.length = n) →
      xs.flatten.take (k * n) = (xs.take k).flatten ∧
        xs.flatten.drop (k * n) = (xs.drop k).flatten := by
    intro xs
    induction xs with
    | nil => intro k _; simp
    | cons x xs ih =>
      intro k h
      cases k with
      | zero => simp
      | succ k =>
        obtain ⟨h1, h2⟩ := ih k fun y hy => h y (mem_cons_of_mem x hy)
        have hl := h x (by simp)
        rw [Nat.succ_mul, add_comm (k * n), flatten_cons]
        constructor
        · rw [← hl, take_length_add_append, hl, h1]; rfl
        · rw [← hl, drop_length_add_append, hl, h2]; rfl
  rw [splice, splice, length_flatten_const hy, ← add_mul, (key k hx).1, (key _ hx).2]
  simp only [flatten_append]

end

/-! ## Byte memories -/

section
variable {m : ℕ → UInt8} {a i k n : ℕ} {d : List UInt8}

/-- The bytes at addresses `a .. a + n`. -/
def load (m : ℕ → UInt8) (a n : ℕ) : List UInt8 := (List.range n).map fun i => m (a + i)

/-- The memory with `d` written at address `a`. -/
def store (m : ℕ → UInt8) (a : ℕ) (d : List UInt8) : ℕ → UInt8 := fun x =>
  if a ≤ x ∧ x < a + d.length then d.getD (x - a) 0 else m x

@[simp] theorem length_load : (load m a n).length = n := by simp [load]

theorem getElem?_load (h : k < n) : (load m a n)[k]? = some (m (a + k)) := by
  simp [load, getElem?_range h]

theorem load_congr {m' : ℕ → UInt8} (h : ∀ k, k < n → m (a + k) = m' (a + k)) : load m a n = load m' a n :=
  map_congr_left fun k hk => h k (mem_range.1 hk)

theorem load_eq_of_getD {m : ℕ → UInt8} {a : ℕ} {l : List UInt8}
    (h : ∀ k < l.length, m (a + k) = l.getD k 0) : load m a l.length = l := by
  refine ext_getElem? fun k => ?_
  by_cases hk : k < l.length
  · rw [getElem?_load hk, h k hk, getD_eq_getElem?_getD, getElem?_eq_getElem hk]
    rfl
  · rw [getElem?_eq_none (by rw [length_load]; omega), getElem?_eq_none (by omega)]

theorem slice_load (h : i + k ≤ n) : slice (load m a n) i k = load m (a + i) k := by
  refine ext_getElem? fun j => ?_
  by_cases hj : j < k
  · rw [getElem?_slice hj, getElem?_load (by omega), getElem?_load hj, add_assoc]
  · rw [getElem?_eq_none (by rw [length_slice (by rw [length_load]; exact h)]; omega),
      getElem?_eq_none (by rw [length_load]; omega)]

theorem take_load : (load m a n).take k = load m a (min k n) := by
  rw [load, load, ← map_take, take_range]

theorem load_append_load : load m a n ++ load m (a + n) k = load m a (n + k) := by
  rw [load, load, load, range_add, map_append, map_map]
  simp only [Function.comp_def, add_assoc]

theorem load_store_self (m : ℕ → UInt8) (a : ℕ) (d : List UInt8) : load (store m a d) a d.length = d := by
  refine ext_getElem? fun k => ?_
  by_cases hk : k < d.length
  · rw [getElem?_load hk, store, if_pos (by omega), Nat.add_sub_cancel_left,
      getD_eq_getElem _ _ hk, getElem?_eq_getElem hk]
  · rw [getElem?_eq_none (by rw [length_load]; omega), getElem?_eq_none (by omega)]

theorem store_of_disjoint {x : ℕ} (h : x < a ∨ a + d.length ≤ x) : store m a d x = m x :=
  if_neg (by omega)

theorem load_store_of_disjoint (h : i + n ≤ a ∨ a + d.length ≤ i) : load (store m a d) i n = load m i n :=
  load_congr fun k hk => store_of_disjoint (by omega)

/-- **Read-modify-write** of a part of a range changes that part only. -/
theorem store_splice_load (h : i + d.length ≤ n) : store m a (splice (load m a n) i d) = store m (a + i) d := by
  have hl : (splice (load m a n) i d).length = n := by
    rw [length_splice (by rw [length_load]; exact h), length_load]
  funext x
  simp only [store, hl]
  by_cases hx : a ≤ x ∧ x < a + n
  · have hs := getElem?_splice (l := load m a n) (d := d) (i := i) (by rw [length_load]; exact h) (x - a)
    rw [if_pos hx, getD_eq_getElem?_getD, hs]
    by_cases hp : a + i ≤ x ∧ x < a + i + d.length
    · rw [if_pos (by omega), if_pos hp, getD_eq_getElem?_getD]
      congr 2; omega
    · rw [if_neg (by omega), if_neg hp, getElem?_load (by omega), Option.getD_some]
      congr 1; omega
  · rw [if_neg hx, if_neg (by omega)]

end

end Archis.Lib
