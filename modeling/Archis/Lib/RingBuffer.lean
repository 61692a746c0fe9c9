/-
  A ring buffer of fixed capacity.

  The items are in the cells `head, head + 1, …` of an array, modulo its length.  `toList` reads them
  off as a queue, and each operation is a list operation on it:
    * `push` appends an item while there is room;
    * `peekInto` reads the first items, `advance` drops them;
    * `peekBack` reads the last item, `popBack` drops it.
-/
import Mathlib

namespace Archis.Lib

open List hiding Vector

structure RingBuffer (α : Type*) (N : ℕ) where
  buf : Vector α N
  head : ℕ
  len : ℕ
  head_lt : head < N
  len_le : len ≤ N

namespace RingBuffer
variable {α : Type*} {N : ℕ} (r : RingBuffer α N) (n : ℕ)

def new [NeZero N] (initial : α) : RingBuffer α N :=
  ⟨Vector.replicate N initial, 0, 0, NeZero.pos N, Nat.zero_le N⟩

def cell (i : ℕ) : Fin N :=
  ⟨(r.head + i) % N, Nat.mod_lt _ (Nat.zero_lt_of_lt r.head_lt)⟩

def item (i : ℕ) : α := r.buf.get (r.cell i)

/-- A full buffer drops the item. -/
def push (item : α) : RingBuffer α N :=
  if h : r.len < N then
    { r with
      buf := r.buf.set (r.cell r.len) item (r.cell r.len).isLt
      len := r.len + 1
      len_le := h }
  else r

/-- The first `n` items, or all there are. -/
def peekInto : List α := (List.range (min r.len n)).map r.item

def advance : RingBuffer α N :=
  { r with
    head := (r.head + min n r.len) % N
    len := r.len - min n r.len
    head_lt := Nat.mod_lt _ (Nat.zero_lt_of_lt r.head_lt)
    len_le := (Nat.sub_le _ _).trans r.len_le }

def peekBack : Option α := if r.len = 0 then none else some (r.item (r.len - 1))

def popBack : RingBuffer α N :=
  { r with len := r.len - 1, len_le := (Nat.sub_le _ _).trans r.len_le }

def toList : List α := (List.range r.len).map r.item

variable {r : RingBuffer α N}

@[simp] theorem length_toList : r.toList.length = r.len := by simp [toList]

theorem cell_injective {i j : ℕ} (hi : i < N) (hj : j < N) (h : r.cell i = r.cell j) : i = j := by
  have hmod : (r.head + i) % N = (r.head + j) % N := Fin.val_eq_of_eq h
  have := (Nat.ModEq.add_left_cancel' r.head hmod : i ≡ j [MOD N])
  rwa [Nat.ModEq, Nat.mod_eq_of_lt hi, Nat.mod_eq_of_lt hj] at this

theorem len_push (x : α) (h : r.len < N) : (r.push x).len = r.len + 1 := by rw [push, dif_pos h]

theorem push_of_full (x : α) (h : ¬ r.len < N) : r.push x = r := by rw [push, dif_neg h]

/-- **A push appends**, while there is room. -/
theorem toList_push (x : α) (h : r.len < N) : (r.push x).toList = r.toList ++ [x] := by
  have hitem : ∀ i ≤ r.len, (r.push x).item i = if i = r.len then x else r.item i := by
    intro i hi
    rw [item, push, dif_pos h]
    change (r.buf.set (r.cell r.len) x (r.cell r.len).isLt).get (r.cell i) = _
    simp only [Vector.get_eq_getElem, Vector.getElem_set]
    by_cases heq : i = r.len
    · rw [if_pos heq, if_pos (by rw [heq])]
    · rw [if_neg heq, if_neg fun hc => heq (cell_injective (r := r) (by omega) h (Fin.ext hc.symm))]
      rfl
  rw [toList, len_push x h, range_succ, map_append, map_singleton, hitem r.len le_rfl, if_pos rfl]
  congr 1
  refine map_congr_left fun i hi => ?_
  have hlt := mem_range.1 hi
  rw [hitem i hlt.le, if_neg hlt.ne]

theorem toList_foldl_push : ∀ {r : RingBuffer α N} (l : List α), r.len + l.length ≤ N →
    (l.foldl push r).toList = r.toList ++ l
  | r, [], _ => by simp
  | r, x :: l, h => by
    rw [length_cons] at h
    have hlt : r.len < N := by omega
    rw [foldl_cons, toList_foldl_push l (by rw [len_push x hlt]; omega), toList_push x hlt]
    simp

theorem peekInto_len : r.peekInto r.len = r.toList := by rw [peekInto, Nat.min_self, toList]

/-- **Peeking reads the front of the queue.** -/
theorem peekInto_eq : r.peekInto n = r.toList.take n := by
  rw [peekInto, toList, ← map_take, take_range, Nat.min_comm]

/-- **Advancing drops the front of the queue.** -/
theorem toList_advance : (r.advance n).toList = r.toList.drop n := by
  refine ext_getElem (by simp [advance]; omega) fun i h₁ h₂ => ?_
  simp only [toList, getElem_map, getElem_range, getElem_drop] at h₁ h₂ ⊢
  have hn : min n r.len = n := by
    simp only [advance, length_map, length_range] at h₁
    omega
  simp only [item, cell, advance, hn, Nat.mod_add_mod, Nat.add_assoc]

end RingBuffer

end Archis.Lib
