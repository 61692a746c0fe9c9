/-
  Growable arrays over a heap that can run out.

  A full buffer is replaced by one of at least twice the size, and an allocation that fails ends the program (`none`).
  `pad_isSome_iff`: elements are pushed up to the length `n` exactly if the heap has every buffer on the way (`Grows`).
-/
import Mathlib

namespace Archis.Lib

open List

/-- The states of a heap, and its operations on blocks of some size. -/
structure Heap (H : Type) where
  alloc : ℕ → H → Option H
  dealloc : ℕ → H → H

/-- An array of the elements `data` in a buffer for `cap` elements. -/
structure Vec (α : Type) where
  data : List α
  cap : ℕ
  le_cap : data.length ≤ cap

namespace Vec
variable {α H : Type}

def empty : Vec α := ⟨[], 0, le_rfl⟩

/-- The smallest buffer that is ever allocated, for elements of the size. -/
def minCap (size : ℕ) : ℕ := if size = 1 then 8 else if size ≤ 1024 then 4 else 1

/-- The next buffer, when there must be room for `n` elements. -/
def nextCap (size cap n : ℕ) : ℕ := max (minCap size) (max (2 * cap) n)

theorem le_nextCap (size cap n : ℕ) : n ≤ nextCap size cap n :=
  (le_max_right _ _).trans (le_max_right _ _)

section
variable (heap : Heap H) (size limit : ℕ)

/-- A buffer of `cap` elements for one of `old`: allocated, copied to, and the old one released. -/
def move (old cap : ℕ) (h : H) : Option H :=
  if cap * size ≤ limit then
    (heap.alloc (cap * size) h).map fun h => if old = 0 then h else heap.dealloc (old * size) h
  else none

/-- The elements of `l` are appended. -/
def extend (v : Vec α) (l : List α) (h : H) : Option (Vec α × H) :=
  if hc : (v.data ++ l).length ≤ v.cap then some (⟨v.data ++ l, v.cap, hc⟩, h)
  else (move heap size limit v.cap (nextCap size v.cap (v.data ++ l).length) h).map fun h =>
    (⟨v.data ++ l, _, le_nextCap size v.cap (v.data ++ l).length⟩, h)

def push (v : Vec α) (a : α) (h : H) : Option (Vec α × H) := v.extend heap size limit [a] h

/-- The array gets the length `n`, which is not less than what it has. -/
def resize (v : Vec α) (n : ℕ) (a : α) (h : H) : Option (Vec α × H) :=
  v.extend heap size limit (replicate (n - v.data.length) a) h

/-- `k` elements are pushed. -/
def pad (a : α) : ℕ → Vec α → H → Option (Vec α × H)
  | 0, v, h => some (v, h)
  | k + 1, v, h => (v.push heap size limit a h).bind fun (v, h) => pad a k v h

/-- There is room for `n` elements, or the heap has a buffer for them. -/
def Room (cap n : ℕ) (h : H) : Prop :=
  n ≤ cap ∨ (move heap size limit cap (nextCap size cap n) h).isSome = true

instance (cap n : ℕ) (h : H) : Decidable (Room heap size limit cap n h) :=
  inferInstanceAs (Decidable (_ ∨ _))

/-- The heap has all the buffers for up to `n` elements, when they come one by one. -/
inductive Grows (n : ℕ) : ℕ → H → Prop
  | done {cap h} : n ≤ cap → Grows n cap h
  | grow {cap h h'} : cap < n → move heap size limit cap (nextCap size cap (cap + 1)) h = some h' →
      Grows n (nextCap size cap (cap + 1)) h' → Grows n cap h

end

variable {heap : Heap H} {size limit : ℕ} {v : Vec α} {l : List α} {h : H}

theorem extend_isSome_iff : (v.extend heap size limit l h).isSome = true ↔
    Room heap size limit v.cap (v.data.length + l.length) h := by
  rw [← length_append]
  unfold extend Room
  split_ifs with hc
  · exact ⟨fun _ => .inl hc, fun _ => rfl⟩
  · rw [Option.isSome_map, or_iff_right hc]

theorem extend_data {h' : H} {w : Vec α} (he : v.extend heap size limit l h = some (w, h')) :
    w.data = v.data ++ l := by
  unfold extend at he
  split_ifs at he
  · cases he
    rfl
  · obtain ⟨_, -, hw⟩ := Option.map_eq_some_iff.1 he
    cases hw
    rfl

theorem grows_of_lt {n cap : ℕ} (hn : cap < n) : Grows heap size limit n cap h ↔
    ∃ h', move heap size limit cap (nextCap size cap (cap + 1)) h = some h' ∧
      Grows heap size limit n (nextCap size cap (cap + 1)) h' := by
  constructor
  · rintro (hle | ⟨-, hm, hg⟩)
    · omega
    · exact ⟨_, hm, hg⟩
  · rintro ⟨h', hm, hg⟩
    exact .grow hn hm hg

/-- **Padding** needs the buffers on the way, and nothing else. -/
theorem pad_isSome_iff {a : α} : ∀ {k : ℕ} {v : Vec α} {h : H},
    (pad heap size limit a k v h).isSome = true ↔ Grows heap size limit (v.data.length + k) v.cap h
  | 0, v, h => by simpa [pad] using Grows.done v.le_cap
  | k + 1, v, h => by
    have hlen : v.data.length + (k + 1) = (v.data ++ [a]).length + k := by simp; omega
    rw [pad, push, extend, hlen]
    split_ifs with hc
    · exact pad_isSome_iff (v := ⟨v.data ++ [a], v.cap, hc⟩)
    -- the buffer is full
    have hfull : (v.data ++ [a]).length = v.cap + 1 := by
      have := v.le_cap
      simp only [length_append, length_cons, length_nil, zero_add] at hc ⊢
      omega
    rw [grows_of_lt (by omega), ← hfull]
    cases hm : move heap size limit v.cap (nextCap size v.cap (v.data ++ [a]).length) h with
    | none => simp
    | some h' =>
      simp only [Option.map_some, Option.bind_some, Option.some.injEq, exists_eq_left']
      exact pad_isSome_iff (v := ⟨v.data ++ [a], _, le_nextCap size v.cap (v.data ++ [a]).length⟩)

end Vec

end Archis.Lib
