/-
  Memories that remember where they were written.

  * `put` writes a byte, `putAll` bytes one after another; `putAll_eq` says what is in the memory then and
    which places were written;
  * `Writes m m' a cs`: between `m` and `m'` exactly the places `a, …, a + |cs| - 1` are written, and they
    hold `cs` in the end.
-/
import Archis.Lib.Bytes

namespace Archis.Lib

open List

/-- The bytes, and the addresses that have been written, in order. -/
structure Trace where
  byte : ℕ → UInt8
  written : List ℕ

namespace Trace

def put (m : Trace) (a : ℕ) (c : UInt8) : Trace := ⟨Function.update m.byte a c, m.written ++ [a]⟩

def putAll (m : Trace) (a : ℕ) : List UInt8 → Trace
  | [] => m
  | c :: cs => (m.put a c).putAll (a + 1) cs

/-- Exactly these places are written, with this outcome. -/
structure Writes (m m' : Trace) (a : ℕ) (cs : List UInt8) : Prop where
  byte : m'.byte = store m.byte a cs
  written : ∃ ws, m'.written = m.written ++ ws ∧ ∀ x, x ∈ ws ↔ a ≤ x ∧ x < a + cs.length

variable {m m' : Trace} {a : ℕ} {c : UInt8} {cs ds : List UInt8}

@[simp] theorem put_byte_self : (m.put a c).byte a = c := Function.update_self ..

theorem put_byte_of_ne {x : ℕ} (h : x ≠ a) : (m.put a c).byte x = m.byte x := Function.update_of_ne h ..

theorem load_succ (b : ℕ → UInt8) (a n : ℕ) : load b a (n + 1) = b a :: load b (a + 1) n := by
  rw [Nat.add_comm n, ← load_append_load]
  rfl

theorem store_cons (b : ℕ → UInt8) : store (Function.update b a c) (a + 1) cs = store b a (c :: cs) := by
  funext x
  unfold store
  rcases Nat.lt_trichotomy x a with h | rfl | h
  · rw [if_neg (by omega), if_neg (by omega), Function.update_of_ne (by omega)]
  · rw [if_neg (by omega), if_pos (by simp), Function.update_self, Nat.sub_self]
    rfl
  obtain ⟨k, rfl⟩ : ∃ k, x = a + 1 + k := ⟨x - (a + 1), by omega⟩
  have h1 : a + 1 + k - (a + 1) = k := by omega
  have h2 : a + 1 + k - a = k + 1 := by omega
  by_cases hk : k < cs.length
  · rw [if_pos (by omega), if_pos (by simp only [length_cons]; omega), h1, h2, getD_cons_succ]
  · rw [if_neg (by omega), if_neg (by simp only [length_cons]; omega), Function.update_of_ne (by omega)]

theorem putAll_eq : ∀ (m : Trace) (a : ℕ) (cs : List UInt8),
    m.putAll a cs = ⟨store m.byte a cs, m.written ++ range' a cs.length⟩
  | m, a, [] => by
    have h : store m.byte a [] = m.byte := by
      funext x
      exact store_of_disjoint (by simp only [length_nil]; omega)
    rw [putAll, h, length_nil, range'_zero, append_nil]
  | m, a, c :: cs => by
    rw [putAll, putAll_eq, put, store_cons, length_cons, range'_succ, append_assoc]
    rfl

theorem putAll_append : ∀ (m : Trace) (a : ℕ) (cs ds : List UInt8),
    m.putAll a (cs ++ ds) = (m.putAll a cs).putAll (a + cs.length) ds
  | m, a, [], ds => rfl
  | m, a, c :: cs, ds => by
    rw [cons_append, putAll, putAll, putAll_append, length_cons, Nat.add_assoc, Nat.add_comm 1]

theorem writes_putAll (m : Trace) (a : ℕ) (cs : List UInt8) : Writes m (m.putAll a cs) a cs := by
  rw [putAll_eq]
  refine ⟨rfl, _, rfl, fun x => ?_⟩
  rw [mem_range'_1]

theorem Writes.length_eq (h : Writes m m' a cs) (h' : Writes m m' a ds) : cs.length = ds.length := by
  obtain ⟨ws, h1, h2⟩ := h.written
  obtain ⟨ws', h1', h2'⟩ := h'.written
  obtain rfl : ws = ws' := append_cancel_left (h1.symm.trans h1')
  have h3 := h2 (a + cs.length)
  have h4 := h2 (a + ds.length)
  have h3' := h2' (a + cs.length)
  have h4' := h2' (a + ds.length)
  by_contra hne
  rcases Nat.lt_or_gt_of_ne hne with h | h
  · have := h3.1 (h3'.2 ⟨by omega, by omega⟩)
    omega
  · have := h4'.1 (h4.2 ⟨by omega, by omega⟩)
    omega

end Trace

end Archis.Lib
