/-
  Machine words and the arithmetic helpers of `lib/common`.

  A `usize` or `u64` is a natural number below `2 ^ 64`; `wadd`, `wsub` and
  `wmul` are its operators as a release build computes them, wrapping around
  `2 ^ 64` (a debug build panics where they wrap).  Each comes with the lemma
  that it is the operator of `ℕ` when nothing wraps.
-/
import Mathlib

namespace Archis

/-- `a + b` on 64-bit words. -/
def wadd (a b : ℕ) : ℕ := (a + b) % 2 ^ 64

/-- `a - b` on 64-bit words. -/
def wsub (a b : ℕ) : ℕ := (a + 2 ^ 64 - b) % 2 ^ 64

/-- `a * b` on 64-bit words. -/
def wmul (a b : ℕ) : ℕ := a * b % 2 ^ 64

theorem wadd_eq {a b : ℕ} (h : a + b < 2 ^ 64) : wadd a b = a + b := Nat.mod_eq_of_lt h

theorem wsub_eq {a b : ℕ} (h : b ≤ a) (ha : a < 2 ^ 64) : wsub a b = a - b := by
  unfold wsub; omega

theorem wmul_eq {a b : ℕ} (h : a * b < 2 ^ 64) : wmul a b = a * b := Nat.mod_eq_of_lt h

theorem wadd_lt (a b : ℕ) : wadd a b < 2 ^ 64 := Nat.mod_lt _ (by decide)

/-- `isize::MAX`, the bound that a `Layout` puts on its size. -/
def isizeMax : ℕ := 2 ^ 63 - 1

/-- `core::alloc::Layout`: a size and an alignment.  `from_size_align` rejects
    sizes above `isize::MAX`. -/
structure Layout where
  size : ℕ
  align : ℕ
  size_le : size ≤ isizeMax

/-- `PAGE_SIZE` of `lib/common`. -/
def PAGE_SIZE : ℕ := 4096

/-- `ceil_div`: `(a + b - 1) / b`. -/
def ceilDiv (a b : ℕ) : ℕ := wsub (wadd a b) 1 / b

theorem ceilDiv_page {a : ℕ} (h : a + PAGE_SIZE ≤ 2 ^ 64) :
    ceilDiv a PAGE_SIZE = (a + PAGE_SIZE - 1) / PAGE_SIZE := by
  have h1 : wsub (wadd a PAGE_SIZE) 1 = a + PAGE_SIZE - 1 := by
    simp only [wsub, wadd, PAGE_SIZE] at h ⊢; omega
  rw [ceilDiv, h1]

section
variable (layout : Layout) (n : ℕ)

theorem Layout.ceilDiv_size : ceilDiv layout.size PAGE_SIZE = (layout.size + PAGE_SIZE - 1) / PAGE_SIZE := by
  refine ceilDiv_page ?_
  have h := layout.size_le
  simp only [isizeMax, PAGE_SIZE] at h ⊢; omega

theorem Layout.pages_pos (h : 0 < layout.size) : 0 < ceilDiv layout.size PAGE_SIZE := by
  rw [layout.ceilDiv_size]
  simp only [PAGE_SIZE]
  omega

theorem ceilDiv_mul {n : ℕ} (h : n * PAGE_SIZE + PAGE_SIZE ≤ 2 ^ 64) : ceilDiv (n * PAGE_SIZE) PAGE_SIZE = n := by
  rw [ceilDiv_page h]; simp only [PAGE_SIZE]; omega

/-- `(n as *const u8).align_offset(PAGE_SIZE)`: the bytes missing to a page boundary. -/
def alignOffset : ℕ := (PAGE_SIZE - n % PAGE_SIZE) % PAGE_SIZE

/-- `size + align_offset(size)`: a size rounded up to whole pages. -/
def roundUp : ℕ := wadd n (alignOffset n)

theorem alignOffset_spec : PAGE_SIZE ∣ n + alignOffset n ∧ alignOffset n < PAGE_SIZE := by
  simp only [alignOffset, PAGE_SIZE]; omega

theorem dvd_roundUp : PAGE_SIZE ∣ roundUp n := by
  have h := (alignOffset_spec n).1
  unfold roundUp wadd
  simp only [PAGE_SIZE] at h ⊢; omega

theorem le_roundUp {n : ℕ} (h : n + PAGE_SIZE ≤ 2 ^ 64) : n ≤ roundUp n ∧ roundUp n < n + PAGE_SIZE := by
  have h2 := (alignOffset_spec n).2
  rw [roundUp, wadd_eq (by omega)]; omega

theorem Layout.roundUp_size : roundUp layout.size = ceilDiv layout.size PAGE_SIZE * PAGE_SIZE := by
  have h := layout.size_le
  have hoff := (alignOffset_spec layout.size).2
  rw [layout.ceilDiv_size, roundUp, wadd_eq]
  · simp only [alignOffset, PAGE_SIZE]
    omega
  · simp only [isizeMax, PAGE_SIZE] at h hoff
    omega

theorem Layout.ceilDiv_roundUp : ceilDiv (roundUp layout.size) PAGE_SIZE = ceilDiv layout.size PAGE_SIZE := by
  have h := layout.size_le
  rw [layout.roundUp_size, ceilDiv_mul]
  rw [layout.ceilDiv_size]
  simp only [isizeMax, PAGE_SIZE] at h ⊢
  omega

end

end Archis
