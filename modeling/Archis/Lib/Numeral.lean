/-
  Numbers and their digits.

  `digitsLoop` takes the digits of a number off one after another, as a loop of divisions does, and `horner` appends
  them, as a loop of multiplications does; `chr`, `toInt32` and `toInt64` are the bytes and numbers of C.
-/
import Mathlib

namespace Archis.Lib

def chr (c : Char) : UInt8 := c.toNat.toUInt8

/-- The low 32 bits, with a sign. -/
def toInt32 (x : ℤ) : ℤ := Int.bmod x (2 ^ 32)

/-- The low 64 bits, with a sign. -/
def toInt64 (x : ℤ) : ℤ := Int.bmod x (2 ^ 64)

/-! ## Taking digits off -/

def digitsLoop (b : ℕ) : ℕ → ℕ → List ℕ
  | 0, _ => []
  | fuel + 1, v => if v = 0 then [] else v % b :: digitsLoop b fuel (v / b)

theorem digitsLoop_eq {b : ℕ} (hb : 1 < b) {fuel v : ℕ} (hv : v < b ^ fuel) :
    digitsLoop b fuel v = Nat.digits b v := by
  induction fuel generalizing v with
  | zero =>
    obtain rfl : v = 0 := by simpa using hv
    rw [digitsLoop, Nat.digits_zero]
  | succ fuel ih =>
    unfold digitsLoop
    split_ifs with h0
    · rw [h0, Nat.digits_zero]
    · have hdiv : v / b < b ^ fuel := Nat.div_lt_of_lt_mul (by rwa [← pow_succ'])
      rw [ih hdiv, ← Nat.digits_def' hb (by omega)]

/-! ## Appending digits -/

/-- The number whose digits are those of `v`, and then `ds`. -/
def horner (b v : ℕ) (ds : List ℕ) : ℕ := ds.foldl (fun v d => v * b + d) v

section
variable {b v d : ℕ} {ds es : List ℕ}

@[simp] theorem horner_nil : horner b v [] = v := rfl

theorem horner_cons : horner b v (d :: ds) = horner b (v * b + d) ds := rfl

theorem horner_append : horner b v (ds ++ es) = horner b (horner b v ds) es := List.foldl_append

theorem horner_eq_ofDigits (ds : List ℕ) : horner b 0 ds.reverse = Nat.ofDigits b ds := by
  induction ds with
  | nil => rfl
  | cons d ds ih =>
    rw [List.reverse_cons, horner_append, ih, horner_cons, horner_nil, Nat.ofDigits_cons, mul_comm, add_comm]

theorem horner_digits (b v : ℕ) : horner b 0 (Nat.digits b v).reverse = v := by
  rw [horner_eq_ofDigits, Nat.ofDigits_digits]

end

end Archis.Lib
