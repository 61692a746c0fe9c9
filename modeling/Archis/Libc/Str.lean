/-
  Copies of strings (`userspace/libc/string.c`).

  The functions work on a memory that remembers where it was written, and a `char *` is an address.  `copyN` is the
  copying loop of `strncpy` and `strncat`, `fill` the loop that writes NULs.  Both write what they should if the source
  has at least `n` bytes, and one byte more otherwise (`strncpy_eq`, `strncat_eq`).
-/
import Archis.Lib.Trace

namespace Archis.Libc

open Archis.Lib Archis.Lib.Trace List

/-- A string of `n` bytes at `a`, and the NUL behind them. -/
structure IsStr (b : ℕ → UInt8) (a n : ℕ) : Prop where
  ne_zero : ∀ i < n, b (a + i) ≠ 0
  nul : b (a + n) = 0

section
variable {b b' : ℕ → UInt8} {a n : ℕ}

theorem IsStr.tail (h : IsStr b a (n + 1)) (hb : ∀ i ≤ n, b' (a + 1 + i) = b (a + 1 + i)) :
    b a ≠ 0 ∧ IsStr b' (a + 1) n := by
  refine ⟨h.ne_zero 0 (by omega), fun i hi => ?_, ?_⟩
  · rw [hb i hi.le, Nat.add_assoc, Nat.add_comm 1]
    exact h.ne_zero (i + 1) (by omega)
  · rw [hb n le_rfl, Nat.add_assoc, Nat.add_comm 1]
    exact h.nul

theorem isStr_zero : IsStr b a 0 ↔ b a = 0 := ⟨fun h => h.nul, fun h => ⟨fun i hi => by omega, h⟩⟩

end

/-! ## The loops -/

/-- `while (*d) d++` -/
def skip (b : ℕ → UInt8) : ℕ → ℕ → Option ℕ
  | 0, _ => none
  | fuel + 1, d => if b d = 0 then some d else skip b fuel (d + 1)

/-- `while (n && (*d++ = *src++)) n--`: the memory, `d` and `n`.  In `strncat` only `n` at the end is another
one. -/
def copyN (m : Trace) (d src : ℕ) : ℕ → Trace × ℕ × ℕ
  | 0 => (m, d, 0)
  | n + 1 =>
    let c := m.byte src
    if c = 0 then (m.put d c, d + 1, n + 1) else copyN (m.put d c) (d + 1) (src + 1) n

/-- `while (n--) *d++ = '\0'` -/
def fill (m : Trace) (d : ℕ) : ℕ → Trace
  | 0 => m
  | n + 1 => fill (m.put d 0) (d + 1) n

/-! ## The functions -/

def strncpy (m : Trace) (dest src n : ℕ) : Trace :=
  let (m, d, n) := copyN m dest src n
  fill m d n

def strncat (fuel : ℕ) (m : Trace) (dest src n : ℕ) : Option Trace := do
  let d ← skip m.byte fuel dest
  let (m, d, _) := copyN m d src n
  return m.put d 0

/-! ## What the loops do -/

section
variable {m : Trace} {b : ℕ → UInt8} {d src k n fuel : ℕ}

theorem skip_eq : ∀ {fuel d n : ℕ}, IsStr b d n → n < fuel → skip b fuel d = some (d + n)
  | fuel + 1, d, 0, h, _ => by rw [skip, if_pos (isStr_zero.1 h), add_zero]
  | fuel + 1, d, n + 1, h, hf => by
    obtain ⟨h0, h1⟩ := h.tail fun _ _ => rfl
    rw [skip, if_neg h0, skip_eq h1 (by omega), Nat.add_assoc, Nat.add_comm 1]

theorem fill_eq (m : Trace) (d : ℕ) : ∀ n, fill m d n = m.putAll d (replicate n 0)
  | 0 => rfl
  | n + 1 => by rw [fill, fill_eq, replicate_succ, putAll]

theorem load_put (h : d ≤ src ∨ src + (k + 1) ≤ d) (c : UInt8) :
    load (m.put d c).byte (src + 1) k = load m.byte (src + 1) k :=
  load_congr fun i hi => put_byte_of_ne (by omega)

/-- **The copying loop** up to a place where no NUL was read yet; the writes must not be ahead of the reads. -/
theorem copyN_add : ∀ {m : Trace} {d src k : ℕ}, (∀ i < k, m.byte (src + i) ≠ 0) → d ≤ src ∨ src + k ≤ d → ∀ n, copyN
    m d src (k + n) = copyN (m.putAll d (load m.byte src k)) (d + k) (src + k) n
  | m, d, src, 0, _, _, n => by rw [Nat.zero_add]; rfl
  | m, d, src, k + 1, hne, hap, n => by
    have h0 : m.byte src ≠ 0 := hne 0 (by omega)
    have hrest : ∀ i < k, (m.put d (m.byte src)).byte (src + 1 + i) ≠ 0 := by
      intro i hi
      rw [put_byte_of_ne (by omega), Nat.add_assoc, Nat.add_comm 1]
      exact hne (i + 1) (by omega)
    rw [Nat.add_right_comm, copyN, if_neg h0, copyN_add hrest (by omega) n, load_put hap, load_succ,
      putAll, Nat.add_assoc d, Nat.add_assoc src, Nat.add_comm 1]

end

/-! ## What the functions write -/

section
variable {m : Trace} {dest src n len fuel d : ℕ}

section
variable (h : IsStr m.byte src len) (hap : dest ≤ src ∨ src + min n (len + 1) ≤ dest)
include h hap

theorem copyN_of_le (hn : n ≤ len) : copyN m dest src n = (m.putAll dest (load m.byte src n), dest + n, 0) := by
  have hne : ∀ i < n, m.byte (src + i) ≠ 0 := fun i hi => h.ne_zero i (by omega)
  have := copyN_add (d := dest) hne (by omega) 0
  rwa [Nat.add_zero] at this

theorem copyN_of_lt (hn : len < n) : copyN m dest src n =
    (m.putAll dest (load m.byte src len ++ [0]), dest + len + 1, n - len) := by
  obtain ⟨k, rfl⟩ : ∃ k, n = len + (k + 1) := ⟨n - len - 1, by omega⟩
  have hnul : (m.putAll dest (load m.byte src len)).byte (src + len) = 0 := by
    rw [putAll_eq]
    exact (store_of_disjoint (by rw [length_load]; omega)).trans h.nul
  rw [copyN_add h.ne_zero (by omega), copyN, if_pos hnul, hnul, putAll_append, length_load, Nat.add_sub_cancel_left]
  rfl

/-- **What `strncpy` writes**: a NUL too many if the source is shorter than `n`. -/
theorem strncpy_eq : strncpy m dest src n = m.putAll dest (if n ≤ len then load m.byte src n else
    load m.byte src len ++ replicate (n - len + 1) 0) := by
  unfold strncpy
  split_ifs with hn
  · rw [copyN_of_le h hap hn]
    rfl
  rw [copyN_of_lt h hap (by omega)]
  have hsplit : load m.byte src len ++ replicate (n - len + 1) 0 =
      load m.byte src len ++ [0] ++ replicate (n - len) 0 := by
    rw [replicate_succ, append_assoc]
    rfl
  rw [hsplit, putAll_append _ _ (load m.byte src len ++ [0]), length_append, length_load,
    length_singleton, ← Nat.add_assoc]
  exact fill_eq _ _ _

end

/-- **What `strncat` writes**: two NULs if the source is shorter than `n`. -/
theorem strncat_eq (hd : IsStr m.byte dest d) (h : IsStr m.byte src len) (hap : dest + d ≤ src ∨
    src + min n (len + 1) ≤ dest + d) (hf : d < fuel) : strncat fuel m dest src n = some (m.putAll (dest + d)
      (if n ≤ len then load m.byte src n ++ [0] else load m.byte src len ++ [0, 0])) := by
  rw [strncat, skip_eq hd hf]
  split_ifs with hn
  · have hcopy := copyN_of_le h hap hn
    simp only [bind, Option.bind, hcopy, putAll_append, length_load]
    rfl
  have hcopy := copyN_of_lt h hap (Nat.lt_of_not_le hn)
  have hsplit : load m.byte src len ++ [0, 0] = load m.byte src len ++ [0] ++ [0] := by simp
  rw [hsplit, putAll_append _ _ (load m.byte src len ++ [0])]
  simp only [bind, Option.bind, hcopy, length_append, length_load, length_singleton]
  rfl

/-- **The places that `strncpy` and `strncat` write** are those of C exactly if the source has at least `n`
bytes. -/
theorem strncpy_strncat_writes_iff {cat : ℕ} (h : IsStr m.byte src len) (hd : IsStr m.byte cat d) (hcpy : dest ≤ src ∨
    src + min n (len + 1) ≤ dest) (hcat : cat + d ≤ src ∨ src + min n (len + 1) ≤ cat + d) (hf : d < fuel) :
    (Writes m (strncpy m dest src n) dest (load m.byte src (min n len) ++ replicate (n - len) 0) ↔ n ≤ len) ∧
    ∃ m', strncat fuel m cat src n = some m' ∧ (Writes m m' (cat + d) (load m.byte src (min n len) ++ [0]) ↔
    n ≤ len) := by
  rw [strncpy_eq h hcpy, strncat_eq hd h hcat hf]
  refine ⟨⟨fun hw => ?_, fun hn => ?_⟩, _, rfl, fun hw => ?_, fun hn => ?_⟩
  · by_contra hn
    have := hw.length_eq (writes_putAll _ _ _)
    simp only [if_neg hn, length_append, length_load, length_replicate] at this
    omega
  · rw [if_pos hn, Nat.min_eq_left hn, Nat.sub_eq_zero_of_le hn, replicate_zero, append_nil]
    exact writes_putAll _ _ _
  · by_contra hn
    have := hw.length_eq (writes_putAll _ _ _)
    simp only [if_neg hn, length_append, length_load, length_cons, length_nil] at this
    omega
  · rw [if_pos hn, Nat.min_eq_left hn]
    exact writes_putAll _ _ _

end

/-! ## A copy into a field of two bytes -/

/-- The string `"a"` at 0, the empty string at 8, and a byte 7 at 10. -/
def fieldMem : Trace := ⟨fun x => if x = 0 then 97 else if x = 10 then 7 else 0, []⟩

theorem fieldMem_isStr : IsStr fieldMem.byte 0 1 ∧ IsStr fieldMem.byte 8 0 := by
  refine ⟨⟨fun i hi => ?_, rfl⟩, isStr_zero.2 rfl⟩
  obtain rfl : i = 0 := by omega
  decide

theorem strncpy_strncat_writes_one : (Writes fieldMem (strncpy fieldMem 8 0 1) 8
    (load fieldMem.byte 0 (min 1 1) ++ replicate (1 - 1) 0) ↔ 1 ≤ 1) ∧ ∃ m', strncat 1 fieldMem
    8 0 1 = some m' ∧ (Writes fieldMem m' (8 + 0) (load fieldMem.byte 0 (min 1 1) ++ [0]) ↔
    1 ≤ 1) :=
  strncpy_strncat_writes_iff fieldMem_isStr.1 fieldMem_isStr.2 (by decide) (by decide) (by decide)

/-- **The byte behind the field is lost.**  `strncpy(dest, "a", 2)` and `strncat(dest, "a", 2)` clear
`dest[2]`. -/
theorem strncpy_strncat_clear_next : IsStr fieldMem.byte 0 1 ∧ IsStr fieldMem.byte 8 0 ∧ fieldMem.byte 10 = 7 ∧
    (strncpy fieldMem 8 0 2).byte 10 = 0 ∧ ∃ m', strncat 1 fieldMem 8 0 2 = some m' ∧ m'.byte 10 = 0 :=
  ⟨fieldMem_isStr.1, fieldMem_isStr.2, rfl, rfl, _, rfl, rfl⟩

end Archis.Libc
