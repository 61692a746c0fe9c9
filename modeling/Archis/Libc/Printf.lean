/-
  Formatted output: `vsnprintf` (`userspace/libc/stdio.c`).

  The buffer is part of a memory that remembers where it was written.  Strings are lists of bytes without their NUL;
  `va_arg` with another type than that of the argument is none.  `Outputs fmt ap F`: the output is `F`, cut to the size
  of the buffer.
-/
import Archis.Lib.Numeral
import Archis.Lib.Trace

namespace Archis.Libc

open Archis.Lib Archis.Lib.Trace List

/-! ## Values -/

/-- The types that a conversion asks for. -/
inductive Kind where
  | int
  | long
  | ptr
  | str
  deriving DecidableEq

/-- An argument: the bits of an integer or of a pointer, or a string (none for `NULL`). -/
inductive Arg where
  | int (v : BitVec 32)
  | long (v : BitVec 64)
  | ptr (v : BitVec 64)
  | str (s : Option (List UInt8))
  deriving DecidableEq

def Arg.kind : Arg → Kind
  | .int _ => .int
  | .long _ => .long
  | .ptr _ => .ptr
  | .str _ => .str

/-- `is_long ? va_arg(ap, int64_t) : va_arg(ap, int)` -/
def vaInt : Bool → List Arg → Option (ℤ × List Arg)
  | false, .int v :: ap => some (v.toInt, ap)
  | true, .long v :: ap => some (v.toInt, ap)
  | _, _ => none

/-- `is_long ? va_arg(ap, uint64_t) : va_arg(ap, unsigned int)` -/
def vaUint : Bool → List Arg → Option (ℕ × List Arg)
  | false, .int v :: ap => some (v.toNat, ap)
  | true, .long v :: ap => some (v.toNat, ap)
  | _, _ => none

/-- `va_arg(ap, void *)` -/
def vaPtr : List Arg → Option (ℕ × List Arg)
  | .ptr v :: ap => some (v.toNat, ap)
  | _ => none

/-- `va_arg(ap, const char *)` -/
def vaStr : List Arg → Option (Option (List UInt8) × List Arg)
  | .str s :: ap => some (s, ap)
  | _ => none

/-! ## Writing to the buffer -/

/-- The memory, and the position in the output.  The position counts all bytes, also those that do not
    fit. -/
structure Out where
  mem : Trace
  pos : ℕ

/-- `digits[d]` -/
def digitChar (upper : Bool) (d : ℕ) : UInt8 :=
  chr ((if upper then "0123456789ABCDEF" else "0123456789abcdef").toList.getD d ' ')

/-- `tmp`: the digits of a number, the last one first. -/
def tmpDigits (upper : Bool) (base val : ℕ) : List UInt8 :=
  (if val = 0 then [chr '0'] else []) ++ (digitsLoop base 64 val).map (digitChar upper)

section
variable (buf size : ℕ) (o : Out)

def outChar (c : UInt8) : Out :=
  ⟨if o.pos < size then o.mem.put (buf + o.pos) c else o.mem, o.pos + 1⟩

/-- `out_str_raw`, and the other loops over bytes. -/
def emit (s : List UInt8) : Out := s.foldl (outChar buf size) o

/-- `while (pad-- > 0) out_char(buf, size, pos, c)` -/
def outPad (c : UInt8) (pad : ℤ) : Out := (fun o => outChar buf size o c)^[pad.toNat] o

/-- After the first loop `pad` is negative, but then `left_justify` is off. -/
def outStr (s : List UInt8) (width : ℤ) (leftJustify : Bool) : Out :=
  let pad := toInt32 (width - toInt32 s.length)
  let o := if 0 < pad ∧ leftJustify = false then outPad buf size o (chr ' ') pad else o
  let o := emit buf size o s
  if 0 < pad ∧ leftJustify = true then outPad buf size o (chr ' ') pad else o

def outUint (val base : ℕ) (upper : Bool) (width : ℤ) (zeroPad leftJustify : Bool) : Out :=
  let tmp := tmpDigits upper base val
  let pad := toInt32 (width - tmp.length)
  let o := if 0 < pad ∧ leftJustify = false then
      outPad buf size o (if zeroPad then chr '0' else chr ' ') pad else o
  let o := emit buf size o tmp.reverse
  if 0 < pad ∧ leftJustify = true then outPad buf size o (chr ' ') pad else o

/-- `(uint64_t)(-val)` is the low 64 bits, also for the smallest number. -/
def outInt (val width : ℤ) (zeroPad leftJustify : Bool) : Out :=
  if val < 0 then
    outUint buf size (outChar buf size o (chr '-')) (-val % 2 ^ 64).toNat 10 false
      (if 0 < width then width - 1 else 0) zeroPad leftJustify
  else outUint buf size o val.toNat 10 false width zeroPad leftJustify

end

/-! ## Conversions -/

/-- What is between the `%` and the conversion character. -/
structure Spec where
  zeroPad : Bool
  leftJustify : Bool
  width : ℤ
  isLong : Bool

def scanFlags : Bool → Bool → List UInt8 → Bool × Bool × List UInt8
  | z, l, [] => (z, l, [])
  | z, l, c :: fmt =>
    if c = chr '0' then scanFlags true l fmt
    else if c = chr '-' then scanFlags z true fmt
    else (z, l, c :: fmt)

def scanWidth : ℤ → List UInt8 → ℤ × List UInt8
  | w, [] => (w, [])
  | w, c :: fmt =>
    if chr '0' ≤ c ∧ c ≤ chr '9' then scanWidth (toInt32 (w * 10 + (c.toNat - 48))) fmt
    else (w, c :: fmt)

def scanLength : List UInt8 → Bool × List UInt8
  | [] => (false, [])
  | c :: fmt =>
    if c = chr 'l' then (true, if fmt.head? = some (chr 'l') then fmt.tail else fmt)
    else if c = chr 'z' then (true, fmt)
    else (false, c :: fmt)

/-- All of it: `-` takes precedence over `0`. -/
def scanSpec (fmt : List UInt8) : Spec × List UInt8 :=
  let (zeroPad, leftJustify, fmt) := scanFlags false false fmt
  let (width, fmt) := scanWidth 0 fmt
  let (isLong, fmt) := scanLength fmt
  (⟨if leftJustify then false else zeroPad, leftJustify, width, isLong⟩, fmt)

/-- The `switch` over the conversion character. -/
def convert (buf size : ℕ) (sp : Spec) (c : UInt8) (ap : List Arg) (o : Out) : Option (Out × List Arg) :=
  if c = chr 'd' ∨ c = chr 'i' then do
    let (val, ap) ← vaInt sp.isLong ap
    return (outInt buf size o val sp.width sp.zeroPad sp.leftJustify, ap)
  else if c = chr 'u' then do
    let (val, ap) ← vaUint sp.isLong ap
    return (outUint buf size o val 10 false sp.width sp.zeroPad sp.leftJustify, ap)
  else if c = chr 'x' ∨ c = chr 'X' then do
    let (val, ap) ← vaUint sp.isLong ap
    return (outUint buf size o val 16 (c = chr 'X') sp.width sp.zeroPad sp.leftJustify, ap)
  else if c = chr 'p' then do
    let (val, ap) ← vaPtr ap
    return (outUint buf size (emit buf size o [chr '0', chr 'x']) val 16 false 16 true false, ap)
  else if c = chr 'c' then do
    let (val, ap) ← vaUint false ap
    return (outChar buf size o val.toUInt8, ap)
  else if c = chr 's' then do
    let (s, ap) ← vaStr ap
    return (outStr buf size o (s.getD ("(null)".toList.map chr)) sp.width sp.leftJustify, ap)
  else if c = chr '%' then some (outChar buf size o (chr '%'), ap)
  else some (outChar buf size (outChar buf size o (chr '%')) c, ap)

/-- The loop over the format.  A format that ends within a conversion gives the `%`. -/
def vsnprintfLoop (buf size : ℕ) : ℕ → List UInt8 → List Arg → Out → Option Out
  | _, [], _, o => some o
  | 0, _ :: _, _, _ => none
  | fuel + 1, c :: fmt, ap, o =>
    if c ≠ chr '%' then vsnprintfLoop buf size fuel fmt ap (outChar buf size o c)
    else
      match scanSpec fmt with
      | (_, []) => some (outChar buf size o (chr '%'))
      | (sp, c :: fmt) => do
        let (o, ap) ← convert buf size sp c ap o
        vsnprintfLoop buf size fuel fmt ap o

def vsnprintf (m : Trace) (buf size : ℕ) (fmt : List UInt8) (ap : List Arg) : Option (ℤ × Trace) := do
  let o ← vsnprintfLoop buf size fmt.length fmt ap ⟨m, 0⟩
  let m := if 0 < size then o.mem.put (buf + if o.pos < size then o.pos else size - 1) 0 else o.mem
  return (toInt32 o.pos, m)

/-! ## Arguments of the right types -/

def Spec.kind (sp : Spec) (c : UInt8) : Option Kind :=
  if c = chr 'd' ∨ c = chr 'i' ∨ c = chr 'u' ∨ c = chr 'x' ∨ c = chr 'X' then
    some (if sp.isLong then .long else .int)
  else if c = chr 'p' then some .ptr
  else if c = chr 'c' then some .int
  else if c = chr 's' then some .str
  else none

def kinds : ℕ → List UInt8 → List Kind
  | 0, _ => []
  | _ + 1, [] => []
  | fuel + 1, c :: fmt =>
    if c ≠ chr '%' then kinds fuel fmt
    else
      match scanSpec fmt with
      | (_, []) => []
      | (sp, c :: fmt) => (sp.kind c).toList ++ kinds fuel fmt

/-- The arguments have the types of the format; there may be more of them. -/
def Matching (fmt : List UInt8) (ap : List Arg) : Prop := kinds fmt.length fmt <+: ap.map Arg.kind

instance (fmt : List UInt8) (ap : List Arg) : Decidable (Matching fmt ap) :=
  inferInstanceAs (Decidable (_ <+: _))

/-! ## What is emitted -/

section
variable {buf size : ℕ}

theorem emit_append (o : Out) (s t : List UInt8) :
    emit buf size o (s ++ t) = emit buf size (emit buf size o s) t := foldl_append

theorem outPad_eq (o : Out) (c : UInt8) (pad : ℤ) :
    outPad buf size o c pad = emit buf size o (replicate pad.toNat c) := by
  unfold outPad
  induction pad.toNat generalizing o with
  | zero => rfl
  | succ n ih => rw [Function.iterate_succ_apply, ih, replicate_succ]; rfl

/-- **The bytes in the buffer** are the first of those that are emitted. -/
theorem emit_eq (m : Trace) (pos : ℕ) (s : List UInt8) :
    emit buf size ⟨m, pos⟩ s = ⟨m.putAll (buf + pos) (s.take (size - pos)), pos + s.length⟩ := by
  induction s generalizing m pos with
  | nil => rw [take_nil]; rfl
  | cons c s ih =>
    have hstep : emit buf size ⟨m, pos⟩ (c :: s) = emit buf size (outChar buf size ⟨m, pos⟩ c) s := rfl
    rw [hstep, outChar, ih, length_cons, Nat.add_assoc, Nat.add_comm 1]
    congr 1
    by_cases h : pos < size
    · obtain ⟨k, hk⟩ : ∃ k, size - pos = k + 1 := ⟨size - pos - 1, by omega⟩
      rw [if_pos h, hk, take_succ_cons, putAll, show size - (pos + 1) = k by omega]
      rfl
    · rw [if_neg h, show size - pos = 0 by omega, show size - (pos + 1) = 0 by omega]
      rfl

end

def padded (pad : ℤ) (leftJustify : Bool) (c : UInt8) (s : List UInt8) : List UInt8 :=
  if leftJustify then s ++ replicate pad.toNat (chr ' ') else replicate pad.toNat c ++ s

section
variable {buf size : ℕ} (o : Out)

theorem emit_padded (pad : ℤ) (leftJustify : Bool) (c : UInt8) (s : List UInt8) :
    (let o := if 0 < pad ∧ leftJustify = false then outPad buf size o c pad else o
     let o := emit buf size o s
     if 0 < pad ∧ leftJustify = true then outPad buf size o (chr ' ') pad else o) =
      emit buf size o (padded pad leftJustify c s) := by
  have hneg : ¬ 0 < pad → pad.toNat = 0 := fun h => by omega
  cases leftJustify with
  | false =>
    simp only [padded, and_true, Bool.false_eq_true, and_false, if_false]
    split_ifs with h
    · rw [outPad_eq, emit_append]
    · rw [hneg h]; rfl
  | true =>
    simp only [padded, Bool.true_eq_false, and_false, if_false, and_true, if_true]
    split_ifs with h
    · rw [outPad_eq, emit_append]
    · rw [hneg h, replicate_zero, append_nil]

def strBytes (s : List UInt8) (width : ℤ) (leftJustify : Bool) : List UInt8 :=
  padded (toInt32 (width - toInt32 s.length)) leftJustify (chr ' ') s

theorem outStr_eq (s : List UInt8) (width : ℤ) (leftJustify : Bool) :
    outStr buf size o s width leftJustify = emit buf size o (strBytes s width leftJustify) :=
  emit_padded o _ leftJustify (chr ' ') s

def uintBytes (val base : ℕ) (upper : Bool) (width : ℤ) (zeroPad leftJustify : Bool) : List UInt8 :=
  padded (toInt32 (width - (tmpDigits upper base val).length)) leftJustify
    (if zeroPad then chr '0' else chr ' ') (tmpDigits upper base val).reverse

theorem outUint_eq (val base : ℕ) (upper : Bool) (width : ℤ) (zeroPad leftJustify : Bool) :
    outUint buf size o val base upper width zeroPad leftJustify =
      emit buf size o (uintBytes val base upper width zeroPad leftJustify) :=
  emit_padded o _ leftJustify _ _

def intBytes (val width : ℤ) (zeroPad leftJustify : Bool) : List UInt8 :=
  if val < 0 then
    chr '-' :: uintBytes (-val % 2 ^ 64).toNat 10 false (if 0 < width then width - 1 else 0) zeroPad
      leftJustify
  else uintBytes val.toNat 10 false width zeroPad leftJustify

theorem outInt_eq (val width : ℤ) (zeroPad leftJustify : Bool) : outInt buf size o val
    width zeroPad leftJustify = emit buf size o (intBytes val width zeroPad leftJustify) := by
  unfold outInt intBytes
  by_cases h : val < 0
  · rw [if_pos h, if_pos h, outUint_eq]; rfl
  · rw [if_neg h, if_neg h, outUint_eq]

end

/-! ## The output of a format -/

section
variable {sp : Spec} {c : UInt8} {ap : List Arg} {k : Kind} {ks : List Kind}

theorem exists_arg (h : k :: ks <+: ap.map Arg.kind) :
    ∃ a ap', ap = a :: ap' ∧ a.kind = k ∧ ks <+: ap'.map Arg.kind := by
  obtain ⟨t, ht, hks⟩ := cons_prefix_iff.1 h
  obtain ⟨a, ap', rfl, ha, rfl⟩ := map_eq_cons_iff.1 ht
  exact ⟨a, ap', rfl, ha, hks⟩

theorem exists_vaInt (isLong : Bool) (h : (if isLong then Kind.long else .int) :: ks <+: ap.map
    Arg.kind) : ∃ v u ap', vaInt isLong ap = some (v, ap') ∧ vaUint isLong ap = some (u, ap') ∧
    ks <+: ap'.map Arg.kind := by
  obtain ⟨a, ap', rfl, ha, hks⟩ := exists_arg h
  cases isLong with
  | false =>
    cases a with
    | int v => exact ⟨_, _, ap', rfl, rfl, hks⟩
    | _ => cases ha
  | true =>
    cases a with
    | long v => exact ⟨_, _, ap', rfl, rfl, hks⟩
    | _ => cases ha

theorem exists_vaPtr (h : Kind.ptr :: ks <+: ap.map Arg.kind) :
    ∃ v ap', vaPtr ap = some (v, ap') ∧ ks <+: ap'.map Arg.kind := by
  obtain ⟨a, ap', rfl, ha, hks⟩ := exists_arg h
  cases a with
  | ptr v => exact ⟨_, ap', rfl, hks⟩
  | _ => cases ha

theorem exists_vaStr (h : Kind.str :: ks <+: ap.map Arg.kind) :
    ∃ s ap', vaStr ap = some (s, ap') ∧ ks <+: ap'.map Arg.kind := by
  obtain ⟨a, ap', rfl, ha, hks⟩ := exists_arg h
  cases a with
  | str s => exact ⟨s, ap', rfl, hks⟩
  | _ => cases ha

variable {buf size : ℕ} {o : Out} {ap' : List Arg}

theorem convert_int {v : ℤ} (hc : c = chr 'd' ∨ c = chr 'i') (hv : vaInt sp.isLong ap = some (v, ap')) :
    convert buf size sp c ap o = some (emit buf size o (intBytes v sp.width sp.zeroPad sp.leftJustify), ap') := by
  rw [convert, if_pos hc, hv, ← outInt_eq]
  rfl

theorem convert_uint {v : ℕ} (hv : vaUint sp.isLong ap = some (v, ap')) :
    convert buf size sp (chr 'u') ap o =
      some (emit buf size o (uintBytes v 10 false sp.width sp.zeroPad sp.leftJustify), ap') := by
  rw [convert, if_neg (by decide), if_pos rfl, hv, ← outUint_eq]
  rfl

theorem convert_hex {v : ℕ} (hc : c = chr 'x' ∨ c = chr 'X')
    (hv : vaUint sp.isLong ap = some (v, ap')) : convert buf size sp c ap o = some
    (emit buf size o (uintBytes v 16 (c = chr 'X') sp.width sp.zeroPad sp.leftJustify), ap') := by
  have h1 : ¬ (c = chr 'd' ∨ c = chr 'i') := by rcases hc with rfl | rfl <;> decide
  have h2 : ¬ c = chr 'u' := by rcases hc with rfl | rfl <;> decide
  rw [convert, if_neg h1, if_neg h2, if_pos hc, hv, ← outUint_eq]
  rfl

/-- **A conversion emits** bytes that do not depend on the buffer. -/
theorem convert_eq (h : (sp.kind c).toList ++ ks <+: ap.map Arg.kind) :
    ∃ s ap', (∀ buf size o, convert buf size sp c ap o = some (emit buf size o s, ap')) ∧
      ks <+: ap'.map Arg.kind := by
  unfold Spec.kind at h
  by_cases hd : c = chr 'd' ∨ c = chr 'i'
  · rw [if_pos (by tauto)] at h
    obtain ⟨v, _, ap', hv, -, hks⟩ := exists_vaInt _ h
    exact ⟨_, ap', fun buf size o => convert_int hd hv, hks⟩
  by_cases hu : c = chr 'u'
  · rw [if_pos (by tauto)] at h
    obtain ⟨_, v, ap', -, hv, hks⟩ := exists_vaInt _ h
    exact ⟨_, ap', fun buf size o => by rw [hu, convert_uint hv], hks⟩
  by_cases hx : c = chr 'x' ∨ c = chr 'X'
  · rw [if_pos (by tauto)] at h
    obtain ⟨_, v, ap', -, hv, hks⟩ := exists_vaInt _ h
    exact ⟨_, ap', fun buf size o => convert_hex hx hv, hks⟩
  unfold convert
  simp only [if_neg hd, if_neg hu, if_neg hx]
  rw [if_neg (by tauto)] at h
  by_cases hp : c = chr 'p'
  · rw [if_pos hp] at h
    obtain ⟨v, ap', hv, hks⟩ := exists_vaPtr h
    refine ⟨[chr '0', chr 'x'] ++ uintBytes v 16 false 16 true false, ap', fun buf size o => ?_, hks⟩
    rw [if_pos hp, hv, emit_append, ← outUint_eq]
    rfl
  rw [if_neg hp] at h
  simp only [if_neg hp]
  by_cases hc : c = chr 'c'
  · rw [if_pos hc] at h
    obtain ⟨_, v, ap', -, hv, hks⟩ := exists_vaInt false h
    refine ⟨[v.toUInt8], ap', fun buf size o => ?_, hks⟩
    rw [if_pos hc, hv]
    rfl
  rw [if_neg hc] at h
  simp only [if_neg hc]
  by_cases hs : c = chr 's'
  · rw [if_pos hs] at h
    obtain ⟨s, ap', hv, hks⟩ := exists_vaStr h
    refine ⟨strBytes (s.getD ("(null)".toList.map chr)) sp.width sp.leftJustify, ap',
      fun buf size o => ?_, hks⟩
    rw [if_pos hs, hv, ← outStr_eq]
    rfl
  rw [if_neg hs] at h
  simp only [if_neg hs]
  by_cases hpct : c = chr '%'
  · refine ⟨[chr '%'], ap, fun buf size o => ?_, h⟩
    rw [if_pos hpct]
    rfl
  · refine ⟨[chr '%', c], ap, fun buf size o => ?_, h⟩
    rw [if_neg hpct]
    rfl

end

theorem length_scanFlags (z l : Bool) (fmt : List UInt8) : (scanFlags z l fmt).2.2.length ≤ fmt.length := by
  induction fmt generalizing z l with
  | nil => exact le_rfl
  | cons c fmt ih =>
    unfold scanFlags
    split_ifs
    · exact (ih true l).trans (Nat.le_succ _)
    · exact (ih z true).trans (Nat.le_succ _)
    · exact le_rfl

theorem length_scanWidth (w : ℤ) (fmt : List UInt8) : (scanWidth w fmt).2.length ≤ fmt.length := by
  induction fmt generalizing w with
  | nil => exact le_rfl
  | cons c fmt ih =>
    unfold scanWidth
    split_ifs
    · exact (ih _).trans (Nat.le_succ _)
    · exact le_rfl

theorem length_scanLength (fmt : List UInt8) : (scanLength fmt).2.length ≤ fmt.length := by
  cases fmt with
  | nil => exact le_rfl
  | cons c fmt =>
    simp only [scanLength]
    split_ifs <;> simp only [length_tail, length_cons] <;> omega

theorem length_scanSpec (fmt : List UInt8) : (scanSpec fmt).2.length ≤ fmt.length :=
  ((length_scanLength _).trans (length_scanWidth _ _)).trans (length_scanFlags _ _ _)

variable {fmt : List UInt8} {ap : List Arg}

/-- **The loop over the format emits** bytes that do not depend on the buffer. -/
theorem vsnprintfLoop_eq {fuel : ℕ} (hfuel : fmt.length ≤ fuel) (h : kinds fuel fmt <+: ap.map Arg.kind) :
    ∃ s, ∀ buf size o, vsnprintfLoop buf size fuel fmt ap o = some (emit buf size o s) := by
  induction fuel generalizing fmt ap with
  | zero =>
    obtain rfl : fmt = [] := length_eq_zero_iff.1 (by omega)
    exact ⟨[], fun _ _ _ => rfl⟩
  | succ fuel ih =>
    cases fmt with
    | nil => exact ⟨[], fun _ _ _ => rfl⟩
    | cons c fmt =>
      rw [length_cons] at hfuel
      unfold kinds at h
      by_cases hc : c ≠ chr '%'
      · rw [if_pos hc] at h
        obtain ⟨s, hs⟩ := ih (by omega) h
        refine ⟨c :: s, fun buf size o => ?_⟩
        rw [vsnprintfLoop, if_pos hc, hs]
        rfl
      · rw [if_neg hc] at h
        have hlen := length_scanSpec fmt
        simp only [vsnprintfLoop, if_neg hc]
        generalize scanSpec fmt = r at h hlen
        obtain ⟨sp, rest⟩ := r
        cases rest with
        | nil => exact ⟨[chr '%'], fun _ _ _ => rfl⟩
        | cons c' rest =>
          obtain ⟨s, ap', hs, hks⟩ := convert_eq h
          rw [length_cons] at hlen
          obtain ⟨t, ht⟩ := ih (by omega) hks
          refine ⟨s ++ t, fun buf size o => ?_⟩
          simp only [hs, bind, Option.bind, ht, emit_append]

/-- **The output is `F`, cut to the size of the buffer**: the return value is its length, and only the buffer is
written. -/
def Outputs (fmt : List UInt8) (ap : List Arg) (F : List UInt8) : Prop :=
  ∀ (m : Trace) (buf size : ℕ), ∃ ret m', vsnprintf m buf size fmt ap = some (ret, m') ∧ (F.length < 2 ^ 31 →
    ret = F.length) ∧ (∃ ws, m'.written = m.written ++ ws ∧ ∀ x ∈ ws, buf ≤ x ∧ x < buf + size) ∧ (∀ x, x < buf ∨
    buf + size ≤ x → m'.byte x = m.byte x) ∧ (0 < size →
    load m'.byte buf (min F.length (size - 1) + 1) = F.take (size - 1) ++ [0])

theorem toInt32_of_lt {n : ℕ} (h : n < 2 ^ 31) : toInt32 n = n := by
  unfold toInt32
  rw [Int.bmod_eq_of_le] <;> omega

theorem load_put_end (m : Trace) (a n : ℕ) (c : UInt8) :
    load (m.put (a + n) c).byte a (n + 1) = load m.byte a n ++ [c] := by
  have hload : load (m.put (a + n) c).byte a n = load m.byte a n :=
    load_congr fun k hk => put_byte_of_ne (Nat.ne_of_lt (Nat.add_lt_add_left hk a))
  rw [← load_append_load, hload]
  exact congrArg (load m.byte a n ++ [·]) put_byte_self

theorem outputs_of_loop {s : List UInt8} (h : ∀ buf size o, vsnprintfLoop buf size fmt.length fmt ap
    o = some (emit buf size o s)) : Outputs fmt ap s := by
  intro m buf size
  have hrun : vsnprintf m buf size fmt ap = some (toInt32 s.length,
      if 0 < size then (m.putAll buf (s.take size)).put
        (buf + if s.length < size then s.length else size - 1) 0 else m.putAll buf (s.take size)) := by
    rw [vsnprintf, h, emit_eq]
    simp only [bind, Option.bind, Nat.add_zero, Nat.sub_zero, Nat.zero_add]
    rfl
  refine ⟨_, _, hrun, fun hlen => toInt32_of_lt hlen, ?_⟩
  rcases Nat.eq_zero_or_pos size with rfl | hsize
  · rw [if_neg (by omega), take_zero]
    exact ⟨⟨[], (append_nil _).symm, by simp⟩, fun _ _ => rfl, fun h => by omega⟩
  obtain ⟨p, hp⟩ : ∃ p, p = min s.length (size - 1) := ⟨_, rfl⟩
  have hpos : (if s.length < size then s.length else size - 1) = p := by split_ifs <;> omega
  have htake : (s.take size).length ≤ size := by rw [length_take]; omega
  rw [if_pos hsize, hpos, putAll_eq, ← hp]
  refine ⟨⟨range' buf (s.take size).length ++ [buf + p], append_assoc .., fun x hx => ?_⟩,
    fun x hx => ?_, fun _ => ?_⟩
  · rcases mem_append.1 hx with hx | hx
    · rw [mem_range'_1] at hx
      omega
    · rw [mem_singleton.1 hx]
      omega
  · rw [put_byte_of_ne (by omega)]
    exact store_of_disjoint (by omega)
  · have hfirst : load (store m.byte buf (s.take size)) buf p = s.take (size - 1) := by
      have h1 := congrArg (List.take p) (load_store_self m.byte buf (s.take size))
      rw [take_load, take_take, length_take] at h1
      rw [show min p (min size s.length) = p by omega, show min p size = p by omega] at h1
      rw [h1, hp, Nat.min_comm, ← take_take, take_length]
    rw [load_put_end, hfirst]

/-- **The truncation law.** -/
theorem exists_outputs {fmt : List UInt8} {ap : List Arg} (h : Matching fmt ap) : ∃ F, Outputs fmt ap F := by
  obtain ⟨s, hs⟩ := vsnprintfLoop_eq le_rfl h
  exact ⟨s, outputs_of_loop hs⟩

theorem exists_outputs_str_hex :
    Matching ("%-5s%x".toList.map chr) [.str (some [chr 'a']), .int 255] ∧
      ∃ F, Outputs ("%-5s%x".toList.map chr) [.str (some [chr 'a']), .int 255] F :=
  ⟨by decide, exists_outputs (by decide)⟩

theorem Outputs.unique {F G : List UInt8} (hF : Outputs fmt ap F)
    (hG : Outputs fmt ap G) (hlenF : F.length < 2 ^ 31) (hlenG : G.length < 2 ^ 31) : F = G := by
  obtain ⟨r, m, hrun, hret, -, -, hload⟩ := hF ⟨fun _ => 0, []⟩ 0 (F.length + 1)
  obtain ⟨r', m', hrun', hret', -, -, hload'⟩ := hG ⟨fun _ => 0, []⟩ 0 (F.length + 1)
  rw [hrun] at hrun'
  obtain ⟨rfl, rfl⟩ := Prod.mk.inj (Option.some.inj hrun')
  have hlen : F.length = G.length := by
    have := (hret hlenF).symm.trans (hret' hlenG)
    omega
  have h1 := hload (Nat.succ_pos _)
  have h2 := hload' (Nat.succ_pos _)
  rw [← hlen] at h2
  rw [h1, Nat.add_sub_cancel, take_length, hlen, take_length] at h2
  exact append_cancel_right h2

end Archis.Libc
