/-
  The integer conversions of `vsnprintf`: d, i, u, x and X.

  `integerField` is what the C standard asks for: the shortest numeral with its sign, padded to the width.  The code
  emits the sign in front of the padding, so the two differ for negative numbers padded with spaces on the left
  (`intFormat_outputs_iff`).
-/
import Archis.Libc.Printf

namespace Archis.Libc

open Archis.Lib List

/-! ## Formats -/

inductive Flag where
  | minus
  | zero
  deriving DecidableEq

def Flag.char : Flag → UInt8
  | .minus => chr '-'
  | .zero => chr '0'

/-- The length modifiers. -/
inductive Modifier where
  | none
  | l
  | ll
  | z
  deriving DecidableEq

def Modifier.text : Modifier → List UInt8
  | .none => []
  | .l => [chr 'l']
  | .ll => [chr 'l', chr 'l']
  | .z => [chr 'z']

/-- `int` without a modifier, a 64-bit type with one. -/
def Modifier.isLong : Modifier → Bool
  | .none => false
  | _ => true

def Modifier.kind (md : Modifier) : Kind := if md.isLong then .long else .int

def Arg.toInt : Arg → ℤ
  | .int v => v.toInt
  | .long v => v.toInt
  | _ => 0

def Arg.toNat : Arg → ℕ
  | .int v => v.toNat
  | .long v => v.toNat
  | _ => 0

inductive IntConv where
  | d
  | i
  | u
  | x
  | X
  deriving DecidableEq

namespace IntConv

def char : IntConv → UInt8
  | d => chr 'd'
  | i => chr 'i'
  | u => chr 'u'
  | x => chr 'x'
  | X => chr 'X'

def base : IntConv → ℕ
  | x | X => 16
  | _ => 10

def upper : IntConv → Bool
  | X => true
  | _ => false

def signed : IntConv → Bool
  | d | i => true
  | _ => false

def value (c : IntConv) (a : Arg) : ℤ := if c.signed then a.toInt else a.toNat

end IntConv

def numeral (upper : Bool) (base v : ℕ) : List UInt8 :=
  if v = 0 then [chr '0'] else (Nat.digits base v).reverse.map (digitChar upper)

/-- A width of 0 is not written. -/
def widthText (w : ℕ) : List UInt8 := if w = 0 then [] else numeral false 10 w

def intFormat (flags : List Flag) (w : ℕ) (md : Modifier) (c : IntConv) : List UInt8 :=
  chr '%' :: (flags.map Flag.char ++ (widthText w ++ (md.text ++ [c.char])))

/-- A sign and digits, padded: with spaces on the right under `-`, zeros between them under `0`, or spaces on the
left. -/
def field (flags : List Flag) (w : ℕ) (sign ds : List UInt8) : List UInt8 :=
  let pad := w - (sign.length + ds.length)
  if .minus ∈ flags then sign ++ ds ++ replicate pad (chr ' ')
  else if .zero ∈ flags then sign ++ replicate pad (chr '0') ++ ds
  else replicate pad (chr ' ') ++ sign ++ ds

def integerField (flags : List Flag) (w : ℕ) (c : IntConv) (v : ℤ) : List UInt8 :=
  field flags w (if v < 0 then [chr '-'] else []) (numeral c.upper c.base v.natAbs)

/-! ## Reading the conversion -/

/-- The text does not begin with a character of this kind. -/
def NotFirst (p : UInt8 → Prop) (s : List UInt8) : Prop := ∀ c ∈ s.head?, ¬ p c

variable {rest : List UInt8} {w base v : ℕ} {a : Arg}

theorem scanFlags_eq (flags : List Flag) (h : NotFirst (fun c => c = chr '0' ∨ c = chr '-') rest)
    (z l : Bool) : scanFlags z l (flags.map Flag.char ++ rest) = (z || decide (.zero ∈ flags),
    l || decide (.minus ∈ flags), rest) := by
  induction flags generalizing z l with
  | nil =>
    cases rest with
    | nil => simp [scanFlags]
    | cons c rest =>
      have hc := h c rfl
      rw [not_or] at hc
      simp [scanFlags, hc.1, hc.2]
  | cons f flags ih =>
    cases f with
    | minus =>
      have h1 : scanFlags z l (chr '-' :: (flags.map Flag.char ++ rest)) =
          scanFlags z true (flags.map Flag.char ++ rest) := by
        rw [scanFlags, if_neg (by decide), if_pos rfl]
      rw [map_cons, cons_append, Flag.char, h1, ih]
      simp
    | zero =>
      have h1 : scanFlags z l (chr '0' :: (flags.map Flag.char ++ rest)) =
          scanFlags true l (flags.map Flag.char ++ rest) := by
        rw [scanFlags, if_pos rfl]
      rw [map_cons, cons_append, Flag.char, h1, ih]
      simp

theorem digitChar_decimal : ∀ d < 10, chr '0' ≤ digitChar false d ∧ digitChar false d ≤ chr '9' ∧
    (digitChar false d).toNat = d + 48 ∧ (digitChar false d = chr '0' → d = 0) ∧
    digitChar false d ≠ chr '-' := by decide

theorem toInt32_toInt32_mul_add (x : ℤ) (d : ℕ) : toInt32 (toInt32 x * 10 + d) = toInt32 (x * 10 + d) := by
  unfold toInt32
  rw [← Int.bmod_add_bmod, Int.bmod_mul_bmod, Int.bmod_add_bmod]

theorem scanWidth_eq {ds : List ℕ} (hds : ∀ d ∈ ds, d < 10) (h : NotFirst (fun c => chr '0' ≤ c ∧ c ≤ chr '9') rest)
    (v : ℕ) : scanWidth (toInt32 v) (ds.map (digitChar false) ++ rest) = (toInt32 (horner 10 v ds), rest) := by
  induction ds generalizing v with
  | nil =>
    cases rest with
    | nil => rfl
    | cons c rest => rw [map_nil, nil_append, scanWidth, if_neg (h c rfl)]; rfl
  | cons d ds ih =>
    obtain ⟨h1, h2, h3, -⟩ := digitChar_decimal d (hds d (by simp))
    have hnum : (((digitChar false d).toNat : ℕ) : ℤ) - 48 = (d : ℕ) := by rw [h3]; omega
    rw [map_cons, cons_append, scanWidth, if_pos ⟨h1, h2⟩, hnum, toInt32_toInt32_mul_add,
      horner_cons, ← ih (fun e he => hds e (by simp [he]))]
    push_cast
    rfl

theorem scanLength_eq (md : Modifier) (c : IntConv) : scanLength (md.text ++ [c.char]) = (md.isLong, [c.char]) := by
  cases md <;> cases c <;> decide

theorem notFirst_text (md : Modifier) (c : IntConv) :
    NotFirst (fun c => chr '0' ≤ c ∧ c ≤ chr '9') (md.text ++ [c.char]) ∧
      NotFirst (fun c => c = chr '0' ∨ c = chr '-') (md.text ++ [c.char]) := by
  constructor <;> intro a ha <;> cases md <;> cases c <;> cases ha <;> decide

theorem notFirst_widthText (w : ℕ) (md : Modifier) (c : IntConv) :
    NotFirst (fun c => c = chr '0' ∨ c = chr '-') (widthText w ++ (md.text ++ [c.char])) := by
  unfold widthText numeral
  split_ifs with h0
  · exact (notFirst_text md c).2
  have hne : Nat.digits 10 w ≠ [] := Nat.digits_ne_nil_iff_ne_zero.2 h0
  have hhead : ((Nat.digits 10 w).reverse.map (digitChar false) ++ (md.text ++ [c.char])).head? =
      some (digitChar false ((Nat.digits 10 w).getLast hne)) := by
    rw [head?_append, head?_map, head?_reverse, getLast?_eq_some_getLast hne]
    rfl
  have hlt := Nat.digits_lt_base (by decide) (getLast_mem hne)
  obtain ⟨-, -, -, hzero, hminus⟩ := digitChar_decimal _ hlt
  intro a ha
  rw [hhead] at ha
  obtain rfl := Option.some.inj ha
  -- the first digit of a number is not 0
  rintro (h | h)
  · exact Nat.getLast_digit_ne_zero 10 h0 (hzero h)
  · exact hminus h

theorem scanWidth_widthText (hw : w < 2 ^ 15) (h : NotFirst (fun c => chr '0' ≤ c ∧ c ≤ chr '9')
    rest) : scanWidth 0 (widthText w ++ rest) = ((w : ℤ), rest) := by
  unfold widthText numeral
  split_ifs with h0
  · rw [h0]
    have hnil : ∀ d ∈ ([] : List ℕ), d < 10 := by simp
    exact scanWidth_eq hnil h 0
  · have hds : ∀ d ∈ (Nat.digits 10 w).reverse, d < 10 := fun d hd =>
      Nat.digits_lt_base (by decide) (mem_reverse.1 hd)
    have := scanWidth_eq hds h 0
    rwa [horner_digits, toInt32_of_lt (n := w) (by omega)] at this

def specOf (flags : List Flag) (w : ℕ) (md : Modifier) : Spec :=
  ⟨if .minus ∈ flags then false else decide (.zero ∈ flags), decide (.minus ∈ flags), w, md.isLong⟩

/-- **The conversion is read** as it is written. -/
theorem scanSpec_intFormat (flags : List Flag) (hw : w < 2 ^ 15) (md : Modifier) (c : IntConv) :
    scanSpec (flags.map Flag.char ++ (widthText w ++ (md.text ++ [c.char]))) =
      (specOf flags w md, [c.char]) := by
  simp only [scanSpec, specOf, scanFlags_eq flags (notFirst_widthText w md c),
    scanWidth_widthText hw (notFirst_text md c).1, scanLength_eq, Bool.false_or, decide_eq_true_eq]

/-! ## What is emitted -/

theorem tmpDigits_reverse (upper : Bool) (hb : 1 < base) (hv : v < base ^ 64) :
    (tmpDigits upper base v).reverse = numeral upper base v := by
  unfold tmpDigits numeral
  rw [digitsLoop_eq hb hv]
  split_ifs with h0
  · rw [h0, Nat.digits_zero]
    rfl
  · rw [nil_append, map_reverse]

theorem length_digitsLoop (b fuel v : ℕ) : (digitsLoop b fuel v).length ≤ fuel := by
  induction fuel generalizing v with
  | zero => exact le_rfl
  | succ fuel ih =>
    unfold digitsLoop
    split_ifs
    · exact Nat.zero_le _
    · exact Nat.succ_le_succ (ih _)

theorem length_numeral_le (upper : Bool) (hb : 1 < base) (hv : v < base ^ 64) :
    (numeral upper base v).length ≤ 64 := by
  unfold numeral
  split_ifs
  · decide
  · rw [length_map, length_reverse, ← digitsLoop_eq hb hv]
    exact length_digitsLoop _ _ _

/-- **The bytes of `out_uint`**: a numeral, padded to the width. -/
theorem uintBytes_eq (hb : 1 < base) (hv : v < base ^ 64) (hw : w < 2 ^ 15) (upper zeroPad leftJustify : Bool) :
    uintBytes v base upper w zeroPad leftJustify = if leftJustify then numeral upper base v ++ replicate
    (w - (numeral upper base v).length) (chr ' ') else replicate (w - (numeral upper base v).length)
    (if zeroPad then chr '0' else chr ' ') ++ numeral upper base v := by
  have hlen := length_numeral_le upper hb hv
  have hrev := tmpDigits_reverse upper hb hv
  have htmp : (tmpDigits upper base v).length = (numeral upper base v).length := by
    rw [← hrev, length_reverse]
  have hpad : (toInt32 ((w : ℤ) - (tmpDigits upper base v).length)).toNat = w - (numeral upper base v).length := by
    rw [htmp, toInt32, Int.bmod_eq_of_le] <;> omega
  rw [uintBytes, padded, hpad, hrev]

def IntConv.bytes (c : IntConv) (sp : Spec) (v : ℤ) : List UInt8 :=
  if c.signed then intBytes v sp.width sp.zeroPad sp.leftJustify
  else uintBytes v.toNat c.base c.upper sp.width sp.zeroPad sp.leftJustify

theorem va_eq {isLong : Bool} (ha : a.kind = if isLong then .long else .int) (ap : List Arg) :
    vaInt isLong (a :: ap) = some (a.toInt, ap) ∧ vaUint isLong (a :: ap) = some (a.toNat, ap) := by
  cases isLong <;> cases a <;> first | cases ha; done | exact ⟨rfl, rfl⟩

theorem convert_intConv (c : IntConv) (sp : Spec)
    (ha : a.kind = if sp.isLong then .long else .int) (ap : List Arg) (buf size : ℕ) (o : Out) :
    convert buf size sp c.char (a :: ap) o = some (emit buf size o (c.bytes sp (c.value a)), ap) := by
  obtain ⟨hint, huint⟩ := va_eq ha ap
  cases c with
  | d => exact convert_int (.inl rfl) hint
  | i => exact convert_int (.inr rfl) hint
  | u => exact convert_uint huint
  | x => exact convert_hex (.inl rfl) huint
  | X => exact convert_hex (.inr rfl) huint

theorem IntConv.value_bounds (c : IntConv) (a : Arg) :
    -2 ^ 63 ≤ c.value a ∧ c.value a < 2 ^ 64 ∧ (c.signed = false → 0 ≤ c.value a) := by
  have hint : -2 ^ 63 ≤ a.toInt ∧ a.toInt < 2 ^ 63 := by
    cases a with
    | int v =>
      have h1 := BitVec.le_toInt v
      have h2 := BitVec.toInt_lt (x := v)
      simp only [Arg.toInt]
      omega
    | long v => exact ⟨BitVec.le_toInt v, BitVec.toInt_lt⟩
    | _ => exact ⟨by simp [Arg.toInt], by simp [Arg.toInt]⟩
  have hnat : a.toNat < 2 ^ 64 := by
    cases a with
    | int v => exact v.isLt.trans (by decide)
    | long v => exact v.isLt
    | _ => exact Nat.two_pow_pos _
  unfold value
  cases hc : c.signed with
  | true =>
    rw [if_pos rfl]
    exact ⟨hint.1, by omega, fun h => by cases h⟩
  | false =>
    rw [if_neg Bool.false_ne_true]
    exact ⟨by omega, by omega, fun _ => by omega⟩

/-- **The bytes of `out_int`** for a negative number: the sign comes before the padding. -/
theorem intBytes_neg {v : ℤ} (hv : v < 0) (hmin : -2 ^ 63 ≤ v) (w : ℕ) (zeroPad leftJustify : Bool) :
    intBytes v w zeroPad leftJustify =
      chr '-' :: uintBytes v.natAbs 10 false ((w - 1 : ℕ) : ℤ) zeroPad leftJustify := by
  have h1 : (-v % 2 ^ 64).toNat = v.natAbs := by omega
  have h2 : (if (0 : ℤ) < w then (w : ℤ) - 1 else 0) = ((w - 1 : ℕ) : ℤ) := by split_ifs <;> omega
  rw [intBytes, if_pos hv, h1, h2]

section
variable {flags : List Flag} {w base v : ℕ} {upper : Bool}

theorem uintBytes_eq_field (hb : 1 < base) (hv : v < base ^ 64) (hw : w < 2 ^ 15) (md : Modifier) :
    uintBytes v base upper w (specOf flags w md).zeroPad (specOf flags w md).leftJustify =
      field flags w [] (numeral upper base v) := by
  rw [uintBytes_eq hb hv hw, field, specOf]
  by_cases hminus : Flag.minus ∈ flags
  · simp [hminus]
  · by_cases hzero : Flag.zero ∈ flags <;> simp [hminus, hzero]

theorem minus_uintBytes_eq_field_iff (hb : 1 < base) (hv : v < base ^ 64) (hw : w < 2 ^ 15) (md : Modifier) :
    chr '-' :: uintBytes v base upper ((w - 1 : ℕ) : ℤ) (specOf flags w md).zeroPad
        (specOf flags w md).leftJustify = field flags w [chr '-'] (numeral upper base v) ↔
      (.minus ∈ flags ∨ .zero ∈ flags ∨ w ≤ (numeral upper base v).length + 1) := by
  rw [uintBytes_eq hb hv (by omega), field, specOf]
  generalize numeral upper base v = ds
  have hpad : w - 1 - ds.length = w - (1 + ds.length) := by omega
  rw [hpad, length_singleton]
  by_cases hminus : Flag.minus ∈ flags
  · simp [hminus]
  by_cases hzero : Flag.zero ∈ flags
  · simp [hminus, hzero]
  simp only [hminus, hzero, if_false, false_or, decide_false, Bool.false_eq_true]
  constructor
  · intro heq
    by_contra hlt
    -- with padding the first characters differ
    obtain ⟨k, hk⟩ : ∃ k, w - (1 + ds.length) = k + 1 := ⟨w - (1 + ds.length) - 1, by omega⟩
    rw [hk, replicate_succ, cons_append, cons_append, cons_append] at heq
    exact absurd (List.cons.inj heq).1 (by decide)
  · intro hle
    rw [show w - (1 + ds.length) = 0 by omega]
    rfl

end

/-- **The conversions agree with the C rules** unless the number is negative and padded with spaces on the left.
-/
theorem IntConv.bytes_eq_iff (c : IntConv) (flags : List Flag) (hw : w < 2 ^ 15) (md : Modifier)
    {v : ℤ} (hmin : -2 ^ 63 ≤ v) (hmax : v < 2 ^ 64) (hsigned : c.signed = false → 0 ≤ v) :
    c.bytes (specOf flags w md) v = integerField flags w c v ↔
      (0 ≤ v ∨ .minus ∈ flags ∨ .zero ∈ flags ∨ w ≤ (numeral c.upper c.base v.natAbs).length + 1) := by
  have hlt : v.natAbs < 10 ^ 64 := by omega
  by_cases hv : 0 ≤ v
  · refine iff_of_true ?_ (.inl hv)
    have hneg : ¬ v < 0 := by omega
    have htoNat : v.toNat = v.natAbs := by omega
    rw [integerField, if_neg hneg, bytes, intBytes, if_neg hneg, htoNat]
    cases c with
    | d | i | u => exact uintBytes_eq_field (by decide) hlt hw md
    | x | X => exact uintBytes_eq_field (by decide) (hlt.trans (by decide)) hw md
  · rw [integerField, if_pos (by omega), bytes]
    simp only [hv, false_or]
    cases c with
    | d | i =>
      have hbytes := intBytes_neg (by omega) hmin w (specOf flags w md).zeroPad (specOf flags w md).leftJustify
      simp only [signed, if_true]
      rw [show (specOf flags w md).width = w from rfl, hbytes]
      exact minus_uintBytes_eq_field_iff (by decide) hlt hw md
    | u | x | X => exact absurd (hsigned rfl) hv

theorem length_field (flags : List Flag) (w : ℕ) (sign ds : List UInt8) :
    (field flags w sign ds).length = max w (sign.length + ds.length) := by
  unfold field
  split_ifs <;> simp only [length_append, length_replicate] <;> omega

theorem length_uintBytes (hb : 1 < base) (hv : v < base ^ 64) (hw : w < 2 ^ 15) (upper zeroPad leftJustify : Bool) :
    (uintBytes v base upper w zeroPad leftJustify).length = max w (numeral upper base v).length := by
  rw [uintBytes_eq hb hv hw]
  split_ifs <;> simp only [length_append, length_replicate] <;> omega

theorem IntConv.length_bytes (c : IntConv) (flags : List Flag) (hw : w < 2 ^ 15) (md : Modifier)
    {v : ℤ} (hmin : -2 ^ 63 ≤ v) (hmax : v < 2 ^ 64) (hsigned : c.signed = false → 0 ≤ v) :
    (c.bytes (specOf flags w md) v).length = (integerField flags w c v).length := by
  have hlt : v.natAbs < 10 ^ 64 := by omega
  by_cases hv : 0 ≤ v
  · rw [(c.bytes_eq_iff flags hw md hmin hmax hsigned).2 (.inl hv)]
  rw [integerField, if_pos (by omega), bytes, length_field]
  cases c with
  | d | i =>
    have hbytes := intBytes_neg (by omega) hmin w (specOf flags w md).zeroPad (specOf flags w md).leftJustify
    simp only [signed, if_true, base, upper]
    rw [show (specOf flags w md).width = w from rfl, hbytes, length_cons,
      length_uintBytes (by decide) hlt (by omega), length_singleton]
    omega
  | u | x | X => exact absurd (hsigned rfl) hv

theorem length_integerField_lt (flags : List Flag) (hw : w < 2 ^ 15) (c : IntConv) {v : ℤ}
    (hmin : -2 ^ 63 ≤ v) (hmax : v < 2 ^ 64) : (integerField flags w c v).length < 2 ^ 31 := by
  have hlt : v.natAbs < 10 ^ 64 := by omega
  have hds : (numeral c.upper c.base v.natAbs).length ≤ 64 := by
    cases c with
    | d | i | u => exact length_numeral_le _ (by decide) hlt
    | x | X => exact length_numeral_le _ (by decide) (hlt.trans (by decide))
  have hsign : (if v < 0 then [chr '-'] else []).length ≤ 1 := by split_ifs <;> decide
  rw [integerField, length_field]
  omega

theorem IntConv.outputs_bytes (c : IntConv) (flags : List Flag) (hw : w < 2 ^ 15)
    (md : Modifier) (ha : a.kind = md.kind) (ap : List Arg) :
    Outputs (intFormat flags w md c) (a :: ap) (c.bytes (specOf flags w md) (c.value a)) := by
  refine outputs_of_loop fun buf size o => ?_
  have hconv := convert_intConv c (specOf flags w md) ha ap buf size o
  rw [intFormat, length_cons, vsnprintfLoop, if_neg (by decide), scanSpec_intFormat flags hw]
  simp only [hconv, bind, Option.bind, vsnprintfLoop]

/-- **The integer conversions** follow the C rules exactly if the number is not negative, or not padded on the
left. -/
theorem intFormat_outputs_iff (flags : List Flag) {w : ℕ} (hw : w < 2 ^ 15) (md : Modifier) (c : IntConv)
    {a : Arg} (ha : a.kind = md.kind) (ap : List Arg) :
    Outputs (intFormat flags w md c) (a :: ap) (integerField flags w c (c.value a)) ↔
      (0 ≤ c.value a ∨ .minus ∈ flags ∨ .zero ∈ flags ∨
        w ≤ (numeral c.upper c.base (c.value a).natAbs).length + 1) := by
  obtain ⟨hmin, hmax, hsigned⟩ := c.value_bounds a
  have hout := c.outputs_bytes flags hw md ha ap
  have hlen := length_integerField_lt flags hw c hmin hmax
  have hlen' := c.length_bytes flags hw md hmin hmax hsigned
  rw [← c.bytes_eq_iff flags hw md hmin hmax hsigned]
  constructor
  · intro h
    exact hout.unique h (by omega) hlen
  · intro h
    rwa [← h]

theorem intFormat_outputs_zeros :
    Outputs (intFormat [.zero] 5 .none .d) [.int (-42)] (integerField [.zero] 5 .d (-42)) :=
  (intFormat_outputs_iff [.zero] (by decide) .none .d rfl []).2 (.inr (.inr (.inl (by decide))))

/-- **A sign in front of the spaces.**  `"%5d"` of -42 is `"-  42"` and not `"  -42"`. -/
theorem intFormat_sign_first :
    Outputs (intFormat [] 5 .none .d) [.int (-42)] ("-  42".toList.map chr) ∧
      integerField [] 5 .d (IntConv.value .d (.int (-42))) = "  -42".toList.map chr ∧
      ¬ Outputs (intFormat [] 5 .none .d) [.int (-42)] (integerField [] 5 .d (IntConv.value .d (.int (-42)))) := by
  have hfield : integerField [] 5 .d (IntConv.value .d (.int (-42))) = "  -42".toList.map chr := by
    have h1 : IntConv.value .d (.int (-42)) = -42 := by decide
    have h2 : numeral false 10 42 = "42".toList.map chr := by
      simp only [numeral]
      norm_num
      decide
    rw [h1, integerField, if_pos (by decide)]
    exact (congrArg (field [] 5 [chr '-']) h2).trans (by decide)
  have hout := IntConv.outputs_bytes .d [] (w := 5) (by decide) .none (a := .int (-42)) rfl []
  have hbytes : IntConv.bytes .d (specOf [] 5 .none) (IntConv.value .d (.int (-42))) =
      "-  42".toList.map chr := by decide
  rw [hbytes] at hout
  refine ⟨hout, hfield, fun h => ?_⟩
  rw [hfield] at h
  exact absurd (hout.unique h (by decide) (by decide)) (by decide)

end Archis.Libc
