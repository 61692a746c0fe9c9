/-
  Numbers in strings: `strtol` and its relatives (`userspace/libc/stdlib.c`).

  A string is the list of its bytes without the NUL, a pointer into it the rest of the string.  `strtol_spec_iff`: the
  result is the longest number that the string begins with, saturated, unless that is none, a `0x` without a digit, or
  out of range.
-/
import Archis.Lib.Numeral

namespace Archis.Libc

open Archis.Lib List

/-! ## The scanner -/

def isSpace (c : UInt8) : Bool :=
  c = chr ' ' || c = chr '\t' || c = chr '\n' || c = chr '\r' || c = 12 || c = 11

def digitVal (c : UInt8) (base : ℕ) : Option ℕ :=
  let val? :=
    if chr '0' ≤ c ∧ c ≤ chr '9' then some (c.toNat - 48)
    else if chr 'a' ≤ c ∧ c ≤ chr 'z' then some (c.toNat - 97 + 10)
    else if chr 'A' ≤ c ∧ c ≤ chr 'Z' then some (c.toNat - 65 + 10)
    else none
  val?.filter (· < base)

def scanSign : List UInt8 → List UInt8 × List UInt8
  | [] => ([], [])
  | c :: s => if c = chr '-' ∨ c = chr '+' then ([c], s) else ([], c :: s)

/-- `s[0] == '0' && (s[1] == 'x' || s[1] == 'X')` -/
def hexPrefix : List UInt8 → Bool
  | c :: d :: _ => c = chr '0' ∧ (d = chr 'x' ∨ d = chr 'X')
  | _ => false

/-- The base that is guessed from the string if it is 0. -/
def guessBase (base : ℕ) (s : List UInt8) : ℕ :=
  if base = 0 then
    if hexPrefix s then 16
    else if s.head? = some (chr '0') then 8
    else 10
  else base

/-- The loop over the digits: the value, whether there were any, and the rest. -/
def digitLoop (base : ℕ) : List UInt8 → ℕ → Bool → ℕ × Bool × List UInt8
  | [], result, any => (result, any, [])
  | c :: s, result, any =>
    match digitVal c base with
    | some d => digitLoop base s ((result * base + d) % 2 ^ 64) true
    | none => (result, any, c :: s)

structure Parsed where
  val : ℕ
  endPos : ℕ
  neg : Bool
  deriving DecidableEq

section
variable (s : List UInt8) (base : ℕ)

def parseUll : Parsed :=
  let (sign, r) := scanSign (s.dropWhile isSpace)
  let neg := sign = [chr '-']
  let base := guessBase base r
  let r := if base = 16 ∧ hexPrefix r then r.drop 2 else r
  let (result, any, r) := digitLoop base r 0 false
  let pos := s.length - r.length
  ⟨result, if any then pos else pos - (if neg ∨ r.head? = some (chr '+') then 1 else 0), neg⟩

/-- The value and the end, for a signed type of 64 bits. -/
def signedResult (p : Parsed) : ℤ × ℕ := (toInt64 (if p.neg then -toInt64 p.val else toInt64 p.val), p.endPos)

def unsignedResult (p : Parsed) : ℤ × ℕ := (if p.neg then -(p.val : ℤ) % 2 ^ 64 else p.val, p.endPos)

def strtol : ℤ × ℕ := signedResult (parseUll s base)

def strtoul : ℤ × ℕ := unsignedResult (parseUll s base)

def strtoll : ℤ × ℕ := signedResult (parseUll s base)

def strtoull : ℤ × ℕ := unsignedResult (parseUll s base)

/-! ## The specification -/

def IsDigit (c : UInt8) : Prop := (digitVal c base).isSome = true

instance (c : UInt8) : Decidable (IsDigit base c) := inferInstanceAs (Decidable (_ = true))

def digitsValue (ds : List UInt8) : ℕ := horner base 0 (ds.map fun c => (digitVal c base).getD 0)

def plainBase (ds : List UInt8) : ℕ :=
  if base = 0 then (if ds.head? = some (chr '0') then 8 else 10) else base

/-- The longest unsigned number that a text begins with, and its value: all the digits after a `0x` if there are
any and the base allows it, or else all the digits. -/
def longestUnsigned (r : List UInt8) : Option (List UInt8 × ℕ) :=
  if (base = 0 ∨ base = 16) ∧ hexPrefix r ∧ (r.drop 2).takeWhile (IsDigit 16) ≠ [] then
    some (r.take 2 ++ (r.drop 2).takeWhile (IsDigit 16), digitsValue 16 ((r.drop 2).takeWhile (IsDigit 16)))
  else
    let ds := r.takeWhile (IsDigit (plainBase base r))
    if ds = [] then none else some (ds, digitsValue (plainBase base r) ds)

def lead : List UInt8 := s.takeWhile isSpace ++ (scanSign (s.dropWhile isSpace)).1

def body : List UInt8 := (scanSign (s.dropWhile isSpace)).2

def isNeg : Bool := (scanSign (s.dropWhile isSpace)).1 = [chr '-']

def withSign (n : ℕ) : ℤ := if isNeg s then -n else n

end

def saturate (lo hi v : ℤ) : ℤ := max lo (min hi v)

/-- What a function for the numbers from `lo` to `hi` should return. -/
def StrtolSpec (lo hi : ℤ) (base : ℕ) (s : List UInt8) (r : ℤ × ℕ) : Prop :=
  r = match longestUnsigned base (body s) with
    | some (q, n) => (saturate lo hi (withSign s n), (lead s ++ q).length)
    | none => (0, 0)

/-! ## White space, sign and prefix -/

section
variable {base : ℕ} {c : UInt8} {r : List UInt8} (s : List UInt8)

theorem not_isDigit_x (hb : base ≤ 16) (hc : c = chr 'x' ∨ c = chr 'X') : ¬ IsDigit base c := by
  have hval : digitVal c base = (some 33).filter (· < base) := by
    rcases hc with rfl | rfl <;> rfl
  simp only [IsDigit, hval, Option.filter_some, decide_eq_true_eq]
  rw [if_neg (by omega)]
  exact Bool.false_ne_true

theorem hexPrefix_iff : hexPrefix r = true ↔ ∃ x t, r = chr '0' :: x :: t ∧ (x = chr 'x' ∨ x = chr 'X') := by
  constructor
  · intro h
    match r, h with
    | c :: d :: t, h =>
      obtain ⟨rfl, hd⟩ := of_decide_eq_true h
      exact ⟨d, t, rfl, hd⟩
  · rintro ⟨x, t, rfl, hx⟩
    exact decide_eq_true ⟨rfl, hx⟩

theorem plainBase_zero (hb : base = 0 ∨ base = 16) (t : List UInt8) :
    plainBase base (chr '0' :: t) = 8 ∨ plainBase base (chr '0' :: t) = 16 := by
  rcases hb with rfl | rfl
  · exact .inl rfl
  · exact .inr rfl

theorem takeWhile_hexPrefix (hb : base = 0 ∨ base = 16) (h : hexPrefix r = true) :
    r.takeWhile (IsDigit (plainBase base r)) = [chr '0'] := by
  obtain ⟨x, t, rfl, hx⟩ := hexPrefix_iff.1 h
  have hx : ∀ b ≤ 16, ¬ IsDigit b x := fun b hb => not_isDigit_x hb hx
  have h0 : plainBase base (chr '0' :: x :: t) ≤ 16 ∧ IsDigit (plainBase base (chr '0' :: x :: t)) (chr '0') := by
    rcases plainBase_zero hb (x :: t) with h | h <;> rw [h] <;> exact ⟨by decide, by decide⟩
  rw [takeWhile_cons_of_pos (by simpa using h0.2), takeWhile_cons_of_neg]
  simpa using hx _ h0.1

theorem scanSign_append : (scanSign s).1 ++ (scanSign s).2 = s := by
  cases s with
  | nil => rfl
  | cons c s =>
    simp only [scanSign]
    split_ifs <;> rfl

theorem lead_append_body : lead s ++ body s = s := by
  rw [lead, body, append_assoc, scanSign_append, takeWhile_append_dropWhile]

theorem scanSign_cases : (scanSign s).1 = [] ∨ (scanSign s).1 = [chr '+'] ∨ (scanSign s).1 = [chr '-'] := by
  cases s with
  | nil => exact .inl rfl
  | cons c s =>
    simp only [scanSign]
    split_ifs with h
    · rcases h with rfl | rfl
      · exact .inr (.inr rfl)
      · exact .inr (.inl rfl)
    · exact .inl rfl

end

/-! ## What the scanner finds -/

section
variable {base : ℕ} {s : List UInt8}

theorem horner_mod (b : ℕ) (ds : List ℕ) (a : ℕ) :
    ds.foldl (fun r d => (r * b + d) % 2 ^ 64) (a % 2 ^ 64) = horner b a ds % 2 ^ 64 := by
  induction ds generalizing a with
  | nil => rfl
  | cons d ds ih =>
    have h1 : (a % 2 ^ 64 * b + d) % 2 ^ 64 = (a * b + d) % 2 ^ 64 := by
      rw [Nat.add_mod, Nat.mod_mul_mod, ← Nat.add_mod]
    rw [foldl_cons, h1, ih, horner_cons]

theorem digitLoop_eq (base : ℕ) (r : List UInt8) (a : ℕ) (any : Bool) : digitLoop base r a any =
    (((r.takeWhile (IsDigit base)).map fun c => (digitVal c base).getD 0).foldl
    (fun r d => (r * base + d) % 2 ^ 64) a, any || decide (r.takeWhile (IsDigit base) ≠ []),
    r.dropWhile (IsDigit base)) := by
  induction r generalizing a any with
  | nil => simp [digitLoop]
  | cons c r ih =>
    unfold digitLoop
    cases hc : digitVal c base with
    | some d =>
      have hd : IsDigit base c := by rw [IsDigit, hc]; rfl
      simp only [ih]
      rw [takeWhile_cons_of_pos (by simpa using hd), dropWhile_cons_of_pos (by simpa using hd)]
      simp [hc]
    | none =>
      have hd : ¬ IsDigit base c := by rw [IsDigit, hc]; exact Bool.false_ne_true
      rw [takeWhile_cons_of_neg (by simpa using hd), dropWhile_cons_of_neg (by simpa using hd)]
      simp

theorem digitLoop_zero (base : ℕ) (r : List UInt8) : digitLoop base r 0 false =
    (digitsValue base (r.takeWhile (IsDigit base)) % 2 ^ 64,
    decide (r.takeWhile (IsDigit base) ≠ []), r.dropWhile (IsDigit base)) := by
  have h := horner_mod base ((r.takeWhile (IsDigit base)).map fun c => (digitVal c base).getD 0) 0
  rw [Nat.zero_mod] at h
  rw [digitLoop_eq, h, Bool.false_or]
  rfl

/-- The end of the scan, and what is left of the string, when `t` was read before the digits `ds`. -/
def scanEnd (s t ds r : List UInt8) : ℕ :=
  if ds ≠ [] then (lead s ++ (t ++ ds)).length
  else (lead s ++ t).length - (if isNeg s = true ∨ r.head? = some (chr '+') then 1 else 0)

theorem parse_eq {b : ℕ} {t r : List UInt8} (hbody : body s = t ++ r)
    (hb : guessBase base (body s) = b) (hr : (if b = 16 ∧ hexPrefix (body s) then (body s).drop 2
    else body s) = r) : parseUll s base = ⟨digitsValue b (r.takeWhile (IsDigit b)) % 2 ^ 64,
    scanEnd s t (r.takeWhile (IsDigit b)) r, isNeg s⟩ := by
  have hlen := congrArg List.length (lead_append_body s)
  have hsplit := congrArg List.length (takeWhile_append_dropWhile (p := IsDigit b) (l := r))
  rw [hbody, length_append, length_append] at hlen
  rw [length_append] at hsplit
  have hparse : parseUll s base =
      ⟨(digitLoop b r 0 false).1, if (digitLoop b r 0 false).2.1 then s.length - (digitLoop b r 0 false).2.2.length
        else s.length - (digitLoop b r 0 false).2.2.length -
          (if isNeg s = true ∨ (digitLoop b r 0 false).2.2.head? = some (chr '+') then 1 else 0), isNeg s⟩ := by
    subst hb hr
    simp only [parseUll, isNeg, decide_eq_true_eq]
    rfl
  rw [hparse, digitLoop_zero, scanEnd]
  by_cases hds : r.takeWhile (IsDigit b) = []
  · have hrest : r.dropWhile (IsDigit b) = r := by
      have := takeWhile_append_dropWhile (p := IsDigit b) (l := r)
      rwa [hds, nil_append] at this
    simp only [hds, hrest, ne_eq, not_true_eq_false, decide_false, Bool.false_eq_true, if_false]
    rw [show s.length - r.length = (lead s ++ t).length by rw [length_append]; omega]
  · simp only [hds, ne_eq, not_false_eq_true, decide_true, if_true]
    rw [show s.length - (r.dropWhile (IsDigit b)).length =
      (lead s ++ (t ++ r.takeWhile (IsDigit b))).length by simp only [length_append]; omega]

theorem parse_hex (hb : base = 0 ∨ base = 16) (hp : hexPrefix (body s) = true) : parseUll s base =
    ⟨digitsValue 16 (((body s).drop 2).takeWhile (IsDigit 16)) % 2 ^ 64, scanEnd s ((body s).take 2)
    (((body s).drop 2).takeWhile (IsDigit 16)) ((body s).drop 2), isNeg s⟩ := by
  refine parse_eq (take_append_drop 2 _).symm ?_ (if_pos ⟨rfl, hp⟩)
  rcases hb with rfl | rfl
  · rw [guessBase, if_pos rfl, if_pos hp]
  · rfl

theorem parse_plain (h : ¬ ((base = 0 ∨ base = 16) ∧ hexPrefix (body s) = true)) : parseUll s base =
    ⟨digitsValue (plainBase base (body s)) ((body s).takeWhile (IsDigit (plainBase base (body s)))) % 2 ^ 64,
    scanEnd s [] ((body s).takeWhile (IsDigit (plainBase base (body s)))) (body s), isNeg s⟩ := by
  have hguess : guessBase base (body s) = plainBase base (body s) := by
    unfold guessBase plainBase
    by_cases h0 : base = 0
    · rw [if_pos h0, if_pos h0, if_neg fun hp => h ⟨.inl h0, hp⟩]
    · rw [if_neg h0, if_neg h0]
  refine parse_eq rfl hguess (if_neg ?_)
  rintro ⟨h16, hp⟩
  refine h ⟨?_, hp⟩
  by_contra hb
  rw [not_or] at hb
  rw [plainBase, if_neg hb.1] at h16
  exact hb.2 h16

end

/-! ## When the functions are right -/

section
variable {base : ℕ} {s : List UInt8}

/-- A `0x` without a digit after it. -/
def BareHex (base : ℕ) (r : List UInt8) : Prop :=
  (base = 0 ∨ base = 16) ∧ hexPrefix r = true ∧ (r.drop 2).takeWhile (IsDigit 16) = []

/-- The end is found: after a bare `0x` only if there was a `-`, or a `+` follows, and without a number only if
there is no white space, and no `+` but one before another. -/
def FindsEnd (base : ℕ) (s : List UInt8) : Prop :=
  (BareHex base (body s) → isNeg s = true ∨ ((body s).drop 2).head? = some (chr '+')) ∧
    (longestUnsigned base (body s) = none →
      s.takeWhile isSpace = [] ∧ ((scanSign (s.dropWhile isSpace)).1 = [chr '+'] → (body s).head? = some (chr '+')))

/-- The value is in the range, or its low bits are those of the bound that it exceeds. -/
def Fits (lo v : ℤ) : Prop :=
  (lo ≤ v ∧ v < lo + 2 ^ 64) ∨ (lo + 2 ^ 64 ≤ v ∧ (v + 1 - lo) % 2 ^ 64 = 0) ∨ (v < lo ∧ (v - lo) % 2 ^ 64 = 0)

def FitsIn (lo : ℤ) (base : ℕ) (s : List UInt8) : Prop :=
  ∀ q n, longestUnsigned base (body s) = some (q, n) → Fits lo (withSign s n)

/-- The number with the low bits of `v`, from `lo` on. -/
def wrap (lo v : ℤ) : ℤ := lo + (v - lo) % 2 ^ 64

theorem wrap_eq_saturate_iff (lo v : ℤ) : wrap lo v = saturate lo (lo + 2 ^ 64 - 1) v ↔ Fits lo v := by
  unfold wrap saturate Fits
  omega

theorem longestUnsigned_bareHex {r : List UInt8} (h : BareHex base r) :
    longestUnsigned base r = some ([chr '0'], 0) := by
  obtain ⟨hb, hp, hnil⟩ := h
  have hds := takeWhile_hexPrefix hb hp
  have hval : digitsValue (plainBase base r) [chr '0'] = 0 := by
    obtain ⟨x, t, rfl, -⟩ := hexPrefix_iff.1 hp
    rcases plainBase_zero hb (x :: t) with h | h <;> rw [h] <;> rfl
  unfold longestUnsigned
  dsimp only
  rw [if_neg (fun h => h.2.2 hnil), hds, if_neg (cons_ne_nil _ _), hval]

/-- **What the scanner finds**, in the three cases. -/
theorem parse_cases (base : ℕ) (s : List UInt8) : (BareHex base (body s) ∧ parseUll s base =
    ⟨0, (lead s).length + 2 - (if isNeg s = true ∨ ((body s).drop 2).head? = some (chr '+') then 1
    else 0), isNeg s⟩) ∨ (¬ BareHex base (body s) ∧ ∃ q n, longestUnsigned base (body s) = some
    (q, n) ∧ parseUll s base = ⟨n % 2 ^ 64, (lead s ++ q).length, isNeg s⟩) ∨
    (¬ BareHex base (body s) ∧ longestUnsigned base (body s) = none ∧ parseUll s base =
    ⟨0, (lead s).length - (if isNeg s = true ∨ (body s).head? = some (chr '+') then 1 else 0),
    isNeg s⟩) := by
  by_cases hhex : (base = 0 ∨ base = 16) ∧ hexPrefix (body s) = true
  · have hlen : ((body s).take 2).length = 2 := by
      obtain ⟨x, t, hx, -⟩ := hexPrefix_iff.1 hhex.2
      rw [hx]
      rfl
    have hparse := parse_hex hhex.1 hhex.2
    by_cases hds : ((body s).drop 2).takeWhile (IsDigit 16) = []
    · refine .inl ⟨⟨hhex.1, hhex.2, hds⟩, ?_⟩
      rw [hparse, hds, scanEnd, if_neg (by simp), length_append, hlen]
      rfl
    · refine .inr (.inl ⟨fun h => hds h.2.2, _, _, if_pos ⟨hhex.1, hhex.2, hds⟩, ?_⟩)
      rw [hparse, scanEnd, if_pos hds]
  · have hparse := parse_plain hhex
    have hbare : ¬ BareHex base (body s) := fun h => hhex ⟨h.1, h.2.1⟩
    have hlongest : longestUnsigned base (body s) =
        if (body s).takeWhile (IsDigit (plainBase base (body s))) = [] then none
        else some ((body s).takeWhile (IsDigit (plainBase base (body s))),
          digitsValue (plainBase base (body s)) ((body s).takeWhile (IsDigit (plainBase base (body s))))) :=
      if_neg fun h => hhex ⟨h.1, h.2.1⟩
    by_cases hds : (body s).takeWhile (IsDigit (plainBase base (body s))) = []
    · refine .inr (.inr ⟨hbare, hlongest.trans (if_pos hds), ?_⟩)
      rw [hparse, hds, scanEnd, if_neg (by simp), append_nil]
      rfl
    · refine .inr (.inl ⟨hbare, _, _, hlongest.trans (if_neg hds), ?_⟩)
      rw [hparse, scanEnd, if_pos hds, nil_append]

theorem head_ne_plus {t : List UInt8} (h : (scanSign t).1 = []) : (scanSign t).2.head? ≠ some (chr '+') := by
  cases t with
  | nil => exact fun h => by cases h
  | cons c t =>
    by_cases hc : c = chr '-' ∨ c = chr '+'
    · rw [scanSign, if_pos hc] at h
      cases h
    · rw [scanSign, if_neg hc]
      intro hhead
      exact hc (.inr (Option.some.inj hhead))

theorem end_eq_zero_iff (s : List UInt8) : (lead s).length - (if isNeg s = true ∨
    (body s).head? = some (chr '+') then 1 else 0) = 0 ↔ s.takeWhile isSpace = [] ∧
    ((scanSign (s.dropWhile isSpace)).1 = [chr '+'] → (body s).head? = some (chr '+')) := by
  rw [lead, length_append, ← length_eq_zero_iff, isNeg, body]
  rcases scanSign_cases (s.dropWhile isSpace) with h | h | h
  · have hplus := head_ne_plus h
    simp [h, hplus]
  · by_cases hplus : (scanSign (s.dropWhile isSpace)).2.head? = some (chr '+')
    · simp [h, hplus]
    · have hsign : ¬ ([chr '+'] : List UInt8) = [chr '-'] := by decide
      simp [h, hplus, hsign]
  · have hsign : ¬ ([chr '-'] : List UInt8) = [chr '+'] := by decide
    simp [h, hsign]

theorem wrap_congr {lo x y : ℤ} (h : x % 2 ^ 64 = y % 2 ^ 64) : wrap lo x = wrap lo y := by
  unfold wrap
  omega

/-- **The scanner against the specification**, for a type whose numbers begin with `lo`. -/
theorem spec_iff (lo : ℤ) (hlo : lo ≤ 0) (hhi : 0 < lo + 2 ^ 64) (base : ℕ) (s : List UInt8) :
    StrtolSpec lo (lo + 2 ^ 64 - 1) base s (wrap lo
    (if (parseUll s base).neg then -((parseUll s base).val : ℤ) else (parseUll s base).val),
    (parseUll s base).endPos) ↔ FindsEnd base s ∧ FitsIn lo base s := by
  have hzero : wrap lo 0 = 0 := by unfold wrap; omega
  have hval : ∀ x : ℤ, x = 0 → wrap lo (if isNeg s then -x else x) = 0 := by
    rintro x rfl
    rw [neg_zero, ite_self, hzero]
  unfold StrtolSpec FindsEnd FitsIn
  rcases parse_cases base s with ⟨hbare, hparse⟩ | ⟨hbare, q, n, hsome, hparse⟩ | ⟨hbare, hnone, hparse⟩
  · have hv : withSign s 0 = 0 := by unfold withSign; split_ifs <;> rfl
    have hsat : saturate lo (lo + 2 ^ 64 - 1) 0 = 0 := by unfold saturate; omega
    have hfits : Fits lo 0 := by rw [← wrap_eq_saturate_iff, hzero, hsat]
    rw [hparse, longestUnsigned_bareHex hbare]
    simp only [hval _ Nat.cast_zero, hv, hsat, Prod.mk.injEq, true_and, length_append, length_singleton,
      hbare, true_imp_iff, reduceCtorEq, false_imp_iff, and_true, Option.some.injEq]
    constructor
    · intro hend
      refine ⟨?_, ?_⟩
      · by_contra hcond
        rw [if_neg hcond] at hend
        omega
      · rintro _ _ ⟨-, rfl⟩
        rwa [hv]
    · rintro ⟨hcond, -⟩
      rw [if_pos hcond]
      omega
  · have hwrap : wrap lo (if isNeg s then -((n % 2 ^ 64 : ℕ) : ℤ) else ((n % 2 ^ 64 : ℕ) : ℤ)) =
        wrap lo (withSign s n) := by
      refine wrap_congr ?_
      unfold withSign
      split_ifs <;> omega
    rw [hparse, hsome]
    simp only [hwrap, Prod.mk.injEq, and_true, wrap_eq_saturate_iff, hbare, false_imp_iff, true_and, reduceCtorEq,
      Option.some.injEq]
    constructor
    · rintro hfits _ _ ⟨-, rfl⟩
      exact hfits
    · exact fun hfits => hfits q n ⟨rfl, rfl⟩
  · rw [hparse, hnone]
    simp only [hval _ Nat.cast_zero, Prod.mk.injEq, true_and, end_eq_zero_iff, hbare, false_imp_iff, true_imp_iff,
      reduceCtorEq, implies_true, and_true]

theorem signedResult_eq (p : Parsed) :
    signedResult p = (wrap (-2 ^ 63) (if p.neg then -(p.val : ℤ) else p.val), p.endPos) := by
  have hwrap : ∀ x : ℤ, toInt64 x = wrap (-2 ^ 63) x := by
    intro x
    unfold toInt64 wrap
    rw [Int.bmod_def]
    split_ifs <;> omega
  have hlow : ∀ x : ℤ, wrap (-2 ^ 63) x % 2 ^ 64 = x % 2 ^ 64 := by
    intro x
    unfold wrap
    omega
  refine Prod.ext ?_ rfl
  simp only [signedResult, hwrap]
  refine wrap_congr ?_
  cases p.neg with
  | true =>
    have := hlow p.val
    simp only [if_true]
    omega
  | false =>
    rw [if_neg Bool.false_ne_true, if_neg Bool.false_ne_true]
    exact hlow p.val

theorem val_lt (s : List UInt8) (base : ℕ) : (parseUll s base).val < 2 ^ 64 := by
  rcases parse_cases base s with ⟨-, h⟩ | ⟨-, q, n, -, h⟩ | ⟨-, -, h⟩
  · rw [h]; exact Nat.two_pow_pos 64
  · rw [h]; exact Nat.mod_lt _ (Nat.two_pow_pos 64)
  · rw [h]; exact Nat.two_pow_pos 64

theorem unsignedResult_eq {p : Parsed} (h : p.val < 2 ^ 64) :
    unsignedResult p = (wrap 0 (if p.neg then -(p.val : ℤ) else p.val), p.endPos) := by
  refine Prod.ext ?_ rfl
  simp only [unsignedResult, wrap]
  split_ifs <;> omega

theorem signed_spec_iff (s : List UInt8) (base : ℕ) : StrtolSpec (-2 ^ 63) (2 ^ 63 - 1) base s
    (signedResult (parseUll s base)) ↔ FindsEnd base s ∧ FitsIn (-2 ^ 63) base s := by
  have hhi : (-2 ^ 63 + 2 ^ 64 - 1 : ℤ) = 2 ^ 63 - 1 := by norm_num
  have h := spec_iff (-2 ^ 63) (by norm_num) (by norm_num) base s
  rwa [← signedResult_eq, hhi] at h

theorem unsigned_spec_iff (s : List UInt8) (base : ℕ) : StrtolSpec 0 (2 ^ 64 - 1) base s
    (unsignedResult (parseUll s base)) ↔ FindsEnd base s ∧ FitsIn 0 base s := by
  have h := spec_iff 0 le_rfl (by norm_num) base s
  rwa [← unsignedResult_eq (val_lt s base), zero_add] at h

/-- **The four functions** return the value and the end of the longest number exactly if they find it and it
fits. -/
theorem strtol_spec_iff (s : List UInt8) (base : ℕ) : (StrtolSpec (-2 ^ 63) (2 ^ 63 - 1) base s (strtol s base) ↔
    FindsEnd base s ∧ FitsIn (-2 ^ 63) base s) ∧ (StrtolSpec 0 (2 ^ 64 - 1) base s (strtoul s base) ↔
    FindsEnd base s ∧ FitsIn 0 base s) ∧ (StrtolSpec (-2 ^ 63) (2 ^ 63 - 1) base s (strtoll s base) ↔
    FindsEnd base s ∧ FitsIn (-2 ^ 63) base s) ∧ (StrtolSpec 0 (2 ^ 64 - 1) base s (strtoull s base) ↔
    FindsEnd base s ∧ FitsIn 0 base s) :=
  ⟨signed_spec_iff s base, unsigned_spec_iff s base, signed_spec_iff s base, unsigned_spec_iff s base⟩

end

/-! ## Strings that are read wrongly -/

/-- **Three strings that are read wrongly**: 2 ^ 63 is negated, and the ends of `" "` and `"0x"` are one too far.
-/
theorem strtol_misreads :
    strtol ("9223372036854775808".toList.map chr) 10 = (-2 ^ 63, 19) ∧
      strtol [chr ' '] 10 = (0, 1) ∧ strtol [chr '0', chr 'x'] 16 = (0, 2) ∧
      ¬ StrtolSpec (-2 ^ 63) (2 ^ 63 - 1) 10 ("9223372036854775808".toList.map chr)
        (strtol ("9223372036854775808".toList.map chr) 10) ∧
      ¬ StrtolSpec (-2 ^ 63) (2 ^ 63 - 1) 10 [chr ' '] (strtol [chr ' '] 10) ∧
      ¬ StrtolSpec (-2 ^ 63) (2 ^ 63 - 1) 16 [chr '0', chr 'x'] (strtol [chr '0', chr 'x'] 16) := by
  refine ⟨by decide +kernel, by decide +kernel, by decide +kernel, fun h => ?_, fun h => ?_, fun h => ?_⟩
  · have hsome : longestUnsigned 10 (body ("9223372036854775808".toList.map chr)) =
        some ("9223372036854775808".toList.map chr, 2 ^ 63) := by decide +kernel
    have hneg : isNeg ("9223372036854775808".toList.map chr) = false := by decide +kernel
    have hfits := ((signed_spec_iff _ _).1 h).2 _ _ hsome
    rw [withSign, hneg, if_neg Bool.false_ne_true] at hfits
    norm_num [Fits] at hfits
  · have hend := ((signed_spec_iff _ _).1 h).1.2 (by decide +kernel)
    exact absurd hend.1 (by decide +kernel)
  · have hend := ((signed_spec_iff _ _).1 h).1.1 ⟨.inr rfl, by decide +kernel, by decide +kernel⟩
    exact absurd hend (by decide +kernel)

end Archis.Libc
