/-
  Text as lists of characters: its encodings and ASCII case.

    * `utf16Encode` and `utf16DecodeLossy`: code units, with an unpaired surrogate read as the
      replacement character; `utf16DecodeLossy_encode` is the round trip;
    * `utf8Encode` and `utf8Decode`: bytes, over the coder of the core library
      (`utf8Decode_encode`);
    * `eqIgnoreAsciiCase`: equality up to the case of ASCII letters.
-/
import Mathlib

namespace Archis.Lib

open List

/-! ## UTF-16 -/

def utf16Char (c : Char) : List ℕ :=
  if c.toNat < 0x10000 then [c.toNat]
  else [0xD800 + (c.toNat - 0x10000) / 0x400, 0xDC00 + (c.toNat - 0x10000) % 0x400]

def utf16Encode (s : List Char) : List ℕ := s.flatMap utf16Char

def IsSurrogate (u : ℕ) : Prop := 0xD800 ≤ u ∧ u ≤ 0xDFFF

instance (u : ℕ) : Decidable (IsSurrogate u) := inferInstanceAs (Decidable (_ ∧ _))

def IsPair (u v : ℕ) : Prop := (0xD800 ≤ u ∧ u ≤ 0xDBFF) ∧ 0xDC00 ≤ v ∧ v ≤ 0xDFFF

instance (u v : ℕ) : Decidable (IsPair u v) := inferInstanceAs (Decidable (_ ∧ _))

def replacementChar : Char := '�'

/-- The text of a list of code units; what is no text becomes replacement characters. -/
def utf16DecodeLossy : List ℕ → List Char
  | [] => []
  | [u] => [if IsSurrogate u then replacementChar else Char.ofNat u]
  | u :: v :: us =>
    if ¬ IsSurrogate u then Char.ofNat u :: utf16DecodeLossy (v :: us)
    else if IsPair u v then
      Char.ofNat (0x10000 + (u - 0xD800) * 0x400 + (v - 0xDC00)) :: utf16DecodeLossy us
    else replacementChar :: utf16DecodeLossy (v :: us)

variable {c : Char} {s : List Char}

theorem toNat_valid (c : Char) : c.toNat < 0xD800 ∨ 0xDFFF < c.toNat ∧ c.toNat < 0x110000 := c.valid

theorem utf16Char_lt (c : Char) : ∀ u ∈ utf16Char c, u < 2 ^ 16 := by
  intro u hu
  have hv := toNat_valid c
  unfold utf16Char at hu
  split_ifs at hu with h
  · rw [mem_singleton] at hu
    omega
  · simp only [mem_cons, not_mem_nil, or_false] at hu
    omega

theorem utf16Encode_lt (s : List Char) : ∀ u ∈ utf16Encode s, u < 2 ^ 16 := by
  intro u hu
  obtain ⟨c, -, hc⟩ := mem_flatMap.1 hu
  exact utf16Char_lt c u hc

/-- A unit that stands for no part of a pair is the unit of one character only. -/
theorem toNat_of_mem_utf16Char {u : ℕ} (hs : ¬ IsSurrogate u) (hu : u ∈ utf16Char c) : c.toNat = u := by
  have hv := toNat_valid c
  unfold IsSurrogate at hs
  unfold utf16Char at hu
  split_ifs at hu with h
  · rw [mem_singleton] at hu
    exact hu.symm
  · simp only [mem_cons, not_mem_nil, or_false] at hu
    omega

theorem utf16DecodeLossy_char_append (c : Char) (us : List ℕ) :
    utf16DecodeLossy (utf16Char c ++ us) = c :: utf16DecodeLossy us := by
  have hv := toNat_valid c
  unfold utf16Char
  split_ifs with h
  · have hs : ¬ IsSurrogate c.toNat := by unfold IsSurrogate; omega
    cases us with
    | nil =>
      simp only [append_nil, utf16DecodeLossy, if_neg hs, Char.ofNat_toNat]
    | cons v us => rw [cons_append, nil_append, utf16DecodeLossy, if_pos hs, Char.ofNat_toNat]
  · have hs : IsSurrogate (0xD800 + (c.toNat - 0x10000) / 0x400) := by unfold IsSurrogate; omega
    have hp : IsPair (0xD800 + (c.toNat - 0x10000) / 0x400)
        (0xDC00 + (c.toNat - 0x10000) % 0x400) := by unfold IsPair; omega
    have hn : 0x10000 + (0xD800 + (c.toNat - 0x10000) / 0x400 - 0xD800) * 0x400 +
        (0xDC00 + (c.toNat - 0x10000) % 0x400 - 0xDC00) = c.toNat := by omega
    rw [cons_append, cons_append, nil_append, utf16DecodeLossy, if_neg (not_not.2 hs),
      if_pos hp, hn, Char.ofNat_toNat]

theorem utf16DecodeLossy_encode : ∀ s : List Char, utf16DecodeLossy (utf16Encode s) = s
  | [] => rfl
  | c :: s => by
    rw [utf16Encode, flatMap_cons, ← utf16Encode, utf16DecodeLossy_char_append, utf16DecodeLossy_encode s]

/-- Dropping the units of a character that takes one unit drops the character. -/
theorem filter_utf16Encode {x : Char} (hx : x.toNat < 0x10000) : ∀ s : List Char,
    (utf16Encode s).filter (· ≠ x.toNat) = utf16Encode (s.filter (· ≠ x))
  | [] => rfl
  | c :: s => by
    have ih := filter_utf16Encode hx s
    have hv := toNat_valid x
    have hs : ¬ IsSurrogate x.toNat := by unfold IsSurrogate; omega
    rw [utf16Encode, flatMap_cons, ← utf16Encode, filter_append, ih]
    by_cases hc : c = x
    · subst hc
      have h1 : (utf16Char c).filter (· ≠ c.toNat) = [] := by
        rw [utf16Char, if_pos hx]; simp
      rw [h1, nil_append, filter_cons_of_neg (by simp)]
    · have h1 : (utf16Char c).filter (· ≠ x.toNat) = utf16Char c := by
        rw [filter_eq_self]
        intro u hu
        rw [decide_eq_true_eq]
        rintro rfl
        exact hc (Char.toNat_inj.1 (toNat_of_mem_utf16Char hs hu))
      rw [h1, filter_cons_of_pos (by simpa using hc)]
      rfl

/-! ## UTF-8 -/

def utf8Encode (s : List Char) : List UInt8 := s.flatMap String.utf8EncodeChar

/-- The text of the bytes, if they are UTF-8. -/
def utf8Decode (l : List UInt8) : Option (List Char) :=
  l.toByteArray.utf8Decode?.map Array.toList

theorem utf8Decode_encode (s : List Char) : utf8Decode (utf8Encode s) = some s := by
  have h1 : (utf8Encode s).toByteArray = s.utf8Encode := by
    rw [List.utf8Encode]; rfl
  rw [utf8Decode, h1, utf8Decode?_utf8Encode]
  simp

/-! ## ASCII case -/

def toAsciiLower (c : Char) : Char :=
  if 'A'.toNat ≤ c.toNat ∧ c.toNat ≤ 'Z'.toNat then Char.ofNat (c.toNat + 32) else c

def toAsciiUpper (c : Char) : Char :=
  if 'a'.toNat ≤ c.toNat ∧ c.toNat ≤ 'z'.toNat then Char.ofNat (c.toNat - 32) else c

def asciiLower (s : List Char) : List Char := s.map toAsciiLower

def eqIgnoreAsciiCase (s t : List Char) : Bool := asciiLower s = asciiLower t

theorem eqIgnoreAsciiCase_iff {s t : List Char} : eqIgnoreAsciiCase s t = true ↔ asciiLower s = asciiLower t := by
  rw [eqIgnoreAsciiCase, decide_eq_true_eq]

/-- A character that is no small letter has only itself in lower case. -/
theorem eq_of_toAsciiLower_eq {c x : Char} (hx : x.toNat < 97 ∨ 122 < x.toNat) (h : toAsciiLower c = x) : c = x := by
  unfold toAsciiLower at h
  split_ifs at h with h1
  · have h2 : 65 ≤ c.toNat ∧ c.toNat ≤ 90 := h1
    have h3 : (Char.ofNat (c.toNat + 32)).toNat = c.toNat + 32 := by
      rw [Char.toNat_ofNat, if_pos]
      exact .inl (by omega)
    rw [← h, h3] at hx; omega
  · exact h

end Archis.Lib
