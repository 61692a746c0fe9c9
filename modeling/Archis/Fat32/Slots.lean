/-
  The slots of a directory, one by one.

  Whether an entry is decoded depends on the slots in front of it, what it says on its own short slot.  An edit of the
  slots of one entry, or behind an entry, leaves it alone (`Visible.of_agree`, `Visible.of_take`).
-/
import Archis.Fat32.Fs

namespace Archis.Fat32

open Archis.Lib
open List hiding get

/-! ## Kinds of slots -/

def IsShort (s : Slot) : Prop :=
  slotFirst s ≠ 0x00 ∧ slotFirst s ≠ 0xE5 ∧ slotAttr s &&& ATTR_VOLUME_ID = 0

/-- A slot that the scan takes for a part of a long name. -/
def lfnLike (s : Slot) : Bool := slotFirst s ≠ 0xE5 ∧ slotAttr s = ATTR_LFN

variable {s : Slot}

instance : Decidable (IsShort s) := inferInstanceAs (Decidable (_ ∧ _ ∧ _))

theorem IsShort.live (h : IsShort s) : Live s := h.1

theorem IsShort.not_lfn (h : IsShort s) : lfnLike s = false := by
  have h1 : slotAttr s ≠ ATTR_LFN := by
    intro h1
    have h2 := h.2.2
    rw [h1] at h2
    exact absurd h2 (by decide)
  simp [lfnLike, h1]

theorem not_isShort_of_lfnLike (h : lfnLike s = true) : ¬ IsShort s := fun h1 => by
  rw [h1.not_lfn] at h; cases h

/-! ## Open long names -/

theorem openParts_cons (s : Slot) (pre : List Slot) (parts : List (List ℕ)) :
    openParts (s :: pre) parts = openParts pre (if lfnLike s then parts ++ [lfnChunk s] else []) := by
  rw [openParts]
  by_cases h : slotFirst s ≠ 0xE5 ∧ slotAttr s = ATTR_LFN
  · rw [if_pos h, if_pos (by simpa [lfnLike] using h)]
  · rw [if_neg h, if_neg (by simpa [lfnLike] using h)]

theorem openParts_append : ∀ (pre rest : List Slot) (parts : List (List ℕ)),
    openParts (pre ++ rest) parts = openParts rest (openParts pre parts)
  | [], _, _ => rfl
  | s :: pre, rest, parts => by
    rw [cons_append, openParts_cons, openParts_cons, openParts_append]

theorem openParts_concat (pre : List Slot) (s : Slot) (parts : List (List ℕ)) :
    openParts (pre ++ [s]) parts = if lfnLike s then openParts pre parts ++ [lfnChunk s] else [] := by
  rw [openParts_append, openParts_cons]
  rfl

theorem openParts_eq (pre : List Slot) : openParts pre [] = (pre.rtakeWhile lfnLike).map lfnChunk := by
  induction pre using reverseRecOn with
  | nil => rfl
  | append_singleton pre s ih =>
    rw [openParts_concat, rtakeWhile_concat, ih]
    split_ifs
    · rw [map_append]; rfl
    · rfl

theorem openParts_of_not_lfn {slots : List Slot} {j : ℕ} (hj : slots[j]? = some s) (hs : lfnLike s = false) {k : ℕ}
    (hk : j < k) : openParts (slots.take k) [] = openParts ((slots.take k).drop (j + 1)) [] := by
  have hlt := (List.getElem?_eq_some_iff.1 hj).1
  have h1 : (slots.take k).take (j + 1) = slots.take j ++ [s] := by
    rw [take_take, min_eq_left (by omega), take_add_one, hj]
    rfl
  nth_rewrite 1 [← take_append_drop (j + 1) (slots.take k)]
  rw [openParts_append, h1, openParts_concat, hs, if_neg (by simp)]

/-! ## The entries of a directory -/

theorem mem_decodeSlots {e : DirEntryView} : ∀ {slots : List Slot} {i : ℕ} {parts : List (List ℕ)},
    e ∈ decodeSlots slots i parts ↔ ∃ j s, slots[j]? = some s ∧ IsShort s ∧
      (∀ t ∈ slots.take j, Live t) ∧ e = shortEntry s (i + j * 32) (openParts (slots.take j) parts)
  | [], i, parts => by simp [decodeSlots]
  | slot :: rest, i, parts => by
    have ih := fun parts' => @mem_decodeSlots e rest (i + 32) parts'
    -- an entry of the rest, seen from the first slot
    have hrest : Live slot → ∀ parts', openParts [slot] parts = parts' →
        ((∃ j s, rest[j]? = some s ∧ IsShort s ∧ (∀ t ∈ rest.take j, Live t) ∧
          e = shortEntry s (i + 32 + j * 32) (openParts (rest.take j) parts')) ↔
        ∃ j s, (slot :: rest)[j + 1]? = some s ∧ IsShort s ∧ (∀ t ∈ (slot :: rest).take (j + 1), Live t) ∧ e =
          shortEntry s (i + (j + 1) * 32) (openParts ((slot :: rest).take (j + 1)) parts)) := by
      intro hl parts' hp
      refine exists_congr fun j => exists_congr fun s => ?_
      have h1 : openParts ((slot :: rest).take (j + 1)) parts = openParts (rest.take j) parts' := by
        rw [take_succ_cons, ← singleton_append, openParts_append, hp]
      have h2 : i + (j + 1) * 32 = i + 32 + j * 32 := by ring
      rw [getElem?_cons_succ, h1, h2, take_succ_cons, forall_mem_cons, and_iff_right hl]
    have hsplit : ∀ P : ℕ → Prop, (∃ j, P j) ↔ P 0 ∨ ∃ j, P (j + 1) := by
      intro P
      constructor
      · rintro ⟨j, h⟩
        cases j with
        | zero => exact .inl h
        | succ j => exact .inr ⟨j, h⟩
      · rintro (h | ⟨j, h⟩)
        · exact ⟨0, h⟩
        · exact ⟨j + 1, h⟩
    have hp : openParts [slot] parts = if lfnLike slot then parts ++ [lfnChunk slot] else [] :=
      openParts_concat [] slot parts
    rw [hsplit, decodeSlots]
    by_cases h0 : slotFirst slot = 0x00
    · rw [if_pos h0]
      refine iff_of_false (by simp) ?_
      rintro (⟨s, hs, h1, -⟩ | ⟨j, s, -, -, h1, -⟩)
      · obtain rfl : slot = s := by simpa using hs
        exact h1.1 h0
      · exact h1 slot (by simp) h0
    rw [if_neg h0]
    have hnone : ¬ IsShort slot → ¬ ∃ s, (slot :: rest)[0]? = some s ∧ IsShort s ∧ (∀ t ∈ (slot :: rest).take 0,
        Live t) ∧ e = shortEntry s (i + 0 * 32) (openParts ((slot :: rest).take 0) parts) := by
      rintro h ⟨s, hs, h1, -⟩
      obtain rfl : slot = s := by simpa using hs
      exact h h1
    by_cases h1 : slotFirst slot = 0xE5
    · rw [if_pos h1, ih, hrest h0 [] (by rw [hp, if_neg (by simp [lfnLike, h1])])]
      rw [or_iff_right (hnone fun h => h.2.1 h1)]
    rw [if_neg h1]
    by_cases h2 : slotAttr slot = ATTR_LFN
    · have hl : lfnLike slot = true := by simp [lfnLike, h1, h2]
      rw [if_pos h2, ih, hrest h0 _ (by rw [hp, if_pos hl]), or_iff_right (hnone (not_isShort_of_lfnLike hl))]
    have hl : ¬ lfnLike slot = true := by simp [lfnLike, h2]
    rw [if_neg h2]
    by_cases h3 : slotAttr slot &&& ATTR_VOLUME_ID = 0
    · rw [if_neg (by simp [h3]), mem_cons, ih, hrest h0 [] (by rw [hp, if_neg hl])]
      refine or_congr ?_ .rfl
      simp [IsShort, h0, h1, h3, openParts]
    · rw [if_pos h3, ih, hrest h0 [] (by rw [hp, if_neg hl]), or_iff_right (hnone fun h => h3 h.2.2)]

/-- The entry at slot `j`, in a directory with these slots. -/
def entryAt (slots : List Slot) (j : ℕ) (s : Slot) : DirEntryView :=
  shortEntry s (j * 32) (openParts (slots.take j) [])

/-- Slot `j` is the short slot of an entry that the scan comes to. -/
structure Visible (slots : List Slot) (j : ℕ) (s : Slot) : Prop where
  get : slots[j]? = some s
  short : IsShort s
  live : ∀ t ∈ slots.take j, Live t

/-- **The entries of a directory** are those of its visible short slots. -/
theorem mem_decodeDirEntries {buf : List UInt8} {e : DirEntryView} : e ∈ decodeDirEntries buf ↔
    ∃ j s, Visible (chunks 32 buf) j s ∧ e = entryAt (chunks 32 buf) j s := by
  rw [decodeDirEntries, mem_decodeSlots]
  constructor
  · rintro ⟨j, s, h1, h2, h3, h4⟩
    exact ⟨j, s, ⟨h1, h2, h3⟩, by rw [h4, zero_add]; rfl⟩
  · rintro ⟨j, s, ⟨h1, h2, h3⟩, h4⟩
    exact ⟨j, s, h1, h2, h3, by rw [h4, zero_add]; rfl⟩

/-! ## Where an entry lies -/

section
variable {slots slots' : List Slot} {i j k : ℕ} {s t : Slot}

/-- How many long-name slots are open in front of slot `j`. -/
def lfnBefore (slots : List Slot) (j : ℕ) : ℕ := (openParts (slots.take j) []).length

theorem entryAt_slotStart : (entryAt slots j s).slotStart = (j - lfnBefore slots j) * 32 := by
  simp only [entryAt, shortEntry, lfnBefore]; omega

theorem entryAt_slotCount : (entryAt slots j s).slotCount = lfnBefore slots j + 1 := rfl

theorem lfnBefore_le (slots : List Slot) (j : ℕ) : lfnBefore slots j ≤ j := by
  rw [lfnBefore, openParts_eq, length_map]
  exact (rtakeWhile_suffix _ _).length_le.trans (length_take_le _ _)

/-- The slots between the start of an entry and its short slot are long-name slots. -/
theorem lfnLike_of_between (hlo : j - lfnBefore slots j ≤ k) (hk : k < j)
    (ht : slots[k]? = some t) : lfnLike t = true := by
  rw [lfnBefore, openParts_eq, length_map] at hlo
  obtain ⟨pre, hpre⟩ := rtakeWhile_suffix lfnLike (slots.take j)
  have hlt := (List.getElem?_eq_some_iff.1 ht).1
  have hlen := congrArg List.length hpre
  rw [length_append, length_take] at hlen
  have h1 : ((slots.take j).rtakeWhile lfnLike)[k - pre.length]? = some t := by
    have h2 : (slots.take j)[k]? = some t := by rw [getElem?_take_of_lt hk, ht]
    rw [← hpre, getElem?_append_right (by omega)] at h2
    exact h2
  exact mem_rtakeWhile_imp (mem_of_getElem? h1)

theorem Visible.slotStart_inj (h : Visible slots j s) (h' : Visible slots k t)
    (heq : (entryAt slots j s).slotStart = (entryAt slots k t).slotStart) : j = k := by
  have key : ∀ {j k : ℕ} {s : Slot}, Visible slots j s → j < k → j - lfnBefore slots j ≠ k - lfnBefore slots k := by
    intro j k s h hjk heq
    have h1 := lfnLike_of_between (k := j) (by omega) hjk h.get
    exact not_isShort_of_lfnLike h1 h.short
  rw [entryAt_slotStart, entryAt_slotStart] at heq
  rcases Nat.lt_trichotomy j k with hlt | heq' | hlt
  · exact absurd (by omega) (key h hlt)
  · exact heq'
  · exact absurd (by omega) (key h' hlt)

theorem Visible.split (h : Visible slots j s) :
    ∃ rest, decodeSlots slots 0 [] = decodeSlots (slots.take j) 0 [] ++ entryAt slots j s :: rest := by
  have hlt := (List.getElem?_eq_some_iff.1 h.get).1
  have hdrop : slots.drop j = s :: slots.drop (j + 1) := by
    rw [drop_eq_getElem_cons hlt, (List.getElem?_eq_some_iff.1 h.get).2]
  have hl : slotAttr s ≠ ATTR_LFN := fun h1 => by
    have h2 := h.short.not_lfn
    simp only [lfnLike, h1, and_true, decide_eq_false_iff_not, not_not] at h2
    exact h.short.2.1 h2
  refine ⟨decodeSlots (slots.drop (j + 1)) (j * 32 + 32) [], ?_⟩
  nth_rewrite 1 [← take_append_drop j slots]
  rw [decodeSlots_append _ _ _ _ h.live, hdrop, decodeSlots, if_neg h.short.1, if_neg h.short.2.1,
    if_neg hl, if_neg (not_not.2 h.short.2.2), length_take, min_eq_left hlt.le, zero_add]
  rfl

variable {e : DirEntryView}

theorem mem_decodeSlots_take (hj : j ≤ slots.length) : e ∈ decodeSlots (slots.take j) 0 [] ↔ ∃ k t,
    k < j ∧ Visible slots k t ∧ e = entryAt slots k t := by
  rw [mem_decodeSlots]
  constructor
  · rintro ⟨k, t, h1, h2, h3, h4⟩
    have hk : k < j := by
      have := (List.getElem?_eq_some_iff.1 h1).1
      rw [length_take] at this; omega
    rw [getElem?_take_of_lt hk] at h1
    rw [take_take, min_eq_left hk.le] at h3 h4
    exact ⟨k, t, hk, ⟨h1, h2, h3⟩, by rw [h4, zero_add]; rfl⟩
  · rintro ⟨k, t, hk, h1, h2⟩
    refine ⟨k, t, by rw [getElem?_take_of_lt hk, h1.get], h1.short, ?_, ?_⟩
    · rw [take_take, min_eq_left hk.le]
      exact h1.live
    · rw [take_take, min_eq_left hk.le, h2, zero_add]
      rfl

theorem findName_spec {entries : List DirEntryView} {name : List Char} (h : findName entries name = some e) :
    e ∈ entries ∧ asciiLower e.longName = asciiLower name := by
  have h1 := find?_some h
  exact ⟨mem_of_find?_eq_some h, eqIgnoreAsciiCase_iff.1 h1⟩

/-- **The entry that a name finds** is the first one with this name. -/
theorem findName_iff {c : List Char} : findName (decodeSlots slots 0 []) c = some e ↔ ∃ j s,
    Visible slots j s ∧ e = entryAt slots j s ∧ asciiLower e.longName = asciiLower c ∧ ∀ k t,
    k < j → Visible slots k t → asciiLower (entryAt slots k t).longName ≠ asciiLower c := by
  constructor
  · intro h
    obtain ⟨hmem, hname⟩ := findName_spec h
    obtain ⟨j, s, h1, h2, h3, h4⟩ := mem_decodeSlots.1 hmem
    have hv : Visible slots j s := ⟨h1, h2, h3⟩
    have he : e = entryAt slots j s := by rw [h4, zero_add]; rfl
    refine ⟨j, s, hv, he, hname, fun k t hk ht heq => ?_⟩
    -- the entry in front would have been found first
    obtain ⟨rest, hrest⟩ := hv.split
    have hlen := (List.getElem?_eq_some_iff.1 h1).1
    have hsome : ((decodeSlots (slots.take j) 0 []).find? fun e => eqIgnoreAsciiCase e.longName c).isSome := by
      rw [find?_isSome]
      exact ⟨_, (mem_decodeSlots_take hlen.le).2 ⟨k, t, hk, ht, rfl⟩, eqIgnoreAsciiCase_iff.2 heq⟩
    obtain ⟨e', he'⟩ := Option.isSome_iff_exists.1 hsome
    rw [findName, hrest, find?_append, he', Option.some_or, Option.some.injEq] at h
    obtain ⟨k', t', hk', ht', h5⟩ := (mem_decodeSlots_take hlen.le).1 (mem_of_find?_eq_some he')
    have := hv.slotStart_inj ht' (by rw [← he, ← h5, h])
    omega
  · rintro ⟨j, s, hv, rfl, hname, hfirst⟩
    obtain ⟨rest, hrest⟩ := hv.split
    have hlen := (List.getElem?_eq_some_iff.1 hv.get).1
    have hnone : ((decodeSlots (slots.take j) 0 []).find? fun e => eqIgnoreAsciiCase e.longName c) = none := by
      rw [find?_eq_none]
      intro e' he' heq
      obtain ⟨k, t, hk, ht, rfl⟩ := (mem_decodeSlots_take hlen.le).1 he'
      exact hfirst k t hk ht (eqIgnoreAsciiCase_iff.1 heq)
    rw [findName, hrest, find?_append, hnone, Option.none_or, find?_cons, eqIgnoreAsciiCase_iff.2 hname]

/-! ## Edits -/

theorem Visible.of_take (h : Visible slots j s) (heq : ∀ k ≤ j, slots'[k]? = slots[k]?) :
    Visible slots' j s ∧ entryAt slots' j s = entryAt slots j s := by
  have htake : slots'.take j = slots.take j := by
    refine ext_getElem? fun k => ?_
    by_cases hk : k < j
    · rw [getElem?_take_of_lt hk, getElem?_take_of_lt hk, heq k hk.le]
    · rw [getElem?_take_eq_none (by omega), getElem?_take_eq_none (by omega)]
  refine ⟨⟨by rw [heq j le_rfl, h.get], h.short, by rw [htake]; exact h.live⟩, ?_⟩
  rw [entryAt, htake, entryAt]

/-- **An edit of one entry**: where only the slots `lo` to `j` change, the other entries stay. -/
theorem Visible.of_agree (lo : ℕ) {s' : Slot} (h : Visible slots i t) (hout : ∀ k, k < lo ∨ j < k →
    slots'[k]? = slots[k]?) (hs : slots[j]? = some s) (hl : lfnLike s = false) (hs' : slots'[j]? = some s')
    (hl' : lfnLike s' = false) (hlive : ∀ (k : ℕ) (u u' : Slot), slots[k]? = some u → slots'[k]? = some u' → Live u →
    Live u') (hi : i < lo ∨ j < i) : Visible slots' i t ∧ entryAt slots' i t = entryAt slots i t := by
  rcases hi with hi | hi
  · exact h.of_take fun k hk => hout k (.inl (by omega))
  have hparts : openParts (slots'.take i) [] = openParts (slots.take i) [] := by
    rw [openParts_of_not_lfn hs hl hi, openParts_of_not_lfn hs' hl' hi]
    congr 1
    refine ext_getElem? fun k => ?_
    rw [getElem?_drop, getElem?_drop]
    by_cases hk : j + 1 + k < i
    · rw [getElem?_take_of_lt hk, getElem?_take_of_lt hk, hout _ (.inr (by omega))]
    · rw [getElem?_take_eq_none (by omega), getElem?_take_eq_none (by omega)]
  refine ⟨⟨by rw [hout i (.inr hi), h.get], h.short, ?_⟩, by rw [entryAt, hparts, entryAt]⟩
  intro u' hu'
  obtain ⟨k, hki, hk⟩ := mem_take_iff_getElem?.1 hu'
  have hlen := (List.getElem?_eq_some_iff.1 h.get).1
  have hu : slots[k]? = some slots[k] := getElem?_eq_getElem (by omega)
  exact hlive k _ u' hu hk (h.live _ (mem_take_iff_getElem?.2 ⟨k, hki, hu⟩))

/-- The entries, except those at the places `X`, are entries of the second slots at the same places; every other
one of these has the name that was in its slot before, or comes behind them. -/
structure Carried (slots slots' : List Slot) (X : ℕ → Prop) : Prop where
  kept : ∀ j s, Visible slots j s → X (entryAt slots j s).slotStart ∨
    Visible slots' j s ∧ entryAt slots' j s = entryAt slots j s
  old : ∀ j s', Visible slots' j s' →
    (∃ s, Visible slots j s ∧ (entryAt slots' j s').longName = (entryAt slots j s).longName) ∨
    ∀ i s, Visible slots i s → ¬ X (entryAt slots i s).slotStart → i < j

theorem Carried.refl (slots : List Slot) (X : ℕ → Prop) : Carried slots slots X :=
  ⟨fun _ _ hv => .inr ⟨hv, rfl⟩, fun _ s' hv => .inl ⟨s', hv, rfl⟩⟩

theorem Carried.findName {X : ℕ → Prop} (h : Carried slots slots' X) {c : List Char} (hf : findName (decodeSlots slots 0 []) c = some e) :
    X e.slotStart ∨ Fat32.findName (decodeSlots slots' 0 []) c = some e := by
  obtain ⟨j, s, hv, rfl, hname, hfirst⟩ := findName_iff.1 hf
  by_cases hX : X (entryAt slots j s).slotStart
  · exact .inl hX
  obtain ⟨hv', he⟩ := (h.kept j s hv).resolve_left hX
  refine .inr (findName_iff.2 ⟨j, s, hv', he.symm, hname, fun k t hk ht => ?_⟩)
  rcases h.old k t ht with ⟨t', ht', h1⟩ | h1
  · rw [h1]
    exact hfirst k t' hk ht'
  · exact absurd (h1 j s hv hX) (by omega)

end

def delSlot (s : Slot) : Slot := splice s 0 [0xE5]

@[simp] theorem slotFirst_delSlot (s : Slot) : slotFirst (delSlot s) = 0xE5 := rfl

theorem not_isShort_delSlot (s : Slot) : ¬ IsShort (delSlot s) := fun h => h.2.1 rfl

theorem lfnLike_delSlot (s : Slot) : lfnLike (delSlot s) = false := by simp [lfnLike]

theorem length_markDeleted : ∀ (c k : ℕ) (buf : List UInt8), k + c * 32 ≤ buf.length →
    (markDeleted c k buf).length = buf.length
  | 0, _, _, _ => rfl
  | c + 1, k, buf, h => by
    have h1 : (splice buf k [0xE5]).length = buf.length :=
      length_splice (by rw [length_singleton]; omega)
    rw [markDeleted, length_markDeleted c _ _ (by omega), h1]

/-- **`mark_deleted`**, slot by slot. -/
theorem getElem?_chunks_markDeleted : ∀ (c k : ℕ) (buf : List UInt8),
    k + c ≤ (chunks 32 buf).length → ∀ i, (chunks 32 (markDeleted c (k * 32) buf))[i]? =
      if k ≤ i ∧ i < k + c then (chunks 32 buf)[i]?.map delSlot else (chunks 32 buf)[i]?
  | 0, k, buf, _, i => by rw [markDeleted, if_neg (by omega)]
  | c + 1, k, buf, h, i => by
    obtain ⟨s, hs⟩ : ∃ s, (chunks 32 buf)[k]? = some s :=
      ⟨_, getElem?_eq_getElem (by omega)⟩
    have h1 := chunks_splice (j := 0) (d := [0xE5]) hs (by rw [length_singleton]; omega)
    rw [add_zero, ← delSlot] at h1
    have h2 : k * 32 + 32 = (k + 1) * 32 := by ring
    rw [markDeleted, h2, getElem?_chunks_markDeleted c (k + 1) _ (by rw [h1, length_set]; omega),
      h1, getElem?_set]
    by_cases hik : k = i
    · subst hik
      rw [if_neg (by omega), if_pos rfl, if_pos (by omega), if_pos (by omega), hs]
      rfl
    rw [if_neg hik]
    split_ifs with h3 h4
    · rfl
    · omega
    · omega
    · rfl

/-! ## The cluster and the size of a slot -/

theorem patchSlot_spec (hs : s.length = 32) (firstCluster size : ℕ) : (patchSlot s firstCluster size).length = 32 ∧
    slotFirst (patchSlot s firstCluster size) = slotFirst s ∧ slotAttr (patchSlot s firstCluster size) = slotAttr s ∧
    slice (patchSlot s firstCluster size) 0 11 = slice s 0 11 ∧ slotCluster (patchSlot s firstCluster size) =
    firstCluster % 2 ^ 32 ∧ ofLe (slice (patchSlot s firstCluster size) 28 4) = size % 2 ^ 32 := by
  have e1 : (toLe 2 (firstCluster / 2 ^ 16)).length = 2 := length_toLe _ _
  have e2 : (toLe 2 firstCluster).length = 2 := length_toLe _ _
  have e3 : (toLe 4 size).length = 4 := length_toLe _ _
  generalize hx : toLe 2 (firstCluster / 2 ^ 16) = x at e1
  generalize hy : toLe 2 firstCluster = y at e2
  generalize hz : toLe 4 size = z at e3
  have l1 : (splice s 20 x).length = 32 := by rw [length_splice (by omega), hs]
  have l2 : (splice (splice s 20 x) 26 y).length = 32 := by rw [length_splice (by omega), l1]
  have l3 : (splice (splice (splice s 20 x) 26 y) 28 z).length = 32 := by
    rw [length_splice (by omega), l2]
  have hget : ∀ k < 20, (splice (splice (splice s 20 x) 26 y) 28 z)[k]? = s[k]? := by
    intro k hk
    rw [getElem?_splice (by omega), if_neg (by omega), getElem?_splice (by omega), if_neg (by omega),
      getElem?_splice (by omega), if_neg (by omega)]
  have hhi : slice (splice (splice (splice s 20 x) 26 y) 28 z) 20 2 = x := by
    rw [slice_splice_of_disjoint (by omega) (by omega), slice_splice_of_disjoint (by omega) (by omega),
      ← e1, slice_splice_self (by omega)]
  have hlo : slice (splice (splice (splice s 20 x) 26 y) 28 z) 26 2 = y := by
    rw [slice_splice_of_disjoint (by omega) (by omega), ← e2, slice_splice_self (by omega)]
  have hsz : slice (splice (splice (splice s 20 x) 26 y) 28 z) 28 4 = z := by
    rw [← e3, slice_splice_self (by omega)]
  rw [patchSlot, hx, hy, hz]
  refine ⟨l3, ?_, ?_, ?_, ?_, ?_⟩
  · rw [slotFirst, getD_eq_getElem?_getD, hget 0 (by omega), slotFirst, getD_eq_getElem?_getD]
  · rw [slotAttr, getD_eq_getElem?_getD, hget 11 (by omega), slotAttr, getD_eq_getElem?_getD]
  · refine ext_getElem? fun k => ?_
    by_cases hk : k < 11
    · rw [getElem?_slice hk, getElem?_slice hk, zero_add, hget k (by omega)]
    · rw [getElem?_slice_eq_none (by omega), getElem?_slice_eq_none (by omega)]
  · rw [slotCluster, hhi, hlo, ← hx, ← hy, ofLe_toLe, ofLe_toLe]; omega
  · rw [hsz, ← hz, ofLe_toLe]; norm_num

theorem slotCluster_lt (hs : s.length = 32) : slotCluster s < 2 ^ 32 := by
  have h1 := ofLe_lt (slice s 20 2)
  have h2 := ofLe_lt (slice s 26 2)
  rw [length_slice (by omega)] at h1 h2
  rw [slotCluster]; omega

end Archis.Fat32
