/-
  Changes of a directory in a tree: an entry is appended (`Tree.appendEntry`), marked as deleted (`Tree.markEntry`) or
  patched (`Tree.patchEntry`).  Each keeps the tree, and the other entries as they are (`Keeps`).
-/
import Archis.Fat32.Tree

namespace Archis.Fat32

open Archis.Lib
open List hiding IsChain

/-! ## Slots against slots -/

theorem not_isShort_zeroSlot : ¬ IsShort zeroSlot := fun h => h.1 rfl

/-- The second list has no reference that the first does not have in the same place, and the same
    dot slots. -/
structure Trimmed (slots slots' : List Slot) : Prop where
  refs : ∀ (j : ℕ) (s : Slot), slots'[j]? = some s → RefSlot s → slots[j]? = some s
  dots : ∀ (j : ℕ) (s : Slot), DotSlot s → (slots'[j]? = some s ↔ slots[j]? = some s)

theorem Trimmed.refl (slots : List Slot) : Trimmed slots slots :=
  ⟨fun _ _ h _ => h, fun _ _ _ => Iff.rfl⟩

theorem DotsFirst.congr {slots slots' : List Slot} (hd : DotsFirst slots)
    (h : ∀ (j : ℕ) (s : Slot), DotSlot s → (slots'[j]? = some s ↔ slots[j]? = some s)) : DotsFirst slots' := by
  intro j s hs hdot
  rcases hd j s ((h j s hdot).1 hs) hdot with h0 | ⟨h1, s₀, h0, hdot0⟩
  · exact .inl h0
  · exact .inr ⟨h1, s₀, (h 0 s₀ hdot0).2 h0, hdot0⟩

theorem Trimmed.dotsFirst {slots slots' : List Slot} (h : Trimmed slots slots')
    (hd : DotsFirst slots) : DotsFirst slots' := hd.congr h.dots

/-! ## New slots -/

section
variable {name : List Char} {short : List UInt8} {attr : UInt8} {firstCluster size : ℕ}

theorem length_encodeLfnEntries : (encodeLfnEntries name short).length = lfnCount name := by
  simp [encodeLfnEntries]

theorem length_encodeEntrySlots :
    (encodeEntrySlots name short attr firstCluster size).length = lfnCount name + 1 := by
  simp [encodeEntrySlots, length_encodeLfnEntries]

theorem short_of_encodeEntrySlots {i : ℕ} {s : Slot}
    (hs : (encodeEntrySlots name short attr firstCluster size)[i]? = some s) (h : IsShort s) :
    i = lfnCount name ∧ s = shortSlot short attr firstCluster size := by
  have hlen := @length_encodeLfnEntries name short
  rw [encodeEntrySlots] at hs
  by_cases hi : i < lfnCount name
  · rw [getElem?_append_left (by omega)] at hs
    obtain ⟨k, -, rfl⟩ := mem_map.1 (mem_reverse.1 (mem_of_getElem? hs))
    exfalso
    obtain ⟨-, -, hattr, -⟩ := lfnSlot_spec (seqByte (k + 1) (lfnCount name)) (lfnChecksum short)
      (length_lfnUnits (utf16Encode name) (k + 1)) (lfnUnits_lt (utf16Encode_lt name) _)
    have h1 := h.2.2
    rw [hattr] at h1
    exact absurd h1 (by decide)
  · rw [getElem?_append_right (by omega), hlen] at hs
    have h1 : i - lfnCount name < 1 := by
      by_contra h1
      rw [getElem?_eq_none (by rw [length_singleton]; omega)] at hs; cases hs
    obtain h2 : i - lfnCount name = 0 := by omega
    rw [h2] at hs
    exact ⟨by omega, by simpa using hs.symm⟩

theorem getElem?_encodeEntrySlots : (encodeEntrySlots name short attr firstCluster size)[lfnCount
    name]? = some (shortSlot short attr firstCluster size) := by
  rw [encodeEntrySlots, getElem?_append_right length_encodeLfnEntries.le, length_encodeLfnEntries, Nat.sub_self]
  rfl

theorem live_of_encodeEntrySlots (hle : lfnCount name ≤ 256) :
    ∀ s ∈ (encodeEntrySlots name short attr firstCluster size).take (lfnCount name), Live s := by
  intro s hs
  rw [encodeEntrySlots, take_left' length_encodeLfnEntries] at hs
  obtain ⟨k, hk, rfl⟩ := mem_map.1 (mem_reverse.1 hs)
  rw [mem_range] at hk
  obtain ⟨-, h1, -, -⟩ := lfnSlot_spec (seqByte (k + 1) (lfnCount name)) (lfnChecksum short)
    (length_lfnUnits (utf16Encode name) (k + 1)) (lfnUnits_lt (utf16Encode_lt name) _)
  rw [Live, h1]
  by_cases hlast : k + 1 = lfnCount name
  · rw [hlast]
    exact (seqByte_last _).1
  · rw [Ne, (seqByte_of_ne hlast).1]
    omega

/-- Behind more than 256 of them it does not get to the short slot: number 256 ends the directory. -/
theorem exists_not_live_of_encodeEntrySlots (h : 256 < lfnCount name) : ∃ k t, k < lfnCount name ∧
    (encodeEntrySlots name short attr firstCluster size)[k]? = some t ∧ ¬ Live t := by
  refine ⟨lfnCount name - 256, lfnSlot (seqByte 256 (lfnCount name)) (lfnChecksum short)
    (lfnUnits (utf16Encode name) 256), by omega, ?_, ?_⟩
  · rw [encodeEntrySlots, getElem?_append_left (by rw [length_encodeLfnEntries]; omega), encodeLfnEntries,
      getElem?_reverse (by simp; omega), getElem?_map, length_map, length_range,
      getElem?_range (by omega)]
    have h1 : lfnCount name - 1 - (lfnCount name - 256) = 255 := by omega
    rw [h1]
    rfl
  · obtain ⟨-, h1, -, -⟩ := lfnSlot_spec (seqByte 256 (lfnCount name)) (lfnChecksum short)
      (length_lfnUnits (utf16Encode name) 256) (lfnUnits_lt (utf16Encode_lt name) _)
    rw [Live, h1, not_not, (seqByte_of_ne h.ne).1]

theorem refSlot_shortSlot {existing : List DirEntryView} (hattr : attr &&& ATTR_VOLUME_ID = 0)
    (hfc : firstCluster < 2 ^ 32) (hsize : size < 2 ^ 32) :
    RefSlot (shortSlot (uniqueShortName name existing) attr firstCluster size) := by
  have hgood := goodShort_uniqueShortName name existing
  obtain ⟨-, h1, h2, h3, -, -⟩ := shortSlot_spec attr hgood.length hfc hsize
  have hdot := uniqueShortName_first name existing (x := 0x2E) (by decide)
  refine ⟨⟨by rw [h1]; exact hgood.not_end, by rw [h1]; exact hgood.not_deleted, by rw [h2]; exact hattr⟩, ?_⟩
  rw [h3]
  rintro (h | h)
  · exact hdot (by rw [h]; rfl)
  · exact hdot (by rw [h]; rfl)

end

/-! ## Appending -/

/-- The slots after `append_entries`, from those of the buffer it was given. -/
structure Appended (slots new slots' : List Slot) (e : ℕ) : Prop where
  before : ∀ i < e, slots'[i]? = slots[i]?
  added : ∀ i < new.length, slots'[e + i]? = new[i]?
  behind : ∀ (i : ℕ) (s : Slot), e + new.length ≤ i → slots'[i]? = some s → slots[i]? = some s ∨ s = zeroSlot
  live : ∀ s ∈ slots.take e, Live s
  end_ : ∀ s, slots[e]? = some s → ¬ Live s

theorem exists_appended {buf : List UInt8} {m n : ℕ} (hn : 0 < n) (hbuf : buf.length = m * 32)
    {new : List Slot} (hnew : ∀ s ∈ new, s.length = 32) : ∃ e, findEndMarker buf = e * 32 ∧
    Appended (chunks 32 buf) new (chunks 32 (appendBuf (n * 32) buf new)) e := by
  obtain ⟨e, he, hle, hlive, hend⟩ := findEndMarker_spec hbuf
  obtain ⟨g, -, hroom, -, hbuf'⟩ := appendBuf_spec hn hbuf he hnew
  have hlen : (chunks 32 buf ++ replicate g zeroSlot).length = m + g := by
    rw [length_append, length_chunks, hbuf, Nat.mul_div_cancel _ (by norm_num), length_replicate]
  have hlen' : (chunks 32 buf).length = m := by
    rw [length_chunks, hbuf, Nat.mul_div_cancel _ (by norm_num)]
  have hslots : ∀ s ∈ splice (chunks 32 buf ++ replicate g zeroSlot) e new, s.length = 32 := by
    intro s hs
    rw [splice, mem_append, mem_append] at hs
    have hold : ∀ s ∈ chunks 32 buf ++ replicate g zeroSlot, s.length = 32 := by
      intro s hs
      rcases mem_append.1 hs with hs | hs
      · exact length_of_mem_chunks hs
      · rw [eq_of_mem_replicate hs, length_zeroSlot]
    rcases hs with (hs | hs) | hs
    · exact hold s (mem_of_mem_take hs)
    · exact hnew s hs
    · exact hold s (mem_of_mem_drop hs)
  rw [hbuf', chunks_flatten (by norm_num) hslots]
  refine ⟨e, he, ⟨fun i hi => ?_, fun i hi => ?_, fun i s hi hs => ?_, hlive, hend⟩⟩
  · rw [getElem?_splice (by omega), if_neg (by omega), getElem?_append_left (by omega)]
  · rw [getElem?_splice (by omega), if_pos (by omega), Nat.add_sub_cancel_left]
  rw [getElem?_splice (by omega), if_neg (by omega)] at hs
  by_cases him : i < m
  · rw [getElem?_append_left (by omega)] at hs
    exact .inl hs
  · rw [getElem?_append_right (by omega)] at hs
    exact .inr (eq_of_mem_replicate (mem_of_getElem? hs))

namespace Appended

variable {slots new slots' : List Slot} {e i : ℕ} {s : Slot}

section
variable (h : Appended slots new slots' e)
include h

theorem cases (hs : slots'[i]? = some s) :
    slots[i]? = some s ∨ (∃ k, i = e + k ∧ new[k]? = some s) ∨ s = zeroSlot := by
  by_cases h1 : i < e
  · rw [h.before i h1] at hs
    exact .inl hs
  by_cases h2 : i < e + new.length
  · obtain ⟨k, rfl⟩ : ∃ k, i = e + k := ⟨i - e, by omega⟩
    rw [h.added k (by omega)] at hs
    exact .inr (.inl ⟨k, rfl, hs⟩)
  · rcases h.behind i s (by omega) hs with h3 | h3
    · exact .inl h3
    · exact .inr (.inr h3)

theorem lt_of_live (hs : slots[i]? = some s) (hl : Live s) (hlive : ∀ t ∈ slots.take i, Live t) : i < e := by
  by_contra hle
  have hi := (List.getElem?_eq_some_iff.1 hs).1
  have he : slots[e]? = some slots[e] := getElem?_eq_getElem (by omega)
  refine h.end_ _ he ?_
  rcases Nat.eq_or_lt_of_le (Nat.le_of_not_lt hle) with rfl | hlt
  · rw [he, Option.some.injEq] at hs
    rw [hs]; exact hl
  · exact hlive _ (mem_take_iff_getElem?.2 ⟨e, hlt, he⟩)

theorem visible (hv : Visible slots i s) : Visible slots' i s ∧ entryAt slots' i s = entryAt slots i s := by
  have hi := h.lt_of_live hv.get hv.short.live hv.live
  exact hv.of_take fun k hk => h.before k (by omega)

theorem visible_new {k : ℕ} (hlive : ∀ t ∈ new.take k, Live t)
    (hk : new[k]? = some s) (hs : IsShort s) : Visible slots' (e + k) s := by
  have hlt := (List.getElem?_eq_some_iff.1 hk).1
  refine ⟨by rw [h.added k hlt, hk], hs, fun t ht => ?_⟩
  obtain ⟨i, hik, hi⟩ := mem_take_iff_getElem?.1 ht
  by_cases hie : i < e
  · rw [h.before i hie] at hi
    exact h.live t (mem_take_iff_getElem?.2 ⟨i, hie, hi⟩)
  · obtain ⟨m, rfl⟩ : ∃ m, i = e + m := ⟨i - e, by omega⟩
    rw [h.added m (by omega)] at hi
    exact hlive t (mem_take_iff_getElem?.2 ⟨m, by omega, hi⟩)

theorem lt_of_not_live {k : ℕ} {t : Slot} (hk : new[k]? = some t) (ht : ¬ Live t)
    (hno : ∀ m ≤ k, ∀ u, new[m]? = some u → ¬ IsShort u) (hv : Visible slots' i s) : i < e := by
  by_contra hi
  obtain ⟨m, rfl⟩ : ∃ m, i = e + m := ⟨i - e, by omega⟩
  have hlt := (List.getElem?_eq_some_iff.1 hk).1
  by_cases hm : m ≤ k
  · have h1 := hv.get
    rw [h.added m (by omega)] at h1
    exact hno m hm s h1 hv.short
  · exact ht (hv.live t (mem_take_iff_getElem?.2 ⟨e + k, by omega, by rw [h.added k hlt, hk]⟩))

end

theorem carried {slots₀ : List Slot} {X : ℕ → Prop} (h : Appended slots new slots' e)
    (hc : Carried slots₀ slots X) : Carried slots₀ slots' X := by
  refine ⟨fun j s hv => ?_, fun j s' hv => ?_⟩
  · rcases hc.kept j s hv with h1 | ⟨h1, h2⟩
    · exact .inl h1
    · obtain ⟨h3, h4⟩ := h.visible h1
      exact .inr ⟨h3, by rw [h4, h2]⟩
  · by_cases hj : j < e
    · obtain ⟨h1, h2⟩ := hv.of_take fun k hk => (h.before k (by omega)).symm
      rcases hc.old j s' h1 with ⟨s, h3, h4⟩ | h3
      · exact .inl ⟨s, h3, by rw [← h2, h4]⟩
      · exact .inr h3
    · refine .inr fun i s hi hX => ?_
      obtain ⟨h1, -⟩ := (hc.kept i s hi).resolve_left hX
      have := h.lt_of_live h1.get h1.short.live h1.live
      omega

theorem dotsFirst (h : Appended slots new slots' e) (hd : DotsFirst slots)
    (hnew : ∀ s ∈ new, ¬ DotSlot s) : DotsFirst slots' := by
  intro j s hs hdot
  rcases h.cases hs with h1 | ⟨k, -, h1⟩ | h1
  · rcases hd j s h1 hdot with h0 | ⟨rfl, s₀, h0, hdot0⟩
    · exact .inl h0
    · have he : 0 < e := h.lt_of_live h0 hdot0.1.live (by simp)
      exact .inr ⟨rfl, s₀, by rw [h.before 0 he, h0], hdot0⟩
  · exact absurd hdot (hnew s (mem_of_getElem? h1))
  · exact absurd (h1 ▸ hdot.1) not_isShort_zeroSlot

end Appended

/-! ## Entries that stay -/

/-- The entries, except those at the places `X`, are entries of the second tree, and names find what they found.
-/
structure Keeps (A : Image) (H : Heads) (A' : Image) (H' : Heads) (X : ℕ → ℕ → Prop) : Prop where
  entry : ∀ d e, HasEntry A H d e → X d e.slotStart ∨ HasEntry A' H' d e
  name : ∀ d ∈ H.dirs, ∀ c e, findName (A.entries (H.chain d)) c = some e →
    X d e.slotStart ∨ findName (A'.entries (H'.chain d)) c = some e

variable {A A' : Image} {H H' : Heads} {X : ℕ → ℕ → Prop} {b : Bpb} {Y : ℕ → ℕ → Prop}

theorem Keeps.mono (h : Keeps A H A' H' X) (hXY : ∀ d ss, X d ss → Y d ss) : Keeps A H A' H' Y :=
  ⟨fun d e he => (h.entry d e he).imp_left (hXY _ _), fun d hd c e hc => (h.name d hd c e hc).imp_left (hXY _ _)⟩

theorem Keeps.refl (A : Image) (H : Heads) (X : ℕ → ℕ → Prop) : Keeps A H A H X :=
  ⟨fun _ _ he => .inr he, fun _ _ _ _ hc => .inr hc⟩

theorem keeps_of_carried (hdirs : ∀ d ∈ H.dirs, (∀ ss, X d ss) ∨ d ∈ H'.dirs ∧
    Carried (A.slots (H.chain d)) (A'.slots (H'.chain d)) (X d)) : Keeps A H A' H' X := by
  refine ⟨fun d e he => ?_, fun d hd c e hc => ?_⟩
  · obtain ⟨hd, j, s, hv, rfl⟩ := hasEntry_iff.1 he
    rcases hdirs d hd with h1 | ⟨hd', h1⟩
    · exact .inl (h1 _)
    · rcases h1.kept j s hv with h2 | ⟨h2, h3⟩
      · exact .inl h2
      · exact .inr (hasEntry_iff.2 ⟨hd', j, s, h2, h3.symm⟩)
  · rcases hdirs d hd with h1 | ⟨-, h1⟩
    · exact .inl (h1 _)
    · exact h1.findName hc

theorem keeps_of_slots (hdirs : ∀ d ∈ H.dirs, d ∈ H'.dirs) (h : ∀ d ∈ H.dirs, A'.slots (H'.chain d)
    = A.slots (H.chain d)) (X : ℕ → ℕ → Prop) : Keeps A H A' H' X :=
  keeps_of_carried fun d hd => .inr ⟨hdirs d hd, by rw [h d hd]; exact .refl _ _⟩

/-- **A change of a tree** that takes away the entries at the places `X`. -/
structure Edits (b : Bpb) (A : Image) (H : Heads) (A' : Image) (H' : Heads) (X : ℕ → ℕ → Prop) :
    Prop where
  tree : Tree b A' H'
  keeps : Keeps A H A' H' X
  filled : Filled b A H → Filled b A' H'
  dirs : ∀ d ∈ H.dirs, (∀ ss, X d ss) ∨ d ∈ H'.dirs

theorem Edits.refl (h : Tree b A H) (X : ℕ → ℕ → Prop) :
    Edits b A H A H X := ⟨h, .refl A H X, id, fun _ hd => .inr hd⟩

theorem Edits.trans {A'' : Image} {H'' : Heads}
    (h : Edits b A H A' H' X) (h' : Edits b A' H' A'' H'' X) : Edits b A H A'' H'' X where
  tree := h'.tree
  keeps := by
    refine ⟨fun d e he => ?_, fun d hd c e hc => ?_⟩
    · rcases h.keeps.entry d e he with h1 | h1
      · exact .inl h1
      · exact h'.keeps.entry d e h1
    rcases h.dirs d hd with h1 | h1
    · exact .inl (h1 _)
    · rcases h.keeps.name d hd c e hc with h2 | h2
      · exact .inl h2
      · exact h'.keeps.name d h1 c e h2
  filled := fun hF => h'.filled (h.filled hF)
  dirs := fun d hd => (h.dirs d hd).elim .inl fun h1 => h'.dirs d h1

theorem Edits.mono (h : Edits b A H A' H' X) (hXY : ∀ d ss, X d ss → Y d ss) : Edits b A H A' H' Y :=
  ⟨h.tree, h.keeps.mono hXY, h.filled, fun d hd => (h.dirs d hd).imp_left fun h1 ss => hXY d ss (h1 ss)⟩

/-! ## The tree after a change of one directory -/

section
variable {b : Bpb} {A A' : Image} {H : Heads} {d j t : ℕ} {news : List ℕ} {buf : List UInt8}
  {dev : Dev} {s : Slot}
variable {l : List ℕ} {X : ℕ → ℕ → Prop} {c : ℕ}

theorem slots_setBytes (hl : l.Nodup) (hbuf : buf.length = l.length * b.clusterSize) :
    (A.setBytes b.clusterSize l buf).slots l = chunks 32 buf := by
  rw [Image.slots, Image.bytes_setBytes A hl hbuf]

theorem Grown.used (ht : l.getLast? = some t) (hg : Grown b A t news A') (c : ℕ)
    (hc : c ∉ l ++ news) (h0 : A'.fat c ≠ 0) : A.fat c ≠ 0 := by
  rw [mem_append, not_or] at hc
  rwa [← hg.fat c (by rintro rfl; exact hc.1 (mem_of_getLast? ht)) hc.2]

theorem Tree.apart_append (h : Tree b A H) (hd : d ∈ H.dirs) (ht : (H.chain d).getLast? = some t)
    (hg : Grown b A t news A') : Tree.Apart A A' H d (H.chain d ++ news) := by
  intro k hk hne c hc
  have hcd : c ∉ H.chain d := h.chains.disjoint k hk d (.inl hd) hne hc
  have hcn : c ∉ news := hg.notMem (h.chains.chain k hk) hc
  refine ⟨by simp [hcd, hcn], hg.fat c ?_ hcn, hg.data c hcn⟩
  rintro rfl; exact hcd (mem_of_getLast? ht)

theorem Tree.apart_grown (h : Tree b A H) (hd : d ∈ H.dirs) (ht : (H.chain d).getLast? = some t)
    (hg : Grown b A t news A') (buf : List UInt8) :
    Tree.Apart A (A'.setBytes b.clusterSize (H.chain d ++ news) buf) H d (H.chain d ++ news) := by
  intro k hk hne c hc
  obtain ⟨hmem, hfat, hdata⟩ := h.apart_append hd ht hg k hk hne c hc
  exact ⟨hmem, by rw [Image.setBytes_fat, hfat], by rw [Image.setBytes_data_of_notMem _ _ _ hmem, hdata]⟩

theorem Tree.apart_setBytes (h : Tree b A H) (hd : d ∈ H.dirs) (buf : List UInt8) :
    Tree.Apart A (A.setBytes b.clusterSize (H.chain d) buf) H d (H.chain d) := by
  intro k hk hne c hc
  have hcd : c ∉ H.chain d := h.chains.disjoint k hk d (.inl hd) hne hc
  exact ⟨hcd, by rw [Image.setBytes_fat], Image.setBytes_data_of_notMem _ _ _ hcd⟩

theorem Heads.putDir_eq_self (hd : d ∈ H.dirs) : H.putDir d (H.chain d) = H := by
  rw [Heads.putDir, Set.insert_eq_of_mem hd, Function.update_eq_self]

theorem keeps_putDir (hout : Tree.Apart A A' H d l) (hd : d ∈ H.dirs → Carried (A.slots (H.chain d))
    (A'.slots l) (X d)) : Keeps A H A' (H.putDir d l) X := by
  refine keeps_of_carried fun k hk => .inr ⟨.inr hk, ?_⟩
  by_cases hne : k = d
  · subst hne
    rw [Heads.putDir_self]
    exact hd hk
  · rw [Heads.putDir_of_ne hne, hout.slots hk hne]
    exact .refl _ _

theorem Tree.setDir (h : Tree b A H) (hd : d ∈ H.dirs) (hlen : buf.length = (H.chain d).length *
    b.clusterSize) (hdots : DotsFirst (chunks 32 buf)) (hrefs : ∀ (j : ℕ) (s : Slot),
    (chunks 32 buf)[j]? = some s → RefSlot s → HasRef A H d j s ∨ Points b H s ∧
    (2 ≤ slotCluster s → ∀ d' j' s', HasRef (A.setBytes b.clusterSize (H.chain d) buf) H d' j' s' →
    slotCluster s' = slotCluster s → d' = d ∧ j' = j)) (hX : Carried (A.slots (H.chain d))
    (chunks 32 buf) (X d)) : Edits b A H (A.setBytes b.clusterSize (H.chain d) buf) H X := by
  have hchain := h.isChain hd
  have hslots := slots_setBytes (A := A) hchain.linked.nodup hlen
  have hchain' : IsChain b (A.setBytes b.clusterSize (H.chain d) buf) d (H.chain d) :=
    hchain.congr fun c _ => by rw [Image.setBytes_fat]
  have h1 := h.putDir (Set.disjoint_left.1 h.kinds hd) hchain' (h.apart_setBytes hd buf)
    (by rw [hslots]; exact hdots) (fun j s hs hr => by
      rw [hslots] at hs
      rw [Heads.putDir_eq_self hd]
      exact hrefs j s hs hr)
  have h2 := keeps_putDir (X := X) (h.apart_setBytes hd buf) fun _ => by
    rw [hslots]
    exact hX
  rw [Heads.putDir_eq_self hd] at h1 h2
  exact ⟨h1, h2, fun hF => hF.congr fun c => by rw [Image.setBytes_fat], fun d hd => .inr hd⟩

/-- **A directory grows**, or gets new slots: its references are old ones, and those of the new
slots. -/
theorem Tree.putAppended (h : Tree b A H) (hd : d ∈ H.dirs) (hchain : IsChain b A' d l) (hout : Tree.Apart A A' H d l)
    (hsub : H.chain d ⊆ l) (hfat : ∀ c, c ∉ l → A'.fat c ≠ 0 → A.fat c ≠ 0) {slots₀ new : List Slot} {e : ℕ}
    (htrim : Trimmed (A.slots (H.chain d)) slots₀) (happ : Appended slots₀ new (A'.slots l) e) (hdot : ∀ s ∈ new,
    ¬ DotSlot s) (hnew : ∀ (k : ℕ) (s : Slot), new[k]? = some s → RefSlot s → Points b (H.putDir d l) s ∧
    (2 ≤ slotCluster s → ∀ d' j' s',
    HasRef A' (H.putDir d l) d' j' s' → slotCluster s' = slotCluster s → d' = d ∧ j' = e + k))
    (hX : Carried (A.slots (H.chain d)) slots₀ (X d)) : Edits b A H A' (H.putDir d l) X := by
  refine ⟨h.putDir (Set.disjoint_left.1 h.kinds hd) hchain hout
    (happ.dotsFirst (htrim.dotsFirst (h.dots d hd)) hdot) fun j s hs href => ?_,
    keeps_putDir hout fun _ => happ.carried hX,
    fun hF => hF.put hfat (fun _ => hsub) Heads.putDir_all rfl, fun k hk => .inr (.inr hk)⟩
  rcases happ.cases hs with h1 | ⟨k, rfl, h1⟩ | h1
  · exact .inl ⟨⟨hd, htrim.refs j s h1 href⟩, href⟩
  · exact .inr (hnew k s h1 href)
  · exact absurd (h1 ▸ href.1) not_isShort_zeroSlot

theorem appended_zeros {m : ℕ} (hbuf : buf.length = m * 32) (g : ℕ) :
    ∃ e, Appended (chunks 32 buf) [] (chunks 32 (buf ++ replicate (g * 32) 0)) e := by
  obtain ⟨e, -, hle, hlive, hend⟩ := findEndMarker_spec hbuf
  have hlen : (chunks 32 buf).length = m := by
    rw [length_chunks, hbuf, Nat.mul_div_cancel _ (by norm_num)]
  have hz : chunks 32 (replicate (g * 32) (0 : UInt8)) = replicate g zeroSlot := by
    rw [replicate_zero_eq, chunks_flatten (by norm_num)]
    intro s hs
    rw [eq_of_mem_replicate hs, length_zeroSlot]
  rw [chunks_append (by norm_num) hbuf, hz]
  refine ⟨e, fun i hi => ?_, fun i hi => absurd hi (by simp), fun i s _ hs => ?_, hlive, hend⟩
  · rw [getElem?_append_left (by omega)]
  by_cases him : i < m
  · rw [getElem?_append_left (by omega)] at hs
    exact .inl hs
  · rw [getElem?_append_right (by omega)] at hs
    exact .inr (eq_of_mem_replicate (mem_of_getElem? hs))

/-- **The chain of a directory has grown**, and nothing has been written to it. -/
theorem Tree.growDir (h : Tree b A H) (hA : Shows b dev A) (hd : d ∈ H.dirs) (ht : (H.chain d).getLast? = some t)
    (hg : Grown b A t news A') (X : ℕ → ℕ → Prop) : Edits b A H A' (H.putDir d (H.chain d ++ news)) X := by
  have hchain := h.isChain hd
  have hcs := hA.valid.clusterSize_slots
  have hbuf : (A.bytes (H.chain d)).length = (H.chain d).length * (16 * b.sectorsPerCluster.toNat) * 32 := by
    rw [hA.length_bytes hchain.range, hcs]; ring
  obtain ⟨e, happ⟩ := appended_zeros hbuf (news.length * (16 * b.sectorsPerCluster.toNat))
  have hbytes := hg.bytes hchain
  rw [hcs, ← mul_assoc] at hbytes
  rw [← hbytes] at happ
  exact h.putAppended hd (hg.isChain hchain ht) (h.apart_append hd ht hg)
    (subset_append_left _ _) (Grown.used ht hg) (.refl _) happ (by simp) (by simp) (.refl _ _)

/-- The scan goes past slot `i`, which is no long name. -/
def Passed (slots : List Slot) (i : ℕ) : Prop :=
  ∃ u, slots[i]? = some u ∧ lfnLike u = false ∧ Live u ∧ ∀ t ∈ slots.take i, Live t

/-- **A directory with a new entry**, which refers to what nothing else refers to. -/
theorem Tree.appendEntry (h : Tree b A H) (hb : b.Covers) (hd : d ∈ H.dirs)
    (hbuf : buf.length = (H.chain d).length * b.clusterSize) (htrim : Trimmed (A.slots (H.chain d)) (chunks 32 buf))
    (ht : (H.chain d).getLast? = some t) (hg : Grown b A t news A') {name : List Char} {existing : List DirEntryView}
    {attr : UInt8} {firstCluster size : ℕ} (hattr : attr &&& ATTR_VOLUME_ID = 0) (hfc : firstCluster < 2 ^ 32)
    (hsize : size < 2 ^ 32) {new : List Slot}
    (hents : new = encodeEntrySlots name (uniqueShortName name existing) attr firstCluster size)
    (hlen : (appendBuf b.clusterSize buf new).length = (H.chain d ++ news).length * b.clusterSize) {B : Image}
    (hB : B = A'.setBytes b.clusterSize (H.chain d ++ news) (appendBuf b.clusterSize buf new))
    (hpoints : (attr &&& ATTR_DIRECTORY ≠ 0 → firstCluster ∈ H.dirs ∧ firstCluster ≠ b.rootCluster.toNat) ∧
    (¬ attr &&& ATTR_DIRECTORY ≠ 0 → 2 ≤ firstCluster → firstCluster ∈ H.files)) (hnew : 2 ≤ firstCluster →
    ∀ d' j' s', HasRef A H d' j' s' → slotCluster s' = firstCluster → d' = d ∧ (chunks 32 buf)[j']? ≠ some s')
    (hX : Carried (A.slots (H.chain d)) (chunks 32 buf) (X d)) (hold : ∀ i t, Visible (chunks 32 buf) i t →
    Visible (A.slots (H.chain d)) i t ∧ entryAt (chunks 32 buf) i t = entryAt (A.slots (H.chain d)) i t)
    (hgone : ∀ i t, Visible (A.slots (H.chain d)) i t → X d (entryAt (A.slots (H.chain d)) i t).slotStart →
    Passed (chunks 32 buf) i) : Edits b A H B (H.putDir d (H.chain d ++ news)) X ∧ (lfnCount name ≤ 256 → ∃ e,
    HasEntry B (H.putDir d (H.chain d ++ news)) d e ∧ ¬ HasEntry A H d e ∧ e.IsRef ∧ e.attr = attr ∧
    e.firstCluster = firstCluster ∧ e.size = size) ∧ (256 < lfnCount name → ∀ e,
    HasEntry B (H.putDir d (H.chain d ++ news)) d e → HasEntry A H d e) := by
  have hcs := hb.valid.clusterSize_slots
  have hshort := goodShort_uniqueShortName name existing
  have hslot : RefSlot (shortSlot (uniqueShortName name existing) attr firstCluster size) :=
    refSlot_shortSlot hattr hfc hsize
  obtain ⟨-, -, hA, -, hC, hS⟩ := shortSlot_spec attr hshort.length hfc hsize
  obtain ⟨e, -, happ⟩ := exists_appended (n := 16 * b.sectorsPerCluster.toNat)
    (m := (H.chain d).length * (16 * b.sectorsPerCluster.toNat)) (Nat.mul_pos (by norm_num) hb.valid.spc_pos)
    (by rw [hbuf, hcs]; ring) (hents ▸ length_of_mem_encodeEntrySlots hshort.length)
  rw [← hcs] at happ
  have hchain : IsChain b B d (H.chain d ++ news) :=
    (hg.isChain (h.isChain hd) ht).congr fun c _ => by rw [hB, Image.setBytes_fat]
  have hout := h.apart_grown hd ht hg (appendBuf b.clusterSize buf new)
  have hslots := slots_setBytes (A := A') hchain.linked.nodup hlen
  rw [← hB] at hout hslots
  -- the only new reference is the short slot of the entry
  have hnewRef : ∀ {k : ℕ} {s : Slot}, new[k]? = some s → IsShort s →
      k = lfnCount name ∧ s = shortSlot (uniqueShortName name existing) attr firstCluster size := by
    intro k s hs hshort
    exact short_of_encodeEntrySlots (hents ▸ hs) hshort
  refine ⟨h.putAppended hd hchain hout (subset_append_left _ _) ?_ htrim
    (by rw [hslots]; exact happ) ?_ ?_ hX, fun hle => ?_, fun hlong e' he' => ?_⟩
  · intro c hc h0
    rw [hB, Image.setBytes_fat] at h0
    exact Grown.used ht hg c hc h0
  · intro s hs hdot
    obtain ⟨k, hk⟩ := mem_iff_getElem?.1 hs
    obtain ⟨-, rfl⟩ := hnewRef hk hdot.1
    exact hslot.2 hdot.2
  · intro k s hs href
    obtain ⟨rfl, rfl⟩ := hnewRef hs href.1
    refine ⟨⟨fun hdir => ?_, fun hdir h2 => ?_⟩, fun h2 d' j' s' hr' heq => ?_⟩
    · rw [SlotIsDir, hA] at hdir
      rw [hC]
      exact ⟨.inr (hpoints.1 hdir).1, (hpoints.1 hdir).2⟩
    · rw [SlotIsDir, hA] at hdir
      rw [hC] at h2 ⊢
      exact hpoints.2 hdir h2
    rw [hC] at h2 heq
    -- an old reference to the same cluster is not in the buffer
    obtain ⟨⟨hd', hs'⟩, href'⟩ := hr'
    by_cases hne : d' = d
    · subst hne
      refine ⟨rfl, ?_⟩
      rw [Heads.putDir_self, hslots] at hs'
      rcases happ.cases hs' with h3 | ⟨k, rfl, h3⟩ | h3
      · exact absurd h3 (hnew h2 d' j' s' ⟨⟨hd, htrim.refs j' s' h3 href'⟩, href'⟩ heq).2
      · rw [(hnewRef h3 href'.1).1]
      · exact absurd (h3 ▸ href'.1) not_isShort_zeroSlot
    · have hd'' : d' ∈ H.dirs := hd'.resolve_left hne
      rw [Heads.putDir_of_ne hne, hout.slots hd'' hne] at hs'
      exact absurd (hnew h2 d' j' s' ⟨⟨hd'', hs'⟩, href'⟩ heq).1 hne
  · have hv := happ.visible_new (hents ▸ live_of_encodeEntrySlots hle) (hents ▸ getElem?_encodeEntrySlots) hslot.1
    refine ⟨_, hasEntry_iff.2 ⟨.inl rfl, e + lfnCount name, _, ?_, rfl⟩, fun hin => ?_, hslot.2, hA, hC, hS⟩
    · rw [Heads.putDir_self, hslots]
      exact hv
    -- an old entry lies in front of the new one
    rw [Heads.putDir_self, hslots] at hin
    obtain ⟨-, i, t, hi, heq⟩ := hasEntry_iff.1 hin
    have hstart := congrArg DirEntryView.slotStart heq
    rcases hX.kept i t hi with h1 | ⟨h1, h2⟩
    · obtain ⟨u, hu, hl, hlive, hbefore⟩ := hgone i t hi h1
      have hie := happ.lt_of_live hu hlive hbefore
      rw [entryAt_slotStart, entryAt_slotStart] at hstart
      have h3 := lfnLike_of_between (j := e + lfnCount name) (k := i) (by omega) (by omega)
        ((happ.before i hie).trans hu)
      rw [hl] at h3; cases h3
    · obtain ⟨h3, h4⟩ := happ.visible h1
      have h5 := hv.slotStart_inj h3 (by rw [hstart, h4, h2])
      have := happ.lt_of_live h1.get h1.short.live h1.live
      omega
  · obtain ⟨-, i, t, hi, rfl⟩ := hasEntry_iff.1 he'
    rw [Heads.putDir_self, hslots] at hi ⊢
    obtain ⟨k, u, hk, hu, hlive⟩ := @exists_not_live_of_encodeEntrySlots name
      (uniqueShortName name existing) attr firstCluster size hlong
    have hie := happ.lt_of_not_live (hents ▸ hu) hlive (fun m hm w hw hs => by
      have := (hnewRef hw hs).1
      omega) hi
    obtain ⟨h1, h2⟩ := hi.of_take fun m hm => (happ.before m (by omega)).symm
    obtain ⟨h3, h4⟩ := hold i t h1
    exact hasEntry_iff.2 ⟨hd, i, t, h3, by rw [← h2, h4]⟩

/-- **Marking an entry as deleted**: its slots are no references any more, the other entries stay. -/
theorem markDeleted_slots {buf' : List UInt8} (hv : Visible (chunks 32 buf) j s) (href : RefSlot s)
    (hbuf' : buf' = markDeleted (entryAt (chunks 32 buf) j s).slotCount (entryAt (chunks 32 buf) j s).slotStart buf) :
    Trimmed (chunks 32 buf) (chunks 32 buf') ∧ (∀ s', (chunks 32 buf')[j]? = some s' → ¬ IsShort s') ∧ Carried
    (chunks 32 buf) (chunks 32 buf') (fun ss => ss = (entryAt (chunks 32 buf) j s).slotStart) ∧ (∀ i t,
    Visible (chunks 32 buf') i t → Visible (chunks 32 buf) i t ∧
    entryAt (chunks 32 buf') i t = entryAt (chunks 32 buf) i t) ∧ Passed (chunks 32 buf') j := by
  rw [entryAt_slotStart, entryAt_slotCount] at hbuf'
  have hle := lfnBefore_le (chunks 32 buf) j
  have hlen := (List.getElem?_eq_some_iff.1 hv.get).1
  have hget := getElem?_chunks_markDeleted (lfnBefore (chunks 32 buf) j + 1)
    (j - lfnBefore (chunks 32 buf) j) buf (by omega)
  rw [← hbuf'] at hget
  generalize chunks 32 buf = slots at *
  generalize chunks 32 buf' = slots' at *
  have hstart : ∀ i t, Visible slots i t → i = j → (entryAt slots i t).slotStart = (entryAt slots j s).slotStart := by
    rintro i t - rfl
    rw [entryAt_slotStart, entryAt_slotStart]
  have hbetween : ∀ {k : ℕ} {t : Slot}, j - lfnBefore slots j ≤ k → k ≤ j →
      slots[k]? = some t → IsShort t → k = j := by
    intro k t h1 h2 ht hshort
    by_contra hne
    exact not_isShort_of_lfnLike (lfnLike_of_between h1 (by omega) ht) hshort
  generalize hn : lfnBefore slots j = n at *
  have hin : ∀ {k : ℕ} {t : Slot}, j - n ≤ k → k ≤ j → slots'[k]? = some t → ¬ IsShort t := by
    intro k t h1 h2 ht
    rw [hget, if_pos (by omega)] at ht
    obtain ⟨u, -, rfl⟩ := Option.map_eq_some_iff.1 ht
    exact not_isShort_delSlot u
  have hout : ∀ k, k < j - n ∨ j < k → slots'[k]? = slots[k]? := by
    intro k hk
    rw [hget, if_neg (by omega)]
  have hj : slots'[j]? = some (delSlot s) := by
    rw [hget, if_pos (by omega), hv.get]
    rfl
  -- the slots of the entry were live before they were marked
  have hold : ∀ i t, Visible slots' i t → Visible slots i t ∧ entryAt slots' i t = entryAt slots i t := by
    intro i t ht
    have hi : i < j - n ∨ j < i := by
      by_contra hi
      exact hin (by omega) (by omega) ht.get ht.short
    obtain ⟨h1, h2⟩ := ht.of_agree (j - n) (fun k hk => (hout k hk).symm) hj (lfnLike_delSlot s)
      hv.get hv.short.not_lfn (fun k u u' hu hu' hl => by
        by_cases hk : k < j - n ∨ j < k
        · rw [hout k hk, hu', Option.some.injEq] at hu
          rw [hu]; exact hl
        · rcases Nat.lt_or_eq_of_le (show k ≤ j by omega) with hkj | rfl
          · exact hv.live u' (mem_take_iff_getElem?.2 ⟨k, hkj, hu'⟩)
          · rw [hv.get, Option.some.injEq] at hu'
            rw [← hu']; exact hv.short.live) hi
    exact ⟨h1, h2.symm⟩
  have hlive : ∀ (k : ℕ) (u u' : Slot), slots[k]? = some u → slots'[k]? = some u' → Live u → Live u' := by
    intro k u u' hu hu' hl
    rw [hget, hu] at hu'
    split_ifs at hu' with hk
    · rw [Option.map_some, Option.some.injEq] at hu'
      rw [← hu', Live, slotFirst_delSlot]
      decide
    · rw [Option.some.injEq] at hu'
      rw [← hu']; exact hl
  refine ⟨⟨fun k t ht hr => ?_, fun k t hdot => ?_⟩, fun s' hs' => hin (by omega) le_rfl hs',
    ⟨fun i t ht => ?_, fun i t ht => ?_⟩, hold, delSlot s, hj, lfnLike_delSlot s, ?_, ?_⟩
  · by_cases hk : k < j - n ∨ j < k
    · rwa [hout k hk] at ht
    · exact absurd hr.1 (hin (by omega) (by omega) ht)
  · by_cases hk : k < j - n ∨ j < k
    · rw [hout k hk]
    · refine iff_of_false (fun ht => hin (by omega) (by omega) ht hdot.1) fun ht => ?_
      obtain rfl := hbetween (by omega) (by omega) ht hdot.1
      rw [hv.get, Option.some.injEq] at ht
      exact href.2 (ht ▸ hdot.2)
  · by_cases hne : i = j
    · exact .inl (hstart i t ht hne)
    · right
      refine ht.of_agree (j - n) hout hv.get hv.short.not_lfn hj (lfnLike_delSlot s) hlive ?_
      by_contra hi
      exact hne (hbetween (by omega) (by omega) ht.get ht.short)
  · obtain ⟨h1, h2⟩ := hold i t ht
    exact .inl ⟨t, h1, by rw [h2]⟩
  · rw [Live, slotFirst_delSlot]
    decide
  · intro u' hu'
    obtain ⟨k, hkj, hk⟩ := mem_take_iff_getElem?.1 hu'
    have hu : slots[k]? = some slots[k] := getElem?_eq_getElem (by omega)
    exact hlive k _ u' hu hk (hv.live _ (mem_take_iff_getElem?.2 ⟨k, hkj, hu⟩))

/-- **An entry is marked as deleted.**  What it referred to, nothing refers to any more. -/
theorem Tree.markEntry (h : Tree b A H) (hA : Shows b dev A) (hd : d ∈ H.dirs)
    (hv : Visible (A.slots (H.chain d)) j s) (href : RefSlot s) : ∃ buf', buf' = markDeleted
    (entryAt (A.slots (H.chain d)) j s).slotCount (entryAt (A.slots (H.chain d)) j s).slotStart (A.bytes (H.chain d))
    ∧ buf'.length = (H.chain d).length * b.clusterSize ∧ Edits b A H (A.setBytes b.clusterSize (H.chain d) buf') H
    (fun d' ss => d' = d ∧ ss = (entryAt (A.slots (H.chain d)) j s).slotStart) ∧ ∀ d' j' s', HasRef
    (A.setBytes b.clusterSize (H.chain d) buf') H d' j' s' → HasRef A H d' j' s' ∧ ¬ (d' = d ∧ j' = j) := by
  have hchain := h.isChain hd
  have hbuf := hA.length_bytes hchain.range
  obtain ⟨buf', hbuf'⟩ : ∃ buf', buf' = markDeleted (entryAt (A.slots (H.chain d)) j s).slotCount
      (entryAt (A.slots (H.chain d)) j s).slotStart (A.bytes (H.chain d)) := ⟨_, rfl⟩
  obtain ⟨htrim, hgone, hothers, -⟩ := markDeleted_slots hv href hbuf'
  have hlen : buf'.length = (H.chain d).length * b.clusterSize := by
    rw [hbuf', length_markDeleted, hbuf]
    have h1 := (List.getElem?_eq_some_iff.1 hv.get).1
    have h2 := lfnBefore_le (A.slots (H.chain d)) j
    rw [Image.slots, length_chunks] at h1
    have h3 := Nat.div_mul_le_self (A.bytes (H.chain d)).length 32
    rw [entryAt_slotStart, entryAt_slotCount]
    omega
  refine ⟨buf', hbuf', hlen, ?_⟩
  rw [← Image.slots] at htrim hothers
  have hslots := slots_setBytes (A := A) hchain.linked.nodup hlen
  have hout := h.apart_setBytes hd buf'
  have hrefs : ∀ d' j' s', HasRef (A.setBytes b.clusterSize (H.chain d) buf') H d' j' s' →
      HasRef A H d' j' s' ∧ ¬ (d' = d ∧ j' = j) := by
    rintro d' j' s' ⟨⟨hd', hs'⟩, hr'⟩
    by_cases hne : d' = d
    · subst hne
      rw [hslots] at hs'
      exact ⟨⟨⟨hd', htrim.refs j' s' hs' hr'⟩, hr'⟩, fun hj => hgone s' (hj.2 ▸ hs') hr'.1⟩
    · rw [hout.slots hd' hne] at hs'
      exact ⟨⟨⟨hd', hs'⟩, hr'⟩, fun hj => hne hj.1⟩
  refine ⟨h.setDir hd hlen (htrim.dotsFirst (h.dots d hd)) (fun j' s' hs' hr' =>
    .inl ⟨⟨hd, htrim.refs j' s' hs' hr'⟩, hr'⟩) ?_, hrefs⟩
  exact ⟨fun i t ht => (hothers.kept i t ht).imp_left fun heq => ⟨rfl, heq⟩, fun i t ht =>
    (hothers.old i t ht).imp_right fun h1 k u hu hX => h1 k u hu fun heq => hX ⟨rfl, heq⟩⟩

theorem Visible.set {slots : List Slot} {i : ℕ} {u s' : Slot} (hu : Visible slots i u) (hj : slots[j]? = some s)
    (hs : IsShort s) (hs' : IsShort s') (hi : i ≠ j) :
    Visible (slots.set j s') i u ∧ entryAt (slots.set j s') i u = entryAt slots i u := by
  have hget : ∀ {k : ℕ}, k ≠ j → (slots.set j s')[k]? = slots[k]? := fun hk => getElem?_set_ne (Ne.symm hk)
  have hgetj : (slots.set j s')[j]? = some s' := getElem?_set_self (List.getElem?_eq_some_iff.1 hj).1
  refine hu.of_agree j (fun k hk => hget (by omega)) hj hs.not_lfn hgetj hs'.not_lfn (fun k w w' hw hw' hl => ?_)
    (by omega)
  by_cases hk : k = j
  · rw [hk, hgetj] at hw'
    cases hw'
    exact hs'.live
  · rw [hget hk, hw] at hw'
    cases hw'
    exact hl

/-- **An entry is patched.**  It refers to a file that nothing else refers to. -/
theorem Tree.patchEntry (h : Tree b A H) (hA : Shows b dev A) (hd : d ∈ H.dirs)
    (hv : Visible (A.slots (H.chain d)) j s) (href : RefSlot s) (hfile : ¬ SlotIsDir s) {firstCluster : ℕ} (size : ℕ)
    (hfc : firstCluster < 2 ^ 32) (hpoints : 2 ≤ firstCluster → firstCluster ∈ H.files)
    (hnew : 2 ≤ firstCluster → ∀ d' j' s', HasRef A H d' j' s' → slotCluster s' = firstCluster → d' = d ∧ j' = j) :
    ∃ buf' e', buf' = splice (A.bytes (H.chain d)) (j * 32)
        (patchSlot (slice (A.bytes (H.chain d)) (j * 32) 32) firstCluster size) ∧
      e' = { entryAt (A.slots (H.chain d)) j s with firstCluster := firstCluster, size := size % 2 ^ 32 } ∧
      buf'.length = (H.chain d).length * b.clusterSize ∧
      j * 32 + 32 ≤ (A.bytes (H.chain d)).length ∧
      Edits b A H (A.setBytes b.clusterSize (H.chain d) buf') H
        (fun d' ss => d' = d ∧ ss = (entryAt (A.slots (H.chain d)) j s).slotStart) ∧
      HasEntry (A.setBytes b.clusterSize (H.chain d) buf') H d e' ∧
      ∀ c, findName (A.entries (H.chain d)) c = some (entryAt (A.slots (H.chain d)) j s) →
        findName ((A.setBytes b.clusterSize (H.chain d) buf').entries (H.chain d)) c = some e' := by
  have hchain := h.isChain hd
  have hbuf := hA.length_bytes hchain.range
  obtain ⟨hj, hslice⟩ := getElem?_chunks.1 hv.get
  have hs32 : s.length = 32 := length_of_mem_chunks (mem_of_getElem? hv.get)
  have hfit : j * 32 + 32 ≤ (A.bytes (H.chain d)).length := by
    have h1 := Nat.div_mul_le_self (A.bytes (H.chain d)).length 32
    omega
  obtain ⟨p1, p2, p3, p4, p5, p6⟩ := patchSlot_spec hs32 firstCluster size
  rw [hslice]
  generalize patchSlot s firstCluster size = s' at *
  have hlen : (splice (A.bytes (H.chain d)) (j * 32) s').length = (H.chain d).length * b.clusterSize := by
    rw [length_splice (by omega), hbuf]
  have hchunks : chunks 32 (splice (A.bytes (H.chain d)) (j * 32) s') = (A.slots (H.chain d)).set j s' := by
    have h1 := chunks_splice (j := 0) (d := s') hv.get (by omega)
    have h2 : splice s 0 s' = s' := by
      rw [splice, p1, take_zero, nil_append, zero_add, ← hs32, drop_length, append_nil]
    rw [add_zero, h2] at h1
    exact h1
  refine ⟨_, _, rfl, rfl, hlen, hfit, ?_⟩
  generalize splice (A.bytes (H.chain d)) (j * 32) s' = buf' at *
  have hslots := slots_setBytes (A := A) hchain.linked.nodup hlen
  rw [hchunks] at hslots
  have hout := h.apart_setBytes hd buf'
  have hdots := h.dots d hd
  have hold : ∀ k t, (A.slots (H.chain d))[k]? = some t → RefSlot t → HasRef A H d k t := fun _ _ ht hr => ⟨⟨hd, ht⟩, hr⟩
  change _ ∧ _ ∧ ∀ c, findName (decodeSlots (A.slots (H.chain d)) 0 []) c = _ → findName (decodeSlots _ 0 []) c = _
  generalize hsl : A.slots (H.chain d) = slots at *
  have hshort : IsShort s' := ⟨by rw [p2]; exact href.1.1, by rw [p2]; exact href.1.2.1, by rw [p3]; exact href.1.2.2⟩
  have href' : RefSlot s' := ⟨hshort, by rw [p4]; exact href.2⟩
  obtain ⟨hjlen, hsj⟩ := List.getElem?_eq_some_iff.1 hv.get
  have hget : ∀ {k : ℕ}, k ≠ j → (slots.set j s')[k]? = slots[k]? := fun hk => getElem?_set_ne (Ne.symm hk)
  have hgetj : (slots.set j s')[j]? = some s' := getElem?_set_self hjlen
  have hcl : slotCluster s' = firstCluster := by rw [p5, Nat.mod_eq_of_lt hfc]
  have hnew' : entryAt (slots.set j s') j s' =
      { entryAt slots j s with firstCluster := firstCluster, size := size % 2 ^ 32 } := by
    rw [entryAt, entryAt, take_set_of_le le_rfl]
    simp only [shortEntry, p3, p4, hcl, p6]
  -- the other entries are those of before
  have hback : ∀ i t, Visible (slots.set j s') i t → i ≠ j →
      Visible slots i t ∧ entryAt slots i t = entryAt (slots.set j s') i t := by
    intro i t ht hi
    have := ht.set hgetj hshort hv.short hi
    rwa [set_set, ← hsj, set_getElem_self] at this
  have hvis : Visible (slots.set j s') j s' := by
    refine ⟨hgetj, hshort, ?_⟩
    rw [take_set_of_le le_rfl]
    exact hv.live
  refine ⟨h.setDir hd hlen ?_ ?_ ?_, ?_, fun c hc => ?_⟩
  · rw [hchunks]
    refine hdots.congr fun k t ht => ?_
    by_cases hk : k = j
    · rw [hk, hgetj, hv.get, Option.some.injEq, Option.some.injEq]
      exact iff_of_false (fun heq => href'.2 (heq ▸ ht.2)) fun heq => href.2 (heq ▸ ht.2)
    · rw [hget hk]
  · intro k t ht hr
    rw [hchunks] at ht
    by_cases hk : k = j
    · subst hk
      rw [hgetj] at ht
      cases ht
      refine .inr ⟨⟨fun hdir => ?_, fun _ h2 => ?_⟩, fun h2 d' j' t' hr' heq => ?_⟩
      · rw [SlotIsDir, p3] at hdir
        exact absurd hdir hfile
      · rw [hcl] at h2 ⊢
        exact hpoints h2
      rw [hcl] at h2 heq
      obtain ⟨⟨hd', ht'⟩, hrt⟩ := hr'
      by_cases hne : d' = d
      · subst hne
        rw [hslots] at ht'
        by_cases hk' : j' = k
        · exact ⟨rfl, hk'⟩
        · rw [hget hk'] at ht'
          exact hnew h2 d' j' t' (hold j' t' ht' hrt) heq
      · rw [hout.slots hd' hne] at ht'
        exact hnew h2 d' j' t' ⟨⟨hd', ht'⟩, hrt⟩ heq
    · rw [hget hk] at ht
      exact .inl (hold k t ht hr)
  · rw [hchunks, hsl]
    refine ⟨fun i t ht => ?_, fun i t ht => ?_⟩
    · by_cases hi : i = j
      · refine .inl ⟨rfl, ?_⟩
        rw [entryAt_slotStart, entryAt_slotStart, hi]
      · exact .inr (ht.set hv.get hv.short hshort hi)
    · refine .inl ?_
      by_cases hi : i = j
      · subst hi
        have h1 := ht.get
        rw [hgetj, Option.some.injEq] at h1
        exact ⟨s, hv, by rw [← h1, hnew']⟩
      · obtain ⟨h1, h2⟩ := hback i t ht hi
        exact ⟨t, h1, by rw [h2]⟩
  · refine hasEntry_iff.2 ⟨hd, j, s', ?_, ?_⟩
    · rw [hslots]; exact hvis
    · rw [hslots, hnew']
  · obtain ⟨i, t, ht, heq, hname, hfirst⟩ := findName_iff.1 hc
    obtain rfl : j = i := hv.slotStart_inj ht (congrArg DirEntryView.slotStart heq)
    rw [← Image.slots, hslots]
    refine findName_iff.2 ⟨j, s', hvis, hnew'.symm, hname, fun k u hk hu => ?_⟩
    obtain ⟨h1, h2⟩ := hback k u hu (by omega)
    rw [← h2]
    exact hfirst k u hk h1

/-! ## New chains -/

theorem Tree.notMem_of_free (h : Tree b A H) (hc : A.fat c = 0) :
    ∀ k ∈ H.all, c ∉ H.chain k := fun k hk hmem => (h.chains.chain k hk).not_free hmem hc

theorem Tree.notMem_all_of_free (h : Tree b A H) (hc : A.fat c = 0) : c ∉ H.all :=
  fun hmem => h.notMem_of_free hc c hmem (h.chains.chain c hmem).linked.mem

theorem Tree.ref_ne_free (h : Tree b A H) (hc : b.Cluster c) (hfree : A.fat c = 0)
    (hr : HasRef A H d j s) : slotCluster s ≠ c := fun heq =>
  h.notMem_all_of_free hfree (heq ▸ h.mem_all hr (by rw [heq]; exact hc.1))

section
variable (h : Tree b A H) {l : List ℕ} {a : ℕ} (hl : l = [] ∨ a ∈ H.files ∧ l = H.chain a)
  (he : Extends b A l news a A')
include h hl he

theorem Tree.apart_extends : a ∉ H.dirs ∧ Tree.Apart A A' H a (l ++ news) := by
  constructor
  · rcases hl with rfl | ⟨ha, -⟩
    · intro hd
      exact h.notMem_all_of_free (he.free a he.chain.linked.mem) (.inl hd)
    · exact fun hd => Set.disjoint_left.1 h.kinds hd ha
  · intro k hk hne c hc
    have hcl : c ∉ l := by
      rcases hl with rfl | ⟨ha, rfl⟩
      · simp
      · exact h.chains.disjoint k hk a (.inr ha) hne hc
    have hcn : c ∉ news := fun hn => h.notMem_of_free (he.free c hn) k hk hc
    exact ⟨by simp [hcl, hcn], he.fat c hcl hcn, he.data c hcl hcn⟩

/-- **A file is written to**: its chain, which may be new, goes on through free clusters. -/
theorem Tree.extendFile (X : ℕ → ℕ → Prop) : Edits b A H A' (H.putFile a (l ++ news)) X ∧
    (∀ d j s, HasRef A' (H.putFile a (l ++ news)) d j s → HasRef A H d j s) ∧ ∀ d ∈ H.dirs,
    A'.bytes ((H.putFile a (l ++ news)).chain d) = A.bytes (H.chain d) := by
  obtain ⟨hdir, hout⟩ := h.apart_extends hl he
  obtain ⟨h1, h2⟩ := h.putFile hdir he.chain hout
  have hbytes : ∀ d ∈ H.dirs, A'.bytes ((H.putFile a (l ++ news)).chain d) = A.bytes (H.chain d) := by
    intro d hd
    have hne : d ≠ a := fun heq => hdir (heq ▸ hd)
    rw [show (H.putFile a (l ++ news)).chain d = H.chain d from Function.update_of_ne hne _ _, hout.bytes hd hne]
  refine ⟨⟨h1, ?_, fun hF => ?_, fun d hd => .inr hd⟩, fun d j s hr => ⟨(h2 d j s).1 hr.1, hr.2⟩, hbytes⟩
  · refine @keeps_of_slots A A' H (H.putFile a (l ++ news)) (fun d hd => hd) (fun d hd => ?_) X
    rw [Image.slots, hbytes d hd, Image.slots]
  refine hF.put (fun c hc h0 => ?_) (fun ha => ?_) Heads.putFile_all rfl
  · rw [mem_append, not_or] at hc
    rwa [← he.fat c hc.1 hc.2]
  · rcases hl with rfl | ⟨-, rfl⟩
    · exact absurd ha (h.notMem_all_of_free (he.free a he.chain.linked.mem))
    · exact subset_append_left _ _

end

theorem chunks_newDirBuf (hb : b.Valid) (c p : ℕ) : (newDirBuf b c p).length = b.clusterSize ∧ ∃ k,
    chunks 32 (newDirBuf b c p) = makeDotEntry DOT_NAME ATTR_DIRECTORY c :: makeDotEntry DOTDOT_NAME
    ATTR_DIRECTORY p :: replicate k zeroSlot := by
  have hcs := hb.clusterSize_slots
  have hspc := hb.spc_pos
  have hx : (makeDotEntry DOT_NAME ATTR_DIRECTORY c).length = 32 := by simp [makeDotEntry, shortSlot, DOT_NAME]
  have hy : (makeDotEntry DOTDOT_NAME ATTR_DIRECTORY p).length = 32 := by simp [makeDotEntry, shortSlot, DOTDOT_NAME]
  unfold newDirBuf
  generalize makeDotEntry DOT_NAME ATTR_DIRECTORY c = x at *
  generalize makeDotEntry DOTDOT_NAME ATTR_DIRECTORY p = y at *
  have hz : ∀ {n : ℕ}, ∀ s ∈ replicate n zeroSlot, s.length = 32 :=
    fun s hs => by rw [eq_of_mem_replicate hs, length_zeroSlot]
  have hslots : ∀ s ∈ x :: y :: replicate (16 * b.sectorsPerCluster.toNat - 2) zeroSlot, s.length = 32 :=
    forall_mem_cons.2 ⟨hx, forall_mem_cons.2 ⟨hy, hz⟩⟩
  have hbuf : splice (replicate b.clusterSize 0) 0 (x ++ y) =
      (x :: y :: replicate (16 * b.sectorsPerCluster.toNat - 2) zeroSlot).flatten := by
    have hxy : ∀ s ∈ [x, y], s.length = 32 := by simp [hx, hy]
    have h1 := splice_flatten (k := 0) (hz (n := 16 * b.sectorsPerCluster.toNat)) hxy
    rw [zero_mul, ← replicate_zero_eq, ← hcs] at h1
    simpa [splice] using h1
  rw [hbuf]
  refine ⟨?_, _, chunks_flatten (by norm_num) hslots⟩
  rw [length_flatten_const hslots, length_cons, length_cons, length_replicate, hcs]
  omega

theorem dotSlot_makeDotEntry {name : List UInt8} (hname : name = DOT_NAME ∨ name = DOTDOT_NAME) (hc : c < 2 ^ 32) :
    DotSlot (makeDotEntry name ATTR_DIRECTORY c) := by
  have hlen : name.length = 11 := by rcases hname with rfl | rfl <;> rfl
  obtain ⟨-, h1, h2, h3, -, -⟩ := shortSlot_spec ATTR_DIRECTORY hlen hc (by norm_num : 0 < 2 ^ 32)
  refine ⟨⟨?_, ?_, ?_⟩, ?_⟩
  · rw [makeDotEntry, h1]
    rcases hname with rfl | rfl <;> decide
  · rw [makeDotEntry, h1]
    rcases hname with rfl | rfl <;> decide
  · rw [makeDotEntry, h2]
    decide
  · rw [makeDotEntry, h3]
    exact hname

/-- **A new directory** in a cluster that was free. -/
theorem Tree.addDir (h : Tree b A H) (hb : b.Covers) {p : ℕ} (hc : b.Cluster c)
    (hfree : A.fat c = 0) (hc32 : c < 2 ^ 32) (hp32 : p < 2 ^ 32) (X : ℕ → ℕ → Prop)
    (hA' : A' = (A.setFat c EOC).setBytes b.clusterSize [c] (newDirBuf b c p)) :
    Edits b A H A' (H.putDir c [c]) X ∧ (∀ d j s, HasRef A' (H.putDir c [c]) d j s → HasRef A H d j s) ∧
      ∀ d ∈ H.dirs, A'.bytes ((H.putDir c [c]).chain d) = A.bytes (H.chain d) := by
  obtain ⟨hlen, k, hchunks⟩ := chunks_newDirBuf hb.valid c p
  have hslots : A'.slots [c] = chunks 32 (newDirBuf b c p) := by
    rw [hA']
    exact slots_setBytes (by simp) (by rw [hlen, length_singleton, one_mul])
  have hfat : ∀ x, A'.fat x = if x = c then EOC else A.fat x := fun x => by
    rw [hA', Image.setBytes_fat, Image.setFat_fat]
  have hchain : IsChain b A' c [c] := by
    refine ⟨.last ?_, by simpa using hc⟩
    rw [Image.next_eq_none, hfat, if_pos rfl]
    rfl
  have hnot := h.notMem_all_of_free hfree
  have hout : Tree.Apart A A' H c [c] := by
    intro m hm _ x hx
    have hxc : x ≠ c := fun heq => h.notMem_of_free hfree m hm (heq ▸ hx)
    refine ⟨by simpa using hxc, by rw [hfat, if_neg hxc], ?_⟩
    rw [hA', Image.setBytes_data_of_notMem _ _ _ (by simpa using hxc), Image.setFat_data]
  have hd1 := dotSlot_makeDotEntry (.inl rfl) hc32
  have hd2 := dotSlot_makeDotEntry (.inr rfl) hp32
  -- the slots of the new directory are two dot slots and zeros
  have hkind : ∀ (j : ℕ) (s : Slot), (chunks 32 (newDirBuf b c p))[j]? = some s →
      (j = 0 ∨ j = 1) ∧ DotSlot s ∨ s = zeroSlot := by
    intro j s hs
    rw [hchunks] at hs
    match j with
    | 0 => exact .inl ⟨.inl rfl, by simpa using (by simpa using hs) ▸ hd1⟩
    | 1 => exact .inl ⟨.inr rfl, by simpa using (by simpa using hs) ▸ hd2⟩
    | j + 2 =>
      simp only [getElem?_cons_succ] at hs
      exact .inr (eq_of_mem_replicate (mem_of_getElem? hs))
  have hnoref : ∀ (j : ℕ) (s : Slot), (chunks 32 (newDirBuf b c p))[j]? = some s → ¬ RefSlot s := by
    intro j s hs hr
    rcases hkind j s hs with ⟨-, h1⟩ | h1
    · exact hr.2 h1.2
    · exact not_isShort_zeroSlot (h1 ▸ hr.1)
  refine ⟨⟨h.putDir (fun hf => hnot (.inr hf)) hchain hout ?_ ?_, ?_, ?_, fun d hd => .inr (.inr hd)⟩,
    ?_, fun d hd => ?_⟩
  · rw [hslots]
    intro j s hs hdot
    rcases hkind j s hs with ⟨h1 | h1, -⟩ | h1
    · exact .inl h1
    · exact .inr ⟨h1, _, by rw [hchunks]; rfl, hd1⟩
    · exact absurd (h1 ▸ hdot.1) not_isShort_zeroSlot
  · intro j s hs hr
    rw [hslots] at hs
    exact absurd hr (hnoref j s hs)
  · exact keeps_putDir hout fun hd => absurd (.inl hd) hnot
  · refine fun hF => hF.put (fun x hx h0 => ?_) (fun ha => absurd ha hnot) Heads.putDir_all rfl
    rwa [hfat, if_neg (by simpa using hx)] at h0
  · rintro d j s ⟨⟨hd, hs⟩, hr⟩
    by_cases hne : d = c
    · subst hne
      rw [Heads.putDir_self, hslots] at hs
      exact absurd hr (hnoref j s hs)
    · have hd' : d ∈ H.dirs := hd.resolve_left hne
      rw [Heads.putDir_of_ne hne, hout.slots hd' hne] at hs
      exact ⟨⟨hd', hs⟩, hr⟩
  · have hne : d ≠ c := fun heq => hnot (.inl (heq ▸ hd))
    rw [Heads.putDir_of_ne hne, hout.bytes hd hne]

end

end Archis.Fat32
