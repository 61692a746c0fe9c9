/-
  Directory entries (`modules/fat32/src/dir.rs`).

  An entry is a chain of long-name slots, the last part of the name first, and the short slot behind them.
  `decode_appendBuf_iff`: a new entry is read back exactly if its name has no U+FFFF and its long-name slots are at
  most 228 and not 165, because their number is the first byte of a slot. `uniqueShortName_fresh`: its short name is
  no other entry's.
-/
import Archis.Lib.Utf
import Archis.Fat32.View

namespace Archis.Fat32

open Archis.Lib List
open List (replicate)

/-! ## Entries -/

def ATTR_VOLUME_ID : UInt8 := 0x08
def ATTR_DIRECTORY : UInt8 := 0x10
def ATTR_ARCHIVE : UInt8 := 0x20
def ATTR_SYMLINK : UInt8 := 0x40
def ATTR_LFN : UInt8 := 0x0F

/-- A slot of a directory; its length is 32. -/
abbrev Slot := List UInt8

structure DirEntryView where
  longName : List Char
  shortName : List UInt8
  attr : UInt8
  firstCluster : ℕ
  size : ℕ
  /-- the byte offset of the first slot of the entry -/
  slotStart : ℕ
  slotCount : ℕ
  deriving DecidableEq, Repr

namespace DirEntryView

def isDir (e : DirEntryView) : Bool := e.attr &&& ATTR_DIRECTORY ≠ 0

def isSymlink (e : DirEntryView) : Bool := e.attr &&& ATTR_SYMLINK ≠ 0

def root (rootCluster : ℕ) : DirEntryView :=
  ⟨['/'], replicate 11 0x20, ATTR_DIRECTORY, rootCluster, 0, 0, 0⟩

end DirEntryView

/-! ## Decoding -/

/-- The characters that `trim_end` removes: those with the Unicode property `White_Space`. -/
def isWhitespace (c : Char) : Bool :=
  let n := c.toNat
  (9 ≤ n && n ≤ 13) || n = 0x20 || n = 0x85 || n = 0xA0 || n = 0x1680 ||
    (0x2000 ≤ n && n ≤ 0x200A) || n = 0x2028 || n = 0x2029 || n = 0x202F || n = 0x205F || n = 0x3000

def trimEnd (s : List Char) : List Char := s.rdropWhile isWhitespace

def deriveShortDisplayName (short : List UInt8) : List Char :=
  let base := trimEnd ((utf8Decode (slice short 0 8)).getD [])
  let ext := trimEnd ((utf8Decode (slice short 8 3)).getD [])
  if ext = [] then base else base ++ '.' :: ext

/-- The units of a chunk up to the terminator, without padding. -/
def chunkUnits (chunk : List ℕ) : List ℕ := (chunk.takeWhile (· ≠ 0)).filter (· ≠ 0xFFFF)

/-- The parts are in the order of the slots; the numbers of the slots are not looked at. -/
def decodeLfnName (parts : List (List ℕ)) : List Char :=
  utf16DecodeLossy (parts.reverse.flatMap chunkUnits)

section
variable (slot : Slot)

def lfnChunk : List ℕ :=
  (List.range 5).map (fun k => ofLe (slice slot (1 + k * 2) 2)) ++ (List.range 6).map
    (fun k => ofLe (slice slot (14 + k * 2) 2)) ++ (List.range 2).map (fun k => ofLe (slice slot (28 + k * 2) 2))

def slotFirst : UInt8 := slot.getD 0 0

def slotAttr : UInt8 := slot.getD 11 0

/-- `(first_cluster_hi << 16) | first_cluster_lo`. -/
def slotCluster : ℕ := ofLe (slice slot 20 2) * 2 ^ 16 + ofLe (slice slot 26 2)

/-- The entry of the short slot at offset `i`, behind the long-name parts. -/
def shortEntry (i : ℕ) (parts : List (List ℕ)) : DirEntryView where
  longName := if parts = [] then deriveShortDisplayName (slice slot 0 11) else decodeLfnName parts
  shortName := slice slot 0 11
  attr := slotAttr slot
  firstCluster := slotCluster slot
  size := ofLe (slice slot 28 4)
  slotStart := i - parts.length * 32
  slotCount := parts.length + 1

end

/-- The loop of `decode_dir_entries` from offset `i` on, with the long-name parts that are open. -/
def decodeSlots : List Slot → ℕ → List (List ℕ) → List DirEntryView
  | [], _, _ => []
  | slot :: rest, i, parts =>
    if slotFirst slot = 0x00 then []
    else if slotFirst slot = 0xE5 then decodeSlots rest (i + 32) []
    else if slotAttr slot = ATTR_LFN then decodeSlots rest (i + 32) (parts ++ [lfnChunk slot])
    else if slotAttr slot &&& ATTR_VOLUME_ID ≠ 0 then decodeSlots rest (i + 32) []
    else shortEntry slot i parts :: decodeSlots rest (i + 32) []

def decodeDirEntries (buf : List UInt8) : List DirEntryView := decodeSlots (chunks 32 buf) 0 []

/-! ## Encoding -/

section
variable (name : List Char) (shortName : List UInt8)

/-- `name.rfind('.')`: the base and the extension; a dot in front is part of the base. -/
def splitExt : List Char × List Char :=
  let ext := name.rtakeWhile (· ≠ '.')
  if ext.length + 1 < name.length then (name.take (name.length - ext.length - 1), ext)
  else (name, [])

def isAsciiAlphanumeric (c : Char) : Bool :=
  ('0' ≤ c && c ≤ '9') || ('A' ≤ c && c ≤ 'Z') || ('a' ≤ c && c ≤ 'z')

/-- The first `n` ASCII letters and digits of a part of the name, in upper case. -/
def shortPart (n : ℕ) (part : List Char) : List UInt8 :=
  (((part.map toAsciiUpper).filter isAsciiAlphanumeric).take n).map fun c => UInt8.ofNat c.toNat

/-- `[b' '; n]` with the bytes in front. -/
def padTo (n : ℕ) (l : List UInt8) : List UInt8 := (l ++ replicate n 0x20).take n

def makeShortName (tail : ℕ) : List UInt8 :=
  let (basePart, extPart) := splitExt name
  let tailStr : List UInt8 := 0x7E :: (Nat.toDigits 10 tail).map fun c => UInt8.ofNat c.toNat
  let baseBudget := max (8 - tailStr.length) 1
  let base := shortPart baseBudget basePart
  let base := if base = [] then [0x5F] else base
  padTo 8 (base ++ tailStr) ++ padTo 3 (shortPart 3 extPart)

/-- The first of the tails that gives an unused name, and the last tail if there is none. -/
def uniqueShortName (existing : List DirEntryView) : List UInt8 :=
  match (range' 1 999999).find? fun tail =>
      !existing.any fun e => e.shortName = makeShortName name tail with
  | some tail => makeShortName name tail
  | none => makeShortName name 999999

def lfnChecksum : UInt8 :=
  shortName.foldl (fun sum b => (if sum &&& 1 ≠ 0 then (0x80 : UInt8) else 0) + (sum >>> 1) + b) 0

def lfnCount : ℕ := max (((utf16Encode name).length + 12) / 13) 1

/-- The units of slot number `seq`: of the name, the terminator, and padding. -/
def lfnUnits (units : List ℕ) (seq : ℕ) : List ℕ :=
  (List.range 13).map fun j =>
    let idx := (seq - 1) * 13 + j
    if idx < units.length then units.getD idx 0 else if idx = units.length then 0x0000 else 0xFFFF

/-- `seq as u8`, marked on the slot of the last part. -/
def seqByte (seq numEntries : ℕ) : UInt8 :=
  if seq = numEntries then UInt8.ofNat seq ||| 0x40 else UInt8.ofNat seq

/-- A long-name slot: the units lie around the attribute, the checksum and two zero bytes. -/
def lfnSlot (first checksum : UInt8) (units : List ℕ) : Slot :=
  first :: (units.take 5).flatMap (toLe 2) ++ [ATTR_LFN, 0, checksum] ++
    ((units.drop 5).take 6).flatMap (toLe 2) ++ [0, 0] ++ (units.drop 11).flatMap (toLe 2)

def encodeLfnEntries : List Slot :=
  ((List.range (lfnCount name)).map fun k =>
    lfnSlot (seqByte (k + 1) (lfnCount name)) (lfnChecksum shortName) (lfnUnits (utf16Encode name) (k + 1))).reverse

/-- A short slot: name, attribute, and the cluster and size among zeros. -/
def shortSlot (attr : UInt8) (firstCluster size : ℕ) : Slot :=
  shortName ++ [attr] ++ replicate 8 0 ++ toLe 2 (firstCluster / 2 ^ 16) ++
    replicate 4 0 ++ toLe 2 firstCluster ++ toLe 4 size

def encodeEntrySlots (attr : UInt8) (firstCluster size : ℕ) : List Slot :=
  encodeLfnEntries name shortName ++ [shortSlot shortName attr firstCluster size]

end

/-! ## Changing a buffer -/

def findEndMarker (buf : List UInt8) : ℕ :=
  match (chunks 32 buf).findIdx? fun slot => slotFirst slot = 0x00 with
  | some k => k * 32
  | none => buf.length

/-- How often `append_entries` grows a buffer of `len` bytes until `need` bytes fit. -/
def growCount (clusterSize need len : ℕ) : ℕ := (need - len + (clusterSize - 1)) / clusterSize

/-- The buffer that `append_entries` writes back: grown if necessary, with the slots at the end marker. -/
def appendBuf (clusterSize : ℕ) (buf : List UInt8) (newSlots : List Slot) : List UInt8 :=
  let end_ := findEndMarker buf
  let need := end_ + newSlots.length * 32
  splice (buf ++ replicate (growCount clusterSize need buf.length * clusterSize) 0) end_ newSlots.flatten

/-- `mark_deleted`; the first argument counts the slots. -/
def markDeleted : ℕ → ℕ → List UInt8 → List UInt8
  | 0, _, buf => buf
  | n + 1, slotStart, buf => markDeleted n (slotStart + 32) (splice buf slotStart [0xE5])

/-! ## What a slot does to the scan -/

/-- A slot that ends no directory: the scan goes on behind it. -/
def Live (slot : Slot) : Prop := slotFirst slot ≠ 0x00

instance (slot : Slot) : Decidable (Live slot) := inferInstanceAs (Decidable (_ ≠ _))

/-- The long-name parts that the scan has open behind the slots. -/
def openParts : List Slot → List (List ℕ) → List (List ℕ)
  | [], parts => parts
  | slot :: rest, parts =>
    if slotFirst slot ≠ 0xE5 ∧ slotAttr slot = ATTR_LFN then
      openParts rest (parts ++ [lfnChunk slot])
    else openParts rest []

/-- **The scan, in two parts**: the offset and the open long-name parts go from the first to the second. -/
theorem decodeSlots_append (rest : List Slot) : ∀ (pre : List Slot) (i : ℕ) (parts : List (List ℕ)),
    (∀ s ∈ pre, Live s) → decodeSlots (pre ++ rest) i parts =
      decodeSlots pre i parts ++ decodeSlots rest (i + pre.length * 32) (openParts pre parts)
  | [], i, parts, _ => by simp [decodeSlots, openParts]
  | slot :: pre, i, parts, h => by
    have h0 : slotFirst slot ≠ 0x00 := h slot (by simp)
    have ih := fun parts' => decodeSlots_append rest pre (i + 32) parts' fun s hs => h s (by simp [hs])
    have hi : i + (slot :: pre).length * 32 = i + 32 + pre.length * 32 := by
      rw [length_cons]; ring
    rw [cons_append, decodeSlots, decodeSlots, openParts, hi, if_neg h0, if_neg h0]
    by_cases h1 : slotFirst slot = 0xE5
    · rw [if_pos h1, if_pos h1, if_neg (by simp [h1]), ih]
    rw [if_neg h1, if_neg h1]
    by_cases h2 : slotAttr slot = ATTR_LFN
    · rw [if_pos h2, if_pos h2, if_pos ⟨h1, h2⟩, ih]
    have h4 : ¬ (slotFirst slot ≠ 0xE5 ∧ slotAttr slot = ATTR_LFN) := fun h => h2 h.2
    rw [if_neg h2, if_neg h2, if_neg h4]
    split_ifs with h3
    · exact ih []
    · rw [ih, cons_append]

def zeroSlot : Slot := replicate 32 0

theorem decodeSlots_zeros (k i : ℕ) (parts : List (List ℕ)) : decodeSlots (replicate k zeroSlot) i parts = [] := by
  cases k with
  | zero => rfl
  | succ k => rw [replicate_succ, decodeSlots, if_pos (by rfl)]

/-! ## Single slots -/

theorem length_lfnUnits (units : List ℕ) (seq : ℕ) : (lfnUnits units seq).length = 13 := by
  simp [lfnUnits]

variable {units : List ℕ} {short : List UInt8} {firstCluster size n m : ℕ} {name : List Char} {attr : UInt8}

theorem lfnSlot_spec (first checksum : UInt8) (hlen : units.length = 13) (hlt : ∀ u ∈ units, u < 2 ^ 16) :
    (lfnSlot first checksum units).length = 32 ∧ slotFirst (lfnSlot first checksum units) = first ∧ slotAttr
    (lfnSlot first checksum units) = ATTR_LFN ∧ lfnChunk (lfnSlot first checksum units) = units := by
  match units, hlen with
  | [a, b, c, d, e, f, g, h, i, j, k, l, m], _ =>
    have hr : ∀ u ∈ [a, b, c, d, e, f, g, h, i, j, k, l, m], ofLe (toLe 2 u) = u := fun u hu =>
      ofLe_toLe_of_lt (hlt u hu)
    simp only [mem_cons, not_mem_nil, or_false, forall_eq_or_imp, forall_eq] at hr
    obtain ⟨h1, h2, h3, h4, h5, h6, h7, h8, h9, h10, h11, h12, h13⟩ := hr
    refine ⟨rfl, rfl, rfl, ?_⟩
    show [a, b, c, d, e, f, g, h, i, j, k, l, m].map (fun u => ofLe (toLe 2 u)) = _
    simp only [map_cons, map_nil, h1, h2, h3, h4, h5, h6, h7, h8, h9, h10, h11, h12, h13]

theorem lfnUnits_lt (h : ∀ u ∈ units, u < 2 ^ 16) (seq : ℕ) : ∀ u ∈ lfnUnits units seq, u < 2 ^ 16 := by
  intro u hu
  obtain ⟨j, -, rfl⟩ := mem_map.1 hu
  simp only
  split_ifs with h1
  · rw [getD_eq_getElem?_getD, getElem?_eq_getElem h1]
    exact h _ (getElem_mem h1)
  · norm_num
  · norm_num

theorem shortSlot_spec (attr : UInt8) (hlen : short.length = 11) (hfc : firstCluster < 2 ^ 32)
    (hsize : size < 2 ^ 32) : (shortSlot short attr firstCluster size).length = 32 ∧ slotFirst
    (shortSlot short attr firstCluster size) = short.getD 0 0 ∧ slotAttr (shortSlot short attr firstCluster size) =
    attr ∧ slice (shortSlot short attr firstCluster size) 0 11 = short ∧ slotCluster
    (shortSlot short attr firstCluster size) = firstCluster ∧ ofLe
    (slice (shortSlot short attr firstCluster size) 28 4) = size := by
  match short, hlen with
  | [a, b, c, d, e, f, g, h, i, j, k], _ =>
    refine ⟨rfl, rfl, rfl, rfl, ?_, ?_⟩
    · show ofLe (toLe 2 (firstCluster / 2 ^ 16)) * 2 ^ 16 + ofLe (toLe 2 firstCluster) = firstCluster
      rw [ofLe_toLe, ofLe_toLe]; omega
    · show ofLe (toLe 4 size) = size
      rw [ofLe_toLe]; omega

/-! ## Short names -/

theorem length_padTo (n : ℕ) (l : List UInt8) : (padTo n l).length = n := by
  rw [padTo, length_take, length_append, length_replicate]; omega

/-- The letters, the digits and the underscore of short names. -/
def isWordByte (x : UInt8) : Bool := (0x30 ≤ x && x ≤ 0x39) || (0x41 ≤ x && x ≤ 0x5A) || x = 0x5F

/-- The bytes of short names: with the tilde in front of the tail, and padding. -/
def isShortByte (x : UInt8) : Bool := isWordByte x || x = 0x7E || x = 0x20

theorem isWordByte_iff {x : UInt8} : isWordByte x = true ↔
    (48 ≤ x.toNat ∧ x.toNat ≤ 57) ∨ (65 ≤ x.toNat ∧ x.toNat ≤ 90) ∨ x.toNat = 95 := by
  simp [isWordByte, UInt8.le_iff_toNat_le, ← UInt8.toNat_inj, or_assoc]

theorem isWordByte_of_mem_shortPart {part : List Char} {x : UInt8} (hx : x ∈ shortPart n part) :
    isWordByte x = true := by
  obtain ⟨c, hc, rfl⟩ := mem_map.1 hx
  obtain ⟨hmem, h1⟩ := mem_filter.1 (mem_of_mem_take hc)
  obtain ⟨d, -, rfl⟩ := mem_map.1 hmem
  have h2 : ¬ (97 ≤ (toAsciiUpper d).toNat ∧ (toAsciiUpper d).toNat ≤ 122) := by
    unfold toAsciiUpper
    split_ifs with h
    · have h3 : 97 ≤ d.toNat ∧ d.toNat ≤ 122 := h
      rw [Char.toNat_ofNat, if_pos (.inl (by omega))]; omega
    · exact h
  simp only [isAsciiAlphanumeric, Bool.or_eq_true, Bool.and_eq_true, decide_eq_true_eq,
    Char.le_def, UInt32.le_iff_toNat_le] at h1
  have h3 : (toAsciiUpper d).val.toNat = (toAsciiUpper d).toNat := rfl
  rw [h3] at h1
  have ha : ('0'.val.toNat = 48 ∧ '9'.val.toNat = 57) ∧ ('A'.val.toNat = 65 ∧
    'Z'.val.toNat = 90) ∧ 'a'.val.toNat = 97 ∧ 'z'.val.toNat = 122 := by decide
  rw [isWordByte_iff, UInt8.toNat_ofNat']; omega

section
variable (name : List Char) (existing : List DirEntryView) (tail : ℕ)

theorem length_makeShortName : (makeShortName name tail).length = 11 := by
  simp only [makeShortName, length_append, length_padTo]

def tailDigits : List UInt8 := (Nat.toDigits 10 tail).map fun c => UInt8.ofNat c.toNat

/-- The parts of a short name: the base has room for the tilde and six digits. -/
theorem makeShortName_parts : ∃ base ext : List UInt8, base ≠ [] ∧ base.length ≤ max (7 - (tailDigits tail).length) 1 ∧
    (∀ x ∈ base ++ ext, isWordByte x = true) ∧
    makeShortName name tail = padTo 8 (base ++ 0x7E :: tailDigits tail) ++ padTo 3 ext := by
  refine ⟨_, _, ?_, ?_, ?_, rfl⟩
  · split_ifs <;> simp_all
  · split_ifs
    · exact le_max_right ..
    · simp [shortPart, tailDigits]; omega
  intro x hx
  rcases mem_append.1 hx with hx | hx
  · split_ifs at hx
    · simp_all [isWordByte]
    · exact isWordByte_of_mem_shortPart hx
  · exact isWordByte_of_mem_shortPart hx

theorem makeShortName_first : isWordByte ((makeShortName name tail).getD 0 0) = true := by
  obtain ⟨base, ext, hne, -, hw, h⟩ := makeShortName_parts name tail
  obtain ⟨x, base, rfl⟩ := exists_cons_of_ne_nil hne
  rw [h]
  exact hw x (by simp)

theorem isWordByte_of_mem_tailDigits {x : UInt8} (hx : x ∈ tailDigits tail) : isWordByte x = true := by
  obtain ⟨c, hc, rfl⟩ := mem_map.1 hx
  have h : 48 ≤ c.toNat ∧ c.toNat ≤ 57 :=
    Char.isDigit_iff_toNat.1 (Nat.isDigit_of_mem_toDigits (by decide) (by decide) hc)
  rw [isWordByte_iff, UInt8.toNat_ofNat']; omega

theorem tailDigits_injective : Function.Injective tailDigits := by
  have hback : ∀ t, Nat.ofDigitChars 10 ((tailDigits t).map fun x => Char.ofNat x.toNat) 0 = t := by
    intro t
    rw [tailDigits, map_map, map_congr_left (g := id), map_id, Nat.ofDigitChars_toDigits (by decide) (by decide)]
    intro c hc
    have h : 48 ≤ c.toNat ∧ c.toNat ≤ 57 :=
      Char.isDigit_iff_toNat.1 (Nat.isDigit_of_mem_toDigits (by decide) (by decide) hc)
    simp only [Function.comp_apply, UInt8.toNat_ofNat', id_eq]
    rw [Nat.mod_eq_of_lt (by omega), Char.ofNat_toNat]
  intro s t h
  rw [← hback s, h, hback]

theorem isShortByte_of_mem_padTo {l : List UInt8} {x : UInt8} (hl : ∀ y ∈ l, isShortByte y = true)
    (hx : x ∈ padTo n l) : isShortByte x = true := by
  rcases mem_append.1 (mem_of_mem_take hx) with h | h
  · exact hl x h
  · rw [eq_of_mem_replicate h]; rfl

theorem isShortByte_of_mem_makeShortName {x : UInt8} (hx : x ∈ makeShortName name tail) : isShortByte x = true := by
  obtain ⟨base, ext, -, -, hw, h⟩ := makeShortName_parts name tail
  have hword : ∀ y, isWordByte y = true → isShortByte y = true := fun y hy => by simp [isShortByte, hy]
  rw [h] at hx
  rcases mem_append.1 hx with hx | hx
  · refine isShortByte_of_mem_padTo (fun y hy => ?_) hx
    rcases mem_append.1 hy with hy | hy
    · exact hword y (hw y (by simp [hy]))
    · rcases mem_cons.1 hy with rfl | hy
      · rfl
      · exact hword y (isWordByte_of_mem_tailDigits tail hy)
  · exact isShortByte_of_mem_padTo (fun y hy => hword y (hw y (by simp [hy]))) hx

/-- The tail is what stands between the tilde and the padding. -/
theorem tailDigits_of_makeShortName (h : tail < 10 ^ 6) :
    ((((makeShortName name tail).take 8).dropWhile (· ≠ 0x7E)).drop 1).takeWhile (· ≠ 0x20) = tailDigits tail := by
  obtain ⟨base, ext, -, hlen, hw, heq⟩ := makeShortName_parts name tail
  have hd : (tailDigits tail).length ≤ 6 := by
    rw [tailDigits, length_map]
    exact (Nat.length_toDigits_le_iff (by decide) (by decide)).2 h
  have hne : ∀ {y : UInt8}, isWordByte y = true → decide (y ≠ 0x7E) = true ∧ decide (y ≠ 0x20) = true := by
    intro y hy
    constructor <;> (refine decide_eq_true ?_; rintro rfl; exact absurd hy (by decide))
  have hpad : padTo 8 (base ++ 0x7E :: tailDigits tail) = base ++ 0x7E :: (tailDigits tail ++
      replicate (7 - base.length - (tailDigits tail).length) 0x20) := by
    rw [padTo, take_append, take_of_length_le (by simp; omega), take_replicate, append_assoc, cons_append,
      length_append, length_cons]
    congr 4; omega
  rw [heq, take_left' (length_padTo ..), hpad,
    dropWhile_append_of_pos fun y hy => (hne (hw y (by simp [hy]))).1, dropWhile_cons_of_neg (by simp), drop_one,
    tail_cons, takeWhile_append_of_pos fun y hy => (hne (isWordByte_of_mem_tailDigits tail hy)).2,
    takeWhile_replicate]
  simp

/-- An unused tail: the names with different tails differ, and there are more tails than entries. -/
theorem exists_unused_tail (h : existing.length < 999999) :
    ∃ t ∈ range' 1 999999, ∀ e ∈ existing, e.shortName ≠ makeShortName name t := by
  by_contra hall
  push Not at hall
  have hinj : ∀ s ∈ range' 1 999999, ∀ t ∈ range' 1 999999, makeShortName name s = makeShortName name t → s = t := by
    intro s hs t ht heq
    rw [mem_range'_1] at hs ht
    apply tailDigits_injective
    rw [← tailDigits_of_makeShortName name s (by omega), heq, tailDigits_of_makeShortName name t (by omega)]
  have hsub : (range' 1 999999).map (makeShortName name) ⊆ existing.map DirEntryView.shortName := by
    intro x hx
    obtain ⟨t, ht, rfl⟩ := mem_map.1 hx
    obtain ⟨e, he, heq⟩ := hall t ht
    exact mem_map.2 ⟨e, he, heq⟩
  have hle := (subperm_of_subset (Nodup.map_on hinj (nodup_range' ..)) hsub).length_le
  rw [length_map, length_map, length_range'] at hle
  omega

theorem uniqueShortName_eq : ∃ tail, uniqueShortName name existing = makeShortName name tail := by
  unfold uniqueShortName
  split
  · exact ⟨_, rfl⟩
  · exact ⟨_, rfl⟩

/-- The bytes that a short slot may start with. -/
structure GoodShort (short : List UInt8) : Prop where
  length : short.length = 11
  not_end : short.getD 0 0 ≠ 0x00
  not_deleted : short.getD 0 0 ≠ 0xE5

theorem uniqueShortName_first {x : UInt8} (hx : isWordByte x = false) :
    (uniqueShortName name existing).getD 0 0 ≠ x := by
  obtain ⟨tail, h⟩ := uniqueShortName_eq name existing
  rw [h]
  rintro rfl
  rw [makeShortName_first] at hx
  cases hx

theorem goodShort_uniqueShortName : GoodShort (uniqueShortName name existing) where
  length := by
    obtain ⟨tail, h⟩ := uniqueShortName_eq name existing
    rw [h, length_makeShortName]
  not_end := uniqueShortName_first name existing (by decide)
  not_deleted := uniqueShortName_first name existing (by decide)

/-- **Short names are unique**: with fewer entries than tails, a new short name is no other entry's, and all its
    bytes are ones of short names. -/
theorem uniqueShortName_fresh (h : existing.length < 999999) :
    (uniqueShortName name existing).length = 11 ∧ (∀ e ∈ existing, e.shortName ≠ uniqueShortName name existing) ∧
    (∀ x ∈ uniqueShortName name existing, isShortByte x = true) ∧
    (uniqueShortName name existing).getD 0 0 ≠ 0x20 ∧ GoodShort (uniqueShortName name existing) := by
  have hgood := goodShort_uniqueShortName name existing
  refine ⟨hgood.length, ?_, ?_, uniqueShortName_first name existing (by decide), hgood⟩
  · unfold uniqueShortName
    split
    · next t ht =>
      have hunused := find?_some ht
      simpa using hunused
    · next hnone =>
      obtain ⟨t, ht, hunused⟩ := exists_unused_tail name existing h
      have hused := find?_eq_none.1 hnone t ht
      exact absurd (by simpa using hunused) hused
  · obtain ⟨tail, heq⟩ := uniqueShortName_eq name existing
    intro x hx
    rw [heq] at hx
    exact isShortByte_of_mem_makeShortName name tail hx

theorem secondName_fresh : uniqueShortName ['a'] [{ DirEntryView.root 2 with shortName := makeShortName ['a'] 1 }] ≠
    makeShortName ['a'] 1 :=
  ((uniqueShortName_fresh ['a'] [{ DirEntryView.root 2 with shortName := makeShortName ['a'] 1 }] (by decide)).2.1 _
    (mem_singleton_self _)).symm

end

/-! ## The long name -/

theorem lfnUnits_eq {k : ℕ} (hk : k * 13 ≤ units.length) : ∃ fill, lfnUnits units (k + 1) = slice
    units (k * 13) 13 ++ fill ∧ (fill = [] ∨ ∃ f, fill = 0 :: f) := by
  have hlen : (slice units (k * 13) 13).length = min 13 (units.length - k * 13) := by
    rw [slice, length_take, length_drop]
  refine ⟨(lfnUnits units (k + 1)).drop (slice units (k * 13) 13).length, ?_, ?_⟩
  · have h1 : (lfnUnits units (k + 1)).take (slice units (k * 13) 13).length = slice units (k * 13) 13 := by
      refine ext_getElem? fun j => ?_
      by_cases hj : j < (slice units (k * 13) 13).length
      · rw [getElem?_take_of_lt hj, getElem?_slice (by omega), lfnUnits, getElem?_map,
          getElem?_range (by omega), Option.map_some, Nat.add_sub_cancel, if_pos (by omega),
          getD_eq_getElem?_getD, getElem?_eq_getElem (by omega)]
        rfl
      · rw [getElem?_take_eq_none (by omega), getElem?_eq_none (by omega)]
    nth_rewrite 1 [← take_append_drop (slice units (k * 13) 13).length (lfnUnits units (k + 1))]
    rw [h1]
  · by_cases hfull : 13 ≤ units.length - k * 13
    · left
      rw [drop_eq_nil_iff, length_lfnUnits]; omega
    right
    have h2 : (lfnUnits units (k + 1))[(slice units (k * 13) 13).length]? = some 0 := by
      rw [lfnUnits, getElem?_map, getElem?_range (by omega), Option.map_some,
        Nat.add_sub_cancel, if_neg (by omega), if_pos (by omega)]
    obtain ⟨hlt, h3⟩ := List.getElem?_eq_some_iff.1 h2
    exact ⟨_, by rw [drop_eq_getElem_cons hlt, h3]⟩

theorem chunkUnits_lfnUnits {k : ℕ} (h0 : ∀ u ∈ units, u ≠ 0) (hk : k * 13 ≤ units.length) :
    chunkUnits (lfnUnits units (k + 1)) = (slice units (k * 13) 13).filter (· ≠ 0xFFFF) := by
  obtain ⟨fill, h1, h2⟩ := lfnUnits_eq hk
  have hpos : ∀ u ∈ slice units (k * 13) 13, decide (u ≠ 0) = true := by
    intro u hu
    exact decide_eq_true (h0 u (mem_of_mem_drop (mem_of_mem_take hu)))
  rw [chunkUnits, h1, takeWhile_append_of_pos hpos]
  congr 1
  rcases h2 with rfl | ⟨f, rfl⟩
  · simp
  · simp

/-- The parts of all slots of a name, in the order in which they are scanned. -/
def lfnParts (units : List ℕ) (k : ℕ) : List (List ℕ) :=
  ((List.range k).map fun j => lfnUnits units (j + 1)).reverse

theorem length_lfnParts (units : List ℕ) (k : ℕ) : (lfnParts units k).length = k := by
  simp [lfnParts]

/-- **The name that is read back** has lost its U+FFFF characters. -/
theorem decodeLfnName_lfnParts (h0 : Char.ofNat 0 ∉ name) :
    decodeLfnName (lfnParts (utf16Encode name) (lfnCount name)) =
      name.filter (· ≠ Char.ofNat 0xFFFF) := by
  have hne : ∀ u ∈ utf16Encode name, u ≠ 0 := by
    intro u hu hz
    obtain ⟨c, hc, hu⟩ := mem_flatMap.1 hu
    subst hz
    have h1 := toNat_of_mem_utf16Char (by decide) hu
    have h2 : c = Char.ofNat 0 := Char.toNat_inj.1 h1
    exact h0 (h2 ▸ hc)
  have hcount : (utf16Encode name).length ≤ lfnCount name * 13 := by rw [lfnCount]; omega
  have hparts : (lfnParts (utf16Encode name) (lfnCount name)).reverse.flatMap chunkUnits =
      (utf16Encode name).filter (· ≠ 0xFFFF) := by
    rw [lfnParts, reverse_reverse, flatMap_map]
    have h1 : ∀ k ∈ List.range (lfnCount name), chunkUnits (lfnUnits (utf16Encode name) (k + 1)) =
        (slice (utf16Encode name) (k * 13) 13).filter (· ≠ 0xFFFF) := by
      intro k hk
      rw [mem_range, lfnCount] at hk
      exact chunkUnits_lfnUnits hne (by omega)
    rw [flatMap_congr h1, ← filter_flatMap, flatMap_slice, take_of_length_le hcount]
  have h2 := filter_utf16Encode (x := Char.ofNat 0xFFFF) (by decide) name
  rw [decodeLfnName, hparts]
  rw [show (Char.ofNat 0xFFFF).toNat = 0xFFFF from rfl] at h2
  rw [h2, utf16DecodeLossy_encode]

/-! ## The slots of a new entry -/

theorem ofNat_eq_iff (hm : m < 256) : UInt8.ofNat n = UInt8.ofNat m ↔ n % 256 = m := by
  rw [← UInt8.toNat_inj, UInt8.toNat_ofNat', UInt8.toNat_ofNat', Nat.mod_eq_of_lt hm]

/-- The first byte of the slot with the last part of a name never ends the directory, but is a deleted slot for
two numbers. -/
theorem seqByte_last (n : ℕ) : seqByte n n ≠ 0x00 ∧ (seqByte n n = 0xE5 ↔ n % 256 = 165 ∨ n % 256 = 229) := by
  have key : ∀ m < 256, UInt8.ofNat m ||| 0x40 ≠ 0x00 ∧
      (UInt8.ofNat m ||| 0x40 = 0xE5 ↔ m = 165 ∨ m = 229) := by decide +kernel
  have h : UInt8.ofNat n = UInt8.ofNat (n % 256) :=
    (ofNat_eq_iff (Nat.mod_lt _ (by norm_num))).2 rfl
  rw [seqByte, if_pos rfl, h]
  exact key _ (Nat.mod_lt _ (by norm_num))

theorem seqByte_of_ne {num : ℕ} (h : n ≠ num) :
    (seqByte n num = 0x00 ↔ n % 256 = 0) ∧ (seqByte n num = 0xE5 ↔ n % 256 = 229) := by
  rw [seqByte, if_neg h]
  exact ⟨ofNat_eq_iff (m := 0) (by norm_num), ofNat_eq_iff (m := 229) (by norm_num)⟩

section
variable {units : List ℕ} {num : ℕ} {checksum : UInt8} {rest : List Slot}

/-- The long-name slots number `k` down to 1 of a name with `num` of them. -/
def lfnRun (units : List ℕ) (num : ℕ) (checksum : UInt8) (k : ℕ) : List Slot :=
  ((List.range k).map fun j =>
    lfnSlot (seqByte (j + 1) num) checksum (lfnUnits units (j + 1))).reverse

theorem lfnRun_succ (k : ℕ) : lfnRun units num checksum (k + 1) = lfnSlot (seqByte (k + 1) num)
    checksum (lfnUnits units (k + 1)) :: lfnRun units num checksum k := by
  rw [lfnRun, range_succ, map_append, reverse_append]
  rfl

theorem lfnParts_succ (k : ℕ) : lfnParts units (k + 1) = lfnUnits units (k + 1) :: lfnParts units k := by
  rw [lfnParts, range_succ, map_append, reverse_append]
  rfl

variable (hlt : ∀ u ∈ units, u < 2 ^ 16)

include hlt

theorem decodeSlots_lfnSlot (first : UInt8) (seq i : ℕ) (parts : List (List ℕ)) :
    decodeSlots (lfnSlot first checksum (lfnUnits units seq) :: rest) i parts = if first = 0x00 then
    [] else if first = 0xE5 then decodeSlots rest (i + 32) [] else decodeSlots rest (i + 32)
    (parts ++ [lfnUnits units seq]) := by
  obtain ⟨-, h1, h2, h3⟩ := lfnSlot_spec first checksum (length_lfnUnits units seq) (lfnUnits_lt hlt seq)
  rw [decodeSlots, h1, h2, h3, if_pos rfl]

theorem decodeSlots_lfnRun : ∀ {k : ℕ} (i : ℕ) (parts : List (List ℕ)), k < num → k ≤ 228 →
    decodeSlots (lfnRun units num checksum k ++ rest) i parts =
      decodeSlots rest (i + k * 32) (parts ++ lfnParts units k)
  | 0, i, parts, _, _ => by simp [lfnRun, lfnParts]
  | k + 1, i, parts, hk, hk' => by
    have h1 := seqByte_of_ne hk.ne
    rw [lfnRun_succ, cons_append, decodeSlots_lfnSlot hlt, if_neg (by rw [h1.1]; omega),
      if_neg (by rw [h1.2]; omega), decodeSlots_lfnRun _ _ (by omega) (by omega), lfnParts_succ,
      append_assoc, singleton_append]
    congr 1; ring

theorem decodeSlots_lfnRun_229 : ∀ {k : ℕ} (i : ℕ) (parts : List (List ℕ)), k < num → 229 ≤ k →
    k ≤ 255 → decodeSlots (lfnRun units num checksum k ++ rest) i parts =
      decodeSlots rest (i + k * 32) (lfnParts units 228)
  | 0, _, _, _, h, _ => absurd h (by omega)
  | k + 1, i, parts, hk, hlo, hhi => by
    have h1 := seqByte_of_ne hk.ne
    have hi : i + 32 + k * 32 = i + (k + 1) * 32 := by ring
    rw [lfnRun_succ, cons_append, decodeSlots_lfnSlot hlt, if_neg (by rw [h1.1]; omega)]
    by_cases h2 : k = 228
    · subst h2
      rw [if_pos (by rw [h1.2]), decodeSlots_lfnRun hlt _ _ (by omega) le_rfl, hi, nil_append]
    · rw [if_neg (by rw [h1.2]; omega), decodeSlots_lfnRun_229 _ _ (by omega) (by omega) (by omega), hi]

theorem decodeSlots_lfnRun_256 : ∀ {k : ℕ} (i : ℕ) (parts : List (List ℕ)), k < num → 256 ≤ k →
    decodeSlots (lfnRun units num checksum k ++ rest) i parts = []
  | 0, _, _, _, h => absurd h (by omega)
  | k + 1, i, parts, hk, hlo => by
    have h1 := seqByte_of_ne hk.ne
    rw [lfnRun_succ, cons_append, decodeSlots_lfnSlot hlt]
    by_cases h2 : k = 255
    · rw [if_pos (by rw [h1.1]; omega)]
    · split_ifs
      · rfl
      · exact decodeSlots_lfnRun_256 _ _ (by omega) (by omega)
      · exact decodeSlots_lfnRun_256 _ _ (by omega) (by omega)

variable (checksum rest) in
/-- **All long-name slots of a name**: they are read, or only some of them, or the scan ends. -/
theorem decodeSlots_lfnRun_all (hnum : 1 ≤ num) (i : ℕ) : (num ≤ 228 ∧ num ≠ 165 →
    decodeSlots (lfnRun units num checksum num ++ rest) i [] = decodeSlots rest (i + num * 32) (lfnParts units num)) ∧
    (¬ (num ≤ 228 ∧ num ≠ 165) → num ≤ 256 → ∃ m < num,
    decodeSlots (lfnRun units num checksum num ++ rest) i [] = decodeSlots rest (i + num * 32) (lfnParts units m)) ∧
    (256 < num → decodeSlots (lfnRun units num checksum num ++ rest) i [] = []) := by
  obtain ⟨k, rfl⟩ : ∃ k, num = k + 1 := ⟨num - 1, by omega⟩
  have h1 := seqByte_last (k + 1)
  have hi : i + 32 + k * 32 = i + (k + 1) * 32 := by ring
  rw [lfnRun_succ, cons_append, decodeSlots_lfnSlot hlt, if_neg h1.1]
  refine ⟨?_, ?_, ?_⟩
  · rintro ⟨h2, h3⟩
    rw [if_neg (by rw [h1.2]; omega), decodeSlots_lfnRun hlt _ _ (by omega) (by omega), hi, lfnParts_succ]
    rfl
  · intro h2 h3
    by_cases h4 : k + 1 = 165
    · refine ⟨164, by omega, ?_⟩
      obtain rfl : k = 164 := by omega
      rw [if_pos (by rw [h1.2]; omega), decodeSlots_lfnRun hlt _ _ (by omega) (by omega), hi]
      rfl
    · refine ⟨228, by omega, ?_⟩
      by_cases h5 : k = 228
      · subst h5
        rw [if_pos (by rw [h1.2]; omega), decodeSlots_lfnRun hlt _ _ (by omega) (by omega), hi]
        rfl
      · rw [if_neg (by rw [h1.2]; omega), decodeSlots_lfnRun_229 hlt _ _ (by omega) (by omega) (by omega), hi]
  · intro h2
    split_ifs
    · exact decodeSlots_lfnRun_256 hlt _ _ (by omega) (by omega)
    · exact decodeSlots_lfnRun_256 hlt _ _ (by omega) (by omega)

end

/-- The names that are read back as they were written. -/
def ReadsBack (name : List Char) : Prop :=
  Char.ofNat 0xFFFF ∉ name ∧ lfnCount name ≤ 228 ∧ lfnCount name ≠ 165

theorem decodeSlots_shortSlot (hs : GoodShort short) (hattr : attr &&& ATTR_VOLUME_ID = 0) (k i : ℕ)
    (parts : List (List ℕ)) : decodeSlots (shortSlot short attr firstCluster size :: replicate
    k zeroSlot) i parts = [shortEntry (shortSlot short attr firstCluster size) i parts] := by
  have hfirst : slotFirst (shortSlot short attr firstCluster size) = short.getD 0 0 := by
    obtain ⟨x, t, rfl⟩ := exists_cons_of_ne_nil
      (ne_nil_of_length_pos (by rw [hs.length]; norm_num : 0 < short.length))
    rfl
  have hattr' : slotAttr (shortSlot short attr firstCluster size) = attr := by
    match short, hs.length with
    | [a, b, c, d, e, f, g, h, i, j, k], _ => rfl
  have hlfn : attr ≠ ATTR_LFN := by rintro rfl; exact absurd hattr (by decide)
  rw [decodeSlots, hfirst, hattr', if_neg hs.not_end, if_neg hs.not_deleted, if_neg hlfn,
    if_neg (by simp [hattr]), decodeSlots_zeros]

theorem decodeSlots_new (h0 : Char.ofNat 0 ∉ name) (hs : GoodShort short) (hattr : attr &&& ATTR_VOLUME_ID = 0)
    (hfc : firstCluster < 2 ^ 32) (hsize : size < 2 ^ 32) (k i : ℕ) :
    decodeSlots (encodeEntrySlots name short attr firstCluster size ++ replicate k zeroSlot) i []
        = [⟨name, short, attr, firstCluster, size, i, lfnCount name + 1⟩] ↔ ReadsBack name := by
  have hcount : 1 ≤ lfnCount name := by rw [lfnCount]; omega
  have hrun : encodeLfnEntries name short =
      lfnRun (utf16Encode name) (lfnCount name) (lfnChecksum short) (lfnCount name) := rfl
  obtain ⟨hgood, hmid, hlong⟩ := decodeSlots_lfnRun_all (lfnChecksum short)
    (shortSlot short attr firstCluster size :: replicate k zeroSlot) (utf16Encode_lt name) hcount i
  obtain ⟨-, -, hA, hS, hC, hZ⟩ := shortSlot_spec attr hs.length hfc hsize
  rw [encodeEntrySlots, append_assoc, singleton_append, hrun, ReadsBack]
  by_cases hok : lfnCount name ≤ 228 ∧ lfnCount name ≠ 165
  · rw [hgood hok, decodeSlots_shortSlot hs hattr]
    have hparts : lfnParts (utf16Encode name) (lfnCount name) ≠ [] :=
      ne_nil_of_length_pos (by rw [length_lfnParts]; omega)
    simp only [shortEntry, if_neg hparts, decodeLfnName_lfnParts h0, hA, hS, hC, hZ, length_lfnParts,
      Nat.add_sub_cancel, List.cons.injEq, DirEntryView.mk.injEq, and_true, hok.1, hok.2, ne_eq, not_false_eq_true]
    rw [filter_eq_self]
    constructor
    · intro h hmem
      exact absurd (h _ hmem) (by simp)
    · intro h c hc
      rw [decide_eq_true_eq]
      rintro rfl; exact h hc
  · refine iff_of_false ?_ fun h => hok h.2
    intro heq
    by_cases hle : lfnCount name ≤ 256
    · obtain ⟨m, hm, h1⟩ := hmid hok hle
      rw [h1, decodeSlots_shortSlot hs hattr] at heq
      simp only [shortEntry, List.cons.injEq, DirEntryView.mk.injEq, length_lfnParts] at heq
      omega
    · rw [hlong (by omega)] at heq
      exact absurd heq (by simp)

/-! ## Appending to a directory -/

theorem length_zeroSlot : zeroSlot.length = 32 := length_replicate ..

theorem replicate_zero_eq (k : ℕ) : replicate (k * 32) (0 : UInt8) = (replicate k zeroSlot).flatten := by
  rw [zeroSlot, flatten_replicate_replicate, mul_comm]

theorem findEndMarker_spec {buf : List UInt8} (hbuf : buf.length = m * 32) :
    ∃ e, findEndMarker buf = e * 32 ∧ e ≤ m ∧ (∀ s ∈ (chunks 32 buf).take e, Live s) ∧
      ∀ s, (chunks 32 buf)[e]? = some s → ¬ Live s := by
  have hlen : (chunks 32 buf).length = m := by
    rw [length_chunks, hbuf, Nat.mul_div_cancel _ (by norm_num)]
  unfold findEndMarker
  cases h : (chunks 32 buf).findIdx? fun slot => decide (slotFirst slot = 0x00) with
  | none =>
    refine ⟨m, hbuf, le_rfl, fun s hs => ?_, fun s hs => ?_⟩
    · have h1 := findIdx?_eq_none_iff.1 h s (mem_of_mem_take hs)
      exact of_decide_eq_false h1
    · rw [getElem?_eq_none (by omega)] at hs; cases hs
  | some e =>
    obtain ⟨he, hat, hmin⟩ := findIdx?_eq_some_iff_getElem.1 h
    refine ⟨e, rfl, by omega, fun s hs => ?_, fun s hs => ?_⟩
    · obtain ⟨k, hke, hk⟩ := mem_take_iff_getElem?.1 hs
      rw [getElem?_eq_getElem (by omega), Option.some.injEq] at hk
      have h1 := hmin k hke
      rw [hk] at h1
      exact fun h0 => h1 (decide_eq_true h0)
    · rw [getElem?_eq_getElem he, Option.some.injEq] at hs
      rw [hs] at hat
      exact fun hl => hl (of_decide_eq_true hat)

/-- **`append_entries`** copies the new slots over those from the end marker on. -/
theorem appendBuf_spec {buf : List UInt8} {e : ℕ} (hn : 0 < n) (hbuf : buf.length = m * 32)
    (he : findEndMarker buf = e * 32) {new : List Slot} (hnew : ∀ s ∈ new, s.length = 32) : ∃ g, g = growCount
    (n * 32) (e * 32 + new.length * 32) buf.length * n ∧ e + new.length ≤ m + g ∧ (appendBuf (n * 32) buf new).length
    = (m + g) * 32 ∧ appendBuf (n * 32) buf new = (splice (chunks 32 buf ++ replicate g zeroSlot) e new).flatten := by
  generalize hg : growCount (n * 32) (e * 32 + new.length * 32) buf.length = g
  have hroom : e + new.length ≤ m + g * n := by
    rw [growCount, hbuf] at hg
    have h1 := Nat.div_add_mod (e * 32 + new.length * 32 - m * 32 + (n * 32 - 1)) (n * 32)
    have h2 := Nat.mod_lt (e * 32 + new.length * 32 - m * 32 + (n * 32 - 1)) (by omega : 0 < n * 32)
    rw [hg] at h1
    have h3 : n * 32 * g = g * n * 32 := by ring
    rw [h3] at h1
    omega
  have hslots : ∀ s ∈ chunks 32 buf ++ replicate (g * n) zeroSlot, s.length = 32 := by
    intro s hs
    rcases mem_append.1 hs with hs | hs
    · exact length_of_mem_chunks hs
    · rw [eq_of_mem_replicate hs, length_zeroSlot]
  have hgrown : buf ++ replicate (g * (n * 32)) 0 = (chunks 32 buf ++ replicate (g * n) zeroSlot).flatten := by
    rw [flatten_append, flatten_chunks (by norm_num) hbuf, ← replicate_zero_eq, mul_assoc]
  simp only [appendBuf, he, hg, hgrown]
  refine ⟨g * n, rfl, hroom, ?_, splice_flatten hslots hnew⟩
  rw [length_splice, ← hgrown, length_append, hbuf, length_replicate, ← mul_assoc, add_mul]
  rw [length_flatten_const hnew, ← hgrown, length_append, hbuf, length_replicate,
    ← mul_assoc, ← add_mul, ← add_mul]
  exact Nat.mul_le_mul_right _ hroom

/-- The buffer has the slots `pre` in use, which leave no long name open, and `k` zeroed slots
    behind them. -/
structure Layout (buf : List UInt8) (pre : List Slot) (k : ℕ) : Prop where
  eq : buf = (pre ++ replicate k zeroSlot).flatten
  length : ∀ s ∈ pre, s.length = 32
  live : ∀ s ∈ pre, Live s
  closed : openParts pre [] = []

def WellFormedDir (buf : List UInt8) : Prop := ∃ pre k, Layout buf pre k

namespace Layout

variable {buf : List UInt8} {pre : List Slot} {k : ℕ}

section
variable (h : Layout buf pre k)
include h

theorem length_slots : ∀ s ∈ pre ++ replicate k zeroSlot, s.length = 32 := by
  intro s hs
  rcases mem_append.1 hs with hs | hs
  · exact h.length s hs
  · rw [eq_of_mem_replicate hs, length_zeroSlot]

theorem chunks_eq : chunks 32 buf = pre ++ replicate k zeroSlot := by
  rw [h.eq, chunks_flatten (by norm_num) h.length_slots]

theorem length_buf : buf.length = (pre.length + k) * 32 := by
  rw [h.eq, length_flatten_const h.length_slots, length_append, length_replicate]

theorem findEndMarker_eq : findEndMarker buf = pre.length * 32 := by
  have hpre : pre.findIdx? (fun slot => decide (slotFirst slot = 0x00)) = none := by
    rw [findIdx?_eq_none_iff]
    intro s hs
    exact decide_eq_false (h.live s hs)
  rw [findEndMarker, h.chunks_eq, findIdx?_append, hpre, h.length_buf]
  cases k with
  | zero => simp
  | succ k => simp [replicate_succ, findIdx?_cons, zeroSlot, slotFirst]

theorem decode_eq : decodeDirEntries buf = decodeSlots pre 0 [] := by
  rw [decodeDirEntries, h.chunks_eq, decodeSlots_append _ _ _ _ h.live, decodeSlots_zeros, append_nil]

end

section
variable (h : Layout buf pre k) {n : ℕ} (hn : 0 < n) {new : List Slot} (hnew : ∀ s ∈ new, s.length = 32)
include h hn hnew

theorem appendBuf_eq : ∃ r, appendBuf (n * 32) buf new = (pre ++ new ++ replicate r zeroSlot).flatten := by
  obtain ⟨g, -, hroom, -, hbuf⟩ := appendBuf_spec hn h.length_buf h.findEndMarker_eq hnew
  refine ⟨k + g - new.length, ?_⟩
  have h1 := append_splice pre (replicate (k + g) zeroSlot) 0 new
  rw [add_zero] at h1
  rw [hbuf, h.chunks_eq, append_assoc, ← replicate_add, h1, splice, take_zero,
    nil_append, zero_add, drop_replicate, append_assoc]

theorem decode_appendBuf : ∃ r, decodeDirEntries (appendBuf (n * 32) buf new) = decodeDirEntries buf
    ++ decodeSlots (new ++ replicate r zeroSlot) (findEndMarker buf) [] := by
  obtain ⟨r, hr⟩ := h.appendBuf_eq hn hnew
  refine ⟨r, ?_⟩
  have hlen : ∀ s ∈ pre ++ new ++ replicate r zeroSlot, s.length = 32 := by
    intro s hs
    rcases mem_append.1 hs with hs | hs
    · exact (mem_append.1 hs).elim (h.length s) (hnew s)
    · rw [eq_of_mem_replicate hs, length_zeroSlot]
  rw [decodeDirEntries, hr, chunks_flatten (by norm_num) hlen, append_assoc,
    decodeSlots_append _ _ _ _ h.live, h.closed, h.decode_eq, h.findEndMarker_eq, zero_add]

end

end Layout

theorem length_of_mem_encodeEntrySlots (hs : short.length = 11) :
    ∀ s ∈ encodeEntrySlots name short attr firstCluster size, s.length = 32 := by
  intro s hmem
  rcases mem_append.1 hmem with hmem | hmem
  · obtain ⟨j, -, rfl⟩ := mem_map.1 (mem_reverse.1 hmem)
    exact (lfnSlot_spec _ _ (length_lfnUnits _ _) (lfnUnits_lt (utf16Encode_lt name) _)).1
  · rw [mem_singleton] at hmem
    subst hmem
    simp [shortSlot, hs]

/-- **The directory codec**: an appended entry is decoded as it was given exactly if its name reads back. -/
theorem decode_appendBuf_iff {b : Bpb} (hb : b.Valid) {buf : List UInt8} (hbuf : WellFormedDir buf) {name : List Char}
    (h0 : Char.ofNat 0 ∉ name) (existing : List DirEntryView) {attr : UInt8} (hattr : attr &&& ATTR_VOLUME_ID = 0)
    {firstCluster size : ℕ} (hfc : firstCluster < 2 ^ 32) (hsize : size < 2 ^ 32) : decodeDirEntries
    (appendBuf b.clusterSize buf (encodeEntrySlots name (uniqueShortName name existing) attr firstCluster size)) =
    decodeDirEntries buf ++ [⟨name, uniqueShortName name existing, attr, firstCluster, size, findEndMarker buf,
    lfnCount name + 1⟩] ↔ ReadsBack name := by
  obtain ⟨pre, k, h⟩ := hbuf
  have hshort := goodShort_uniqueShortName name existing
  have hcs := hb.clusterSize_slots
  obtain ⟨r, hr⟩ := h.decode_appendBuf (n := 16 * b.sectorsPerCluster.toNat)
    (Nat.mul_pos (by norm_num) hb.spc_pos) (length_of_mem_encodeEntrySlots hshort.length)
  rw [hcs, hr, append_cancel_left_eq]
  exact decodeSlots_new h0 hshort hattr hfc hsize r _

theorem wellFormedDir_zero (k : ℕ) : WellFormedDir (replicate (k * 32) 0) :=
  ⟨[], k, replicate_zero_eq k, by simp, by simp, rfl⟩

/-- An entry with a short name, in an empty directory of one sector. -/
theorem decode_appendBuf_hello : decodeDirEntries (appendBuf 512 (replicate 512 0)
        (encodeEntrySlots "hello.txt".toList (uniqueShortName "hello.txt".toList []) 0x20 5 3)) =
      decodeDirEntries (replicate 512 0) ++
        [⟨"hello.txt".toList, uniqueShortName "hello.txt".toList [], 0x20, 5, 3,
          findEndMarker (replicate 512 0), lfnCount "hello.txt".toList + 1⟩] :=
  (decode_appendBuf_iff (b := ⟨512, 1, 1, 2, 1, 2, 0, 13, 0⟩)
    ⟨rfl, by decide, by decide, by decide⟩ (wellFormedDir_zero 16) (by decide) []
    (by decide) (by norm_num) (by norm_num)).2 ⟨by decide, by decide, by decide⟩

/-- A name of 2133 letters: the slot with its end, number `0xA5`, gets the mark `0x40` and becomes `0xE5`, a
deleted slot. -/
theorem decode_appendBuf_2133 : decodeDirEntries (appendBuf 512 (replicate 512 0)
    (encodeEntrySlots (replicate 2133 'a') (uniqueShortName (replicate 2133 'a') []) 0x20
    5 3)) ≠ decodeDirEntries (replicate 512 0) ++
    [⟨replicate 2133 'a', uniqueShortName (replicate 2133 'a') [], 0x20, 5, 3,
    findEndMarker (replicate 512 0), lfnCount (replicate 2133 'a') + 1⟩] := by
  have hunits : ∀ n, (utf16Encode (replicate n 'a')).length = n := by
    intro n
    induction n with
    | zero => rfl
    | succ n ih =>
      rw [replicate_succ, utf16Encode, flatMap_cons, ← utf16Encode, length_append, ih, add_comm]
      rfl
  have hshort := goodShort_uniqueShortName (replicate 2133 'a') []
  obtain ⟨pre, k, h⟩ := wellFormedDir_zero 16
  have hlen : ∀ s ∈ encodeEntrySlots (replicate 2133 'a')
      (uniqueShortName (replicate 2133 'a') []) 0x20 5 3, s.length = 32 :=
    length_of_mem_encodeEntrySlots hshort.length
  obtain ⟨r, hr⟩ := h.decode_appendBuf (n := 16) (by norm_num) hlen
  intro heq
  rw [show (512 : ℕ) = 16 * 32 from rfl, hr, append_cancel_left_eq,
    decodeSlots_new (fun h => absurd (eq_of_mem_replicate h) (by decide)) hshort (by decide) (by norm_num) (by norm_num)] at heq
  have h165 : lfnCount (replicate 2133 'a') = 165 := by
    rw [lfnCount, hunits]; rfl
  exact heq.2.2 h165

end Archis.Fat32
