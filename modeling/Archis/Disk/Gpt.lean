/-
  The GUID partition table (`drivers/disk/src/gpt.rs`): the primary header, which carries a checksum over its own bytes,
  and the array of 128 entries, with their byte codecs and the round trips.
-/
import Archis.Lib.Bytes

namespace Archis.Disk

open Archis.Lib List

def GPT_SECTOR : ℕ := 512
def GPT_HEADER_LBA : ℕ := 1
def GPT_ENTRIES_LBA : ℕ := 2
def GPT_MAX_ENTRIES : ℕ := 128
def GPT_ENTRY_SIZE : ℕ := 128
def GPT_ENTRIES_SECTORS : ℕ := GPT_MAX_ENTRIES * GPT_ENTRY_SIZE / GPT_SECTOR
def FIRST_USABLE_LBA : ℕ := GPT_ENTRIES_LBA + GPT_ENTRIES_SECTORS

/-- `b"EFI PART"`. -/
def GPT_SIGNATURE : List UInt8 := [0x45, 0x46, 0x49, 0x20, 0x50, 0x41, 0x52, 0x54]

def GPT_REVISION : ℕ := 0x00010000
def GPT_HEADER_SIZE : ℕ := 92

/-! ## The checksum -/

def crcBit (crc : UInt32) : UInt32 :=
  if crc &&& 1 ≠ 0 then (crc >>> 1) ^^^ 0xEDB88320 else crc >>> 1

def crcByte (crc : UInt32) (byte : UInt8) : UInt32 :=
  crcBit^[8] (crc ^^^ byte.toUInt32)

def crc32 (data : List UInt8) : UInt32 := data.foldl crcByte 0xFFFFFFFF ^^^ 0xFFFFFFFF

/-! ## The header -/

abbrev Guid := {l : List UInt8 // l.length = 16}

def Guid.zero : Guid := ⟨replicate 16 0, rfl⟩

structure GptHeader where
  myLba : UInt64
  alternateLba : UInt64
  firstUsableLba : UInt64
  lastUsableLba : UInt64
  diskGuid : Guid
  partitionEntryLba : UInt64
  numPartitionEntries : UInt32
  sizeOfPartitionEntry : UInt32
  partitionEntryArrayCrc32 : UInt32
  deriving DecidableEq

def guidAt (bytes : List UInt8) (i : ℕ) : Guid :=
  if h : (slice bytes i 16).length = 16 then ⟨slice bytes i 16, h⟩ else Guid.zero

theorem guidAt_eq {bytes : List UInt8} {i : ℕ} {g : Guid} (h : slice bytes i 16 = g.1) : guidAt bytes i = g := by
  obtain ⟨g, hg⟩ := g
  simp only at h
  simp only [guidAt, h, hg, dite_true]

namespace GptHeader

/-- The byte ranges that `encode` fills before the checksum. -/
def parts (h : GptHeader) : List (ℕ × List UInt8) :=
  [(0, GPT_SIGNATURE), (8, toLe 4 GPT_REVISION), (12, toLe 4 GPT_HEADER_SIZE), (24, toLe 8 h.myLba.toNat), (32,
   toLe 8 h.alternateLba.toNat), (40, toLe 8 h.firstUsableLba.toNat), (48, toLe 8 h.lastUsableLba.toNat), (56,
   h.diskGuid.1), (72, toLe 8 h.partitionEntryLba.toNat), (80, toLe 4 h.numPartitionEntries.toNat), (84,
   toLe 4 h.sizeOfPartitionEntry.toNat), (88, toLe 4 h.partitionEntryArrayCrc32.toNat)]

def body (h : GptHeader) : List UInt8 := spliceAll (replicate GPT_SECTOR 0) h.parts

def encode (h : GptHeader) : List UInt8 :=
  splice h.body 16 (toLe 4 (crc32 (slice h.body 0 GPT_HEADER_SIZE)).toNat)

def fields (bytes : List UInt8) : GptHeader where
  myLba := UInt64.ofNat (ofLe (slice bytes 24 8))
  alternateLba := UInt64.ofNat (ofLe (slice bytes 32 8))
  firstUsableLba := UInt64.ofNat (ofLe (slice bytes 40 8))
  lastUsableLba := UInt64.ofNat (ofLe (slice bytes 48 8))
  diskGuid := guidAt bytes 56
  partitionEntryLba := UInt64.ofNat (ofLe (slice bytes 72 8))
  numPartitionEntries := UInt32.ofNat (ofLe (slice bytes 80 4))
  sizeOfPartitionEntry := UInt32.ofNat (ofLe (slice bytes 84 4))
  partitionEntryArrayCrc32 := UInt32.ofNat (ofLe (slice bytes 88 4))

def decode (bytes : List UInt8) : Option GptHeader :=
  let headerSize := ofLe (slice bytes 12 4)
  if slice bytes 0 8 ≠ GPT_SIGNATURE then none
  else if GPT_SECTOR < headerSize ∨ headerSize < 20 then none
  else
    let storedCrc := ofLe (slice bytes 16 4)
    let check := splice (slice bytes 0 headerSize) 16 (toLe 4 0)
    if (crc32 check).toNat ≠ storedCrc then none else some (fields bytes)

section
variable (h : GptHeader)

theorem parts_bound : ∀ p ∈ h.parts, p.1 + p.2.length ≤ (replicate GPT_SECTOR (0 : UInt8)).length := by
  rw [length_replicate]
  simp [parts, GPT_SECTOR, GPT_SIGNATURE, h.diskGuid.2]

theorem parts_ordered : h.parts.Pairwise fun p q => p.1 + p.2.length ≤ q.1 := by
  simp [parts, GPT_SIGNATURE, h.diskGuid.2]

theorem length_body : h.body.length = GPT_SECTOR := by
  rw [body, length_spliceAll _ _ h.parts_bound, length_replicate]

theorem slice_body_crc : slice h.body 16 4 = toLe 4 0 := by
  rw [body, slice_spliceAll_of_disjoint]
  · rfl
  intro p hp
  refine ⟨h.parts_bound p hp, ?_⟩
  simp only [parts, mem_cons, not_mem_nil, or_false] at hp
  rcases hp with rfl | rfl | rfl | rfl | rfl | rfl | rfl | rfl | rfl | rfl | rfl | rfl <;>
    simp [GPT_SIGNATURE]

theorem crc_bound (c : ℕ) : 16 + (toLe 4 c).length ≤ h.body.length := by
  rw [length_toLe, length_body, GPT_SECTOR]; omega

theorem length_encode : h.encode.length = GPT_SECTOR := by
  rw [encode, length_splice (h.crc_bound _), length_body]

theorem slice_encode {i n : ℕ} {d : List UInt8} (hd : (i, d) ∈ h.parts) (hn : d.length = n)
    (hi : i + n ≤ 16 ∨ 20 ≤ i) : slice h.encode i n = d := by
  subst hn
  rw [encode, slice_splice_of_disjoint (h.crc_bound _) (by rw [length_toLe]; omega), body]
  exact slice_spliceAll_of_mem _ _ h.parts_bound h.parts_ordered _ hd

theorem slice_encode_le {i n v : ℕ} (hd : (i, toLe n v) ∈ h.parts) (hv : v < 256 ^ n)
    (hi : i + n ≤ 16 ∨ 20 ≤ i) : ofLe (slice h.encode i n) = v := by
  rw [h.slice_encode hd (length_toLe n v) hi, ofLe_toLe_of_lt hv]

theorem fields_encode : fields h.encode = h := by
  have hguid : guidAt h.encode 56 = h.diskGuid :=
    guidAt_eq (h.slice_encode (by simp [parts]) h.diskGuid.2 (by omega))
  simp only [fields, hguid, h.slice_encode_le (i := 24) (n := 8) (by simp [parts]) h.myLba.toNat_lt (by omega),
    h.slice_encode_le (i := 32) (n := 8) (by simp [parts]) h.alternateLba.toNat_lt (by omega),
    h.slice_encode_le (i := 40) (n := 8) (by simp [parts]) h.firstUsableLba.toNat_lt (by omega),
    h.slice_encode_le (i := 48) (n := 8) (by simp [parts]) h.lastUsableLba.toNat_lt (by omega),
    h.slice_encode_le (i := 72) (n := 8) (by simp [parts]) h.partitionEntryLba.toNat_lt (by omega),
    h.slice_encode_le (i := 80) (n := 4) (by simp [parts]) h.numPartitionEntries.toNat_lt (by omega),
    h.slice_encode_le (i := 84) (n := 4) (by simp [parts]) h.sizeOfPartitionEntry.toNat_lt (by omega),
    h.slice_encode_le (i := 88) (n := 4) (by simp [parts]) h.partitionEntryArrayCrc32.toNat_lt
      (by omega),
    UInt64.ofNat_toNat, UInt32.ofNat_toNat]

theorem check_encode : splice (slice h.encode 0 GPT_HEADER_SIZE) 16 (toLe 4 0) = slice h.body 0 GPT_HEADER_SIZE := by
  have hl := h.length_body
  have hs : (slice h.body 0 GPT_HEADER_SIZE).length = GPT_HEADER_SIZE :=
    length_slice (by rw [hl]; decide)
  rw [encode, slice_zero_splice (by rw [length_toLe]; decide) (by rw [hl]; decide),
    splice_splice (by rw [hs, length_toLe]; decide) (by rw [length_toLe, length_toLe])]
  refine splice_eq_self (by rw [hs, length_toLe]; decide) ?_
  rw [length_toLe, slice_slice (by decide), zero_add, h.slice_body_crc]

theorem decode_encode : decode h.encode = some h := by
  have hsig : slice h.encode 0 8 = GPT_SIGNATURE := h.slice_encode (by simp [parts]) rfl (by omega)
  have hsize : ofLe (slice h.encode 12 4) = GPT_HEADER_SIZE :=
    h.slice_encode_le (by simp [parts]) (by decide) (by omega)
  have hcrc : ofLe (slice h.encode 16 4) = (crc32 (slice h.body 0 GPT_HEADER_SIZE)).toNat := by
    have h1 := slice_splice_self (h.crc_bound (crc32 (slice h.body 0 GPT_HEADER_SIZE)).toNat)
    rw [length_toLe] at h1
    rw [encode, h1, ofLe_toLe_of_lt (UInt32.toNat_lt _)]
  have hrange : ¬ (GPT_SECTOR < GPT_HEADER_SIZE ∨ GPT_HEADER_SIZE < 20) := by decide
  simp only [decode, hsig, hsize, hcrc, h.check_encode, h.fields_encode, if_neg hrange, ne_eq,
    not_true_eq_false, if_false]

end

end GptHeader

/-! ## Partition entries -/

/-- `[u16; 36]`. -/
abbrev Name36 := {l : List UInt16 // l.length = 36}

structure GptPartitionEntry where
  partTypeGuid : Guid
  uniqueGuid : Guid
  startLba : UInt64
  /-- inclusive -/
  endLba : UInt64
  attributes : UInt64
  nameUtf16 : Name36
  deriving DecidableEq

namespace GptPartitionEntry

def isUnused (e : GptPartitionEntry) : Bool := e.partTypeGuid = Guid.zero

def nameBytes (n : Name36) : List UInt8 := n.1.flatMap fun u => toLe 2 u.toNat

def parts (e : GptPartitionEntry) : List (ℕ × List UInt8) :=
  [(0, e.partTypeGuid.1), (16, e.uniqueGuid.1), (32, toLe 8 e.startLba.toNat),
   (40, toLe 8 e.endLba.toNat), (48, toLe 8 e.attributes.toNat), (56, nameBytes e.nameUtf16)]

def encode (e : GptPartitionEntry) : List UInt8 :=
  spliceAll (replicate GPT_ENTRY_SIZE 0) e.parts

def nameAt (bytes : List UInt8) : Name36 :=
  ⟨(List.range 36).map fun i => UInt16.ofNat (ofLe (slice bytes (56 + i * 2) 2)), by simp⟩

def decode (bytes : List UInt8) : GptPartitionEntry where
  partTypeGuid := guidAt bytes 0
  uniqueGuid := guidAt bytes 16
  startLba := UInt64.ofNat (ofLe (slice bytes 32 8))
  endLba := UInt64.ofNat (ofLe (slice bytes 40 8))
  attributes := UInt64.ofNat (ofLe (slice bytes 48 8))
  nameUtf16 := nameAt bytes

section
variable (e : GptPartitionEntry)

theorem length_nameBytes (n : Name36) : (nameBytes n).length = 72 := by
  rw [nameBytes, length_flatMap_const (fun u => length_toLe 2 _), n.2]

theorem parts_bound : ∀ p ∈ e.parts, p.1 + p.2.length ≤ (replicate GPT_ENTRY_SIZE (0 : UInt8)).length := by
  rw [length_replicate]
  simp [parts, GPT_ENTRY_SIZE, e.partTypeGuid.2, e.uniqueGuid.2, length_nameBytes]

theorem parts_ordered : e.parts.Pairwise fun p q => p.1 + p.2.length ≤ q.1 := by
  simp [parts, e.partTypeGuid.2, e.uniqueGuid.2]

theorem length_encode : e.encode.length = GPT_ENTRY_SIZE := by
  rw [encode, length_spliceAll _ _ e.parts_bound, length_replicate]

theorem slice_encode {i n : ℕ} {d : List UInt8} (hd : (i, d) ∈ e.parts) (hn : d.length = n) :
    slice e.encode i n = d := by
  subst hn
  exact slice_spliceAll_of_mem _ _ e.parts_bound e.parts_ordered _ hd

theorem slice_encode_le {i n v : ℕ} (hd : (i, toLe n v) ∈ e.parts) (hv : v < 256 ^ n) :
    ofLe (slice e.encode i n) = v := by
  rw [e.slice_encode hd (length_toLe n v), ofLe_toLe_of_lt hv]

theorem nameAt_encode : nameAt e.encode = e.nameUtf16 := by
  refine Subtype.ext (ext_getElem? fun k => ?_)
  by_cases hk : k < 36
  · obtain ⟨u, hu⟩ : ∃ u, e.nameUtf16.1[k]? = some u :=
      ⟨_, getElem?_eq_getElem (by rw [e.nameUtf16.2]; exact hk)⟩
    have h1 : slice e.encode 56 72 = nameBytes e.nameUtf16 :=
      e.slice_encode (by simp [parts]) (length_nameBytes _)
    have h2 : slice e.encode (56 + k * 2) 2 = toLe 2 u.toNat := by
      rw [← slice_slice (n := 72) (by omega), h1]
      exact slice_flatMap (fun u => length_toLe 2 _) hu
    have h3 : ofLe (toLe 2 u.toNat) = u.toNat := ofLe_toLe_of_lt (n := 2) u.toNat_lt
    rw [hu]
    simp only [nameAt, getElem?_map, getElem?_range hk, Option.map_some, h2, h3, UInt16.ofNat_toNat]
  · rw [getElem?_eq_none (by rw [(nameAt e.encode).2]; omega),
      getElem?_eq_none (by rw [e.nameUtf16.2]; omega)]

theorem decode_encode : decode e.encode = e := by
  have h1 : guidAt e.encode 0 = e.partTypeGuid :=
    guidAt_eq (e.slice_encode (by simp [parts]) e.partTypeGuid.2)
  have h2 : guidAt e.encode 16 = e.uniqueGuid :=
    guidAt_eq (e.slice_encode (by simp [parts]) e.uniqueGuid.2)
  simp only [decode, h1, h2, e.nameAt_encode,
    e.slice_encode_le (i := 32) (n := 8) (by simp [parts]) e.startLba.toNat_lt,
    e.slice_encode_le (i := 40) (n := 8) (by simp [parts]) e.endLba.toNat_lt,
    e.slice_encode_le (i := 48) (n := 8) (by simp [parts]) e.attributes.toNat_lt, UInt64.ofNat_toNat]

end

end GptPartitionEntry

def encodeProtectiveMbr (totalLba : UInt64) : List UInt8 :=
  let rest := (totalLba - 1).toNat
  let numSectors := if 0xFFFFFFFF < rest then 0xFFFFFFFF else rest
  spliceAll (replicate GPT_SECTOR 0)
    [(446, [0x00]), (447, [0x00, 0x02, 0x00]), (450, [0xEE]), (451, [0xFF, 0xFF, 0xFF]),
     (454, toLe 4 1), (458, toLe 4 numSectors), (510, [0x55, 0xAA])]

end Archis.Disk
