/-
  Partitions of a disk (`drivers/disk/src/lib.rs`).

  `add_partition` checks a range against the usable part of the disk, but not against the entries in use.
    * `exec_partitions_disjoint`: partitions stay disjoint if no request asks for sectors of an entry in use;
    * `isolated_iff`: a partition device stays inside its partition, unless the last sector of a request wraps around.
-/
import Archis.Lib.ErrState
import Archis.Lib.Run
import Archis.Disk.Gpt
import Archis.Disk.DoIo

namespace Archis.Disk

open Archis.Lib
open List hiding Disjoint get modify set

/-! ## The table on the disk -/

/-- A started partition device: its index in the table and its entry. -/
structure PartDev where
  index : ℕ
  entry : GptPartitionEntry
  deriving DecidableEq

/-- The raw disk: the child's bytes, which of its requests succeed, and the partition devices. -/
structure GptDisk where
  lbaCount : UInt64
  bytes : ℕ → UInt8
  reqs : ℕ
  ok : ℕ → Bool
  parts : List PartDev

/-- The GPT code gives up at the first failure. -/
abbrev GptM := EStateM Unit GptDisk

/-- The next request to the device below; does it succeed? -/
def ask : GptM Bool := fun d => .ok (d.ok d.reqs) { d with reqs := d.reqs + 1 }

def readBytes (byteOff len : ℕ) : GptM (List UInt8) := do
  let ok ← ask
  if ok then
    let d ← get
    pure (load d.bytes byteOff len)
  else throw ()

def writeBytes (byteOff : ℕ) (data : List UInt8) : GptM Unit := do
  let ok ← ask
  if ok then modify fun d => { d with bytes := store d.bytes byteOff data } else throw ()

def lastUsableLba (lbaCount : UInt64) : UInt64 :=
  lbaCount - 1 - UInt64.ofNat GPT_ENTRIES_SECTORS - 1

def HEADER_OFF : ℕ := GPT_HEADER_LBA * GPT_SECTOR
def ENTRIES_LEN : ℕ := GPT_ENTRIES_SECTORS * GPT_SECTOR

def freshHeader (totalLba : UInt64) : GptHeader where
  myLba := UInt64.ofNat GPT_HEADER_LBA
  alternateLba := totalLba - 1
  firstUsableLba := UInt64.ofNat FIRST_USABLE_LBA
  lastUsableLba := lastUsableLba totalLba
  diskGuid := Guid.zero
  partitionEntryLba := UInt64.ofNat GPT_ENTRIES_LBA
  numPartitionEntries := UInt32.ofNat GPT_MAX_ENTRIES
  sizeOfPartitionEntry := UInt32.ofNat GPT_ENTRY_SIZE
  partitionEntryArrayCrc32 := crc32 (replicate ENTRIES_LEN 0)

def writeFreshGpt : GptM Unit := do
  let d ← get
  writeBytes 0 (encodeProtectiveMbr d.lbaCount)
  writeBytes HEADER_OFF (freshHeader d.lbaCount).encode
  writeBytes (GPT_ENTRIES_LBA * GPT_SECTOR) (replicate ENTRIES_LEN 0)

/-- `DiskCreateGpt`: the partition devices are torn down first. -/
def doCreateGpt : GptM Unit := do
  modify fun d => { d with parts := [] }
  writeFreshGpt

structure CreatePartitionInfo where
  partTypeGuid : Guid
  uniqueGuid : Guid
  startLba : UInt64
  numLba : UInt64
  nameUtf16 : Name36
  deriving DecidableEq

/-- `start_lba.checked_add(num_lba)?.checked_sub(1)?`, after the check for zero. -/
def CreatePartitionInfo.endLba (info : CreatePartitionInfo) : Option UInt64 :=
  if info.numLba = 0 then none
  else if info.startLba.toNat + info.numLba.toNat < 2 ^ 64 then
    some (info.startLba + info.numLba - 1)
  else none

def freeIndex (entriesBuf : List UInt8) : Option ℕ :=
  (List.range GPT_MAX_ENTRIES).find? fun i =>
    (GptPartitionEntry.decode (slice entriesBuf (i * GPT_ENTRY_SIZE) GPT_ENTRY_SIZE)).isUnused

/-- `create_partition_device`; without a device object the partition has no device. -/
def createPartitionDevice (index : ℕ) (entry : GptPartitionEntry) : GptM Unit := do
  let ok ← ask
  if ok then modify fun d => { d with parts := d.parts ++ [⟨index, entry⟩] } else pure ()

/-- `?` on an option. -/
def orFail {α : Type} : Option α → GptM α
  | some a => pure a
  | none => throw ()

def CreatePartitionInfo.entry (info : CreatePartitionInfo) (endLba : UInt64) : GptPartitionEntry where
  partTypeGuid := info.partTypeGuid
  uniqueGuid := info.uniqueGuid
  startLba := info.startLba
  endLba := endLba
  attributes := 0
  nameUtf16 := info.nameUtf16

/-- The rest of `add_partition`: the entry, the array and the header are written, and the device is started. -/
def commitEntry (header : GptHeader) (entriesBuf : List UInt8) (idx : ℕ) (entry : GptPartitionEntry) :
    GptM GptPartitionEntry := do
  let entriesBuf := splice entriesBuf (idx * GPT_ENTRY_SIZE) entry.encode
  writeBytes (header.partitionEntryLba.toNat * GPT_SECTOR) entriesBuf
  writeBytes HEADER_OFF { header with partitionEntryArrayCrc32 := crc32 entriesBuf }.encode
  createPartitionDevice idx entry
  pure entry

def addPartition (info : CreatePartitionInfo) : GptM GptPartitionEntry := do
  let headerBuf ← readBytes HEADER_OFF GPT_SECTOR
  let header ← orFail (GptHeader.decode headerBuf)
  let endLba ← orFail info.endLba
  if info.startLba < header.firstUsableLba || header.lastUsableLba < endLba then throw ()
  else
    let entriesBuf ← readBytes (header.partitionEntryLba.toNat * GPT_SECTOR) ENTRIES_LEN
    let idx ← orFail (freeIndex entriesBuf)
    commitEntry header entriesBuf idx (info.entry endLba)

/-- The disk after a request, which the driver answers with success or failure. -/
def GptDisk.run {α : Type} (d : GptDisk) (x : GptM α) : GptDisk :=
  match x d with
  | .ok _ d' => d'
  | .error _ d' => d'

/-! ## The invariant -/

def headerOf (d : GptDisk) : Option GptHeader := GptHeader.decode (load d.bytes HEADER_OFF GPT_SECTOR)

def slotOff (i : ℕ) : ℕ := GPT_ENTRIES_LBA * GPT_SECTOR + i * GPT_ENTRY_SIZE

def slotOf (d : GptDisk) (i : ℕ) : GptPartitionEntry :=
  GptPartitionEntry.decode (load d.bytes (slotOff i) GPT_ENTRY_SIZE)

def Used (d : GptDisk) (i : ℕ) : Prop := i < GPT_MAX_ENTRIES ∧ (slotOf d i).isUnused = false

def GptPartitionEntry.sectors (e : GptPartitionEntry) : Set ℕ :=
  Set.Icc e.startLba.toNat e.endLba.toNat

/-- The request passes the checks of `add_partition`, a slot is free, and its range meets that of an entry. -/
def Conflicts (d : GptDisk) (info : CreatePartitionInfo) : Prop :=
  ∃ h e, headerOf d = some h ∧ info.endLba = some e ∧ h.firstUsableLba ≤ info.startLba ∧ e ≤ h.lastUsableLba ∧ (∃ i,
    i < GPT_MAX_ENTRIES ∧ ¬ Used d i) ∧ ∃ i, Used d i ∧ ¬ Disjoint (Set.Icc info.startLba.toNat e.toNat)
    (slotOf d i).sectors

/-- The invariant of the table: a readable header, disjoint entries in the usable part, and devices that are
entries. -/
structure Laid (d : GptDisk) : Prop where
  header : ∃ h, headerOf d = some h ∧ h.partitionEntryLba.toNat = GPT_ENTRIES_LBA ∧ ∀ i, Used d i →
    (slotOf d i).startLba ≤ (slotOf d i).endLba ∧
    (slotOf d i).sectors ⊆ Set.Icc h.firstUsableLba.toNat h.lastUsableLba.toNat
  disjoint : ∀ i j, Used d i → Used d j → i ≠ j → Disjoint (slotOf d i).sectors (slotOf d j).sectors
  parts : ∀ p ∈ d.parts, Used d p.index ∧ slotOf d p.index = p.entry
  nodup : (d.parts.map PartDev.index).Nodup

variable {d d' : GptDisk} {i : ℕ} {info : CreatePartitionInfo} {e : UInt64} {hd : GptHeader}

/-- The same table and devices, on the same child device. -/
structure SameTable (d d' : GptDisk) : Prop where
  bytes : d'.bytes = d.bytes
  parts : d'.parts = d.parts
  ok : d'.ok = d.ok

theorem SameTable.trans {d'' : GptDisk} (h : SameTable d d') (h' : SameTable d' d'') :
    SameTable d d'' :=
  ⟨h'.bytes.trans h.bytes, h'.parts.trans h.parts, h'.ok.trans h.ok⟩

theorem SameTable.headerOf (h : SameTable d d') : headerOf d' = headerOf d := by
  rw [Disk.headerOf, Disk.headerOf, h.bytes]

theorem SameTable.slotOf (h : SameTable d d') : slotOf d' = slotOf d := by
  funext i; rw [Disk.slotOf, Disk.slotOf, h.bytes]

/-- Some request to the device below fails. -/
def Flaky (d : GptDisk) : Prop := ∃ n, d.ok n = false

section
variable {d : GptDisk} {α : Type} {E : Unit → GptDisk → Prop} {Q : α → GptDisk → Prop} {off : ℕ} {data : List UInt8}

theorem wp_ask {Q : Bool → GptDisk → Prop} : wp ask Q E d ↔ Q (d.ok d.reqs) { d with reqs := d.reqs + 1 } := Iff.rfl

theorem wp_readBytes {len : ℕ} {f : List UInt8 → GptM α} (hE : ∀ d', SameTable d d' → Flaky d → E () d')
    (hQ : ∀ d', SameTable d d' → wp (f (load d.bytes off len)) Q E d') : wp (readBytes off len >>= f) Q E d := by
  simp only [readBytes, wp_bind, wp_ask]
  split_ifs with hok
  · exact hQ _ ⟨rfl, rfl, rfl⟩
  · exact hE _ ⟨rfl, rfl, rfl⟩ ⟨_, by simpa using hok⟩

theorem wp_writeBytes_last {Q : Unit → GptDisk → Prop}
    (hE : ∀ d', SameTable d d' → Flaky d → E () d') (hQ : ∀ d', d'.bytes = store d.bytes off data →
    d'.parts = d.parts → d'.ok = d.ok → Q () d') : wp (writeBytes off data) Q E d := by
  simp only [writeBytes, wp_bind, wp_ask]
  split_ifs with hok
  · exact hQ _ rfl rfl rfl
  · exact hE _ ⟨rfl, rfl, rfl⟩ ⟨_, by simpa using hok⟩

theorem wp_writeBytes {f : Unit → GptM α} (hE : ∀ d', SameTable d d' →
    Flaky d → E () d') (hQ : ∀ d', d'.bytes = store d.bytes off data → d'.parts = d.parts →
    d'.ok = d.ok → wp (f ()) Q E d') : wp (writeBytes off data >>= f) Q E d :=
  wp_bind.2 (wp_writeBytes_last hE hQ)

theorem wp_orFail {β : Type} {o : Option β} {f : β → GptM α} (hE : o = none → E () d)
    (hQ : ∀ a, o = some a → wp (f a) Q E d) : wp (orFail o >>= f) Q E d := by
  rw [wp_bind]
  cases o with
  | none => exact hE rfl
  | some a => exact hQ a rfl

end

theorem store_slot (m : ℕ → UInt8) (hi : i < GPT_MAX_ENTRIES) (e : GptPartitionEntry) :
    store m (GPT_ENTRIES_LBA * GPT_SECTOR) (splice (load m (GPT_ENTRIES_LBA * GPT_SECTOR) ENTRIES_LEN)
      (i * GPT_ENTRY_SIZE) e.encode) = store m (slotOff i) e.encode := by
  rw [store_splice_load, slotOff]
  rw [e.length_encode]
  simp only [GPT_MAX_ENTRIES, GPT_ENTRY_SIZE, ENTRIES_LEN, GPT_ENTRIES_SECTORS, GPT_SECTOR] at hi ⊢
  omega

theorem slotOf_store (e : GptPartitionEntry) (hb : d'.bytes = store d.bytes (slotOff i) e.encode)
    (j : ℕ) : slotOf d' j = if j = i then e else slotOf d j := by
  have hl := e.length_encode
  split_ifs with hj
  · subst hj
    rw [slotOf, hb, ← hl, load_store_self, e.decode_encode]
  · have hdis : slotOff j + GPT_ENTRY_SIZE ≤ slotOff i ∨ slotOff i + e.encode.length ≤ slotOff j := by
      rw [hl]; simp only [slotOff, GPT_ENTRY_SIZE]; omega
    rw [slotOf, hb, load_store_of_disjoint hdis, slotOf]

theorem headerOf_store (e : GptPartitionEntry)
    (hb : d'.bytes = store d.bytes (slotOff i) e.encode) : headerOf d' = headerOf d := by
  have hdis : HEADER_OFF + GPT_SECTOR ≤ slotOff i := by
    simp only [HEADER_OFF, slotOff, GPT_HEADER_LBA, GPT_ENTRIES_LBA, GPT_SECTOR]; omega
  rw [headerOf, hb, load_store_of_disjoint (.inl hdis), headerOf]

theorem slotOf_header (h : GptHeader) (hb : d'.bytes = store d.bytes HEADER_OFF h.encode) : slotOf d' = slotOf d := by
  funext i
  have hdis : HEADER_OFF + h.encode.length ≤ slotOff i := by
    rw [h.length_encode]
    simp only [HEADER_OFF, slotOff, GPT_HEADER_LBA, GPT_ENTRIES_LBA, GPT_SECTOR]; omega
  rw [slotOf, hb, load_store_of_disjoint (.inr hdis), slotOf]

theorem headerOf_header (h : GptHeader)
    (hb : d'.bytes = store d.bytes HEADER_OFF h.encode) : headerOf d' = some h := by
  rw [headerOf, hb, ← h.length_encode, load_store_self, h.decode_encode]

theorem slice_entries (m : ℕ → UInt8) (hi : i < GPT_MAX_ENTRIES) :
    slice (load m (GPT_ENTRIES_LBA * GPT_SECTOR) ENTRIES_LEN) (i * GPT_ENTRY_SIZE) GPT_ENTRY_SIZE =
      load m (slotOff i) GPT_ENTRY_SIZE := by
  rw [slice_load, slotOff]
  simp only [GPT_MAX_ENTRIES, GPT_ENTRY_SIZE, ENTRIES_LEN, GPT_ENTRIES_SECTORS, GPT_SECTOR] at hi ⊢
  omega

theorem freeIndex_some {buf : List UInt8} (hbuf : buf = load d.bytes (GPT_ENTRIES_LBA * GPT_SECTOR) ENTRIES_LEN)
    (h : freeIndex buf = some i) : i < GPT_MAX_ENTRIES ∧ ¬ Used d i ∧ ∀ j < i, Used d j := by
  obtain ⟨hu, hi, hbefore⟩ := find?_range_eq_some.1 h
  rw [mem_range] at hi
  rw [hbuf, slice_entries _ hi] at hu
  refine ⟨hi, fun h => ?_, fun j hj => ⟨hj.trans hi, ?_⟩⟩
  · have h2 := h.2
    rw [slotOf, hu] at h2; cases h2
  · have h2 := hbefore j hj
    rw [hbuf, slice_entries _ (hj.trans hi)] at h2
    simpa [slotOf] using h2

theorem freeIndex_none {buf : List UInt8} (hbuf : buf = load d.bytes (GPT_ENTRIES_LBA * GPT_SECTOR)
    ENTRIES_LEN) (h : freeIndex buf = none) : ∀ i < GPT_MAX_ENTRIES, Used d i := by
  intro i hi
  have h1 := find?_eq_none.1 h i (mem_range.2 hi)
  rw [hbuf, slice_entries _ hi] at h1
  exact ⟨hi, by simpa [slotOf] using h1⟩

theorem endLba_spec (h : info.endLba = some e) : info.startLba ≤ e := by
  unfold CreatePartitionInfo.endLba at h
  split_ifs at h with h0 h1
  rw [Option.some.injEq] at h
  have hpos : 0 < info.numLba.toNat :=
    Nat.pos_of_ne_zero fun hz => h0 (UInt64.toNat_inj.1 hz)
  subst h
  rw [UInt64.le_iff_toNat_le, UInt64.toNat_sub_of_le, UInt64.toNat_add]
  · simp only [UInt64.toNat_one]; omega
  · rw [UInt64.le_iff_toNat_le, UInt64.toNat_add]
    simp only [UInt64.toNat_one]; omega

/-- The header says where the entry array is. -/
def HeaderAt (d : GptDisk) (hd : GptHeader) : Prop :=
  headerOf d = some hd ∧ hd.partitionEntryLba.toNat = GPT_ENTRIES_LBA

def InRange (hd : GptHeader) (info : CreatePartitionInfo) (e : UInt64) : Prop :=
  info.endLba = some e ∧ hd.firstUsableLba ≤ info.startLba ∧ e ≤ hd.lastUsableLba

/-- The entry of the request, which ends at `e`, is now in the first free slot `i`; it may have a
    device. -/
structure Granted (d : GptDisk) (hd : GptHeader) (info : CreatePartitionInfo) (e : UInt64) (i : ℕ)
    (d' : GptDisk) : Prop where
  range : InRange hd info e
  header : ∃ hd', HeaderAt d' hd' ∧ hd'.firstUsableLba = hd.firstUsableLba ∧
    hd'.lastUsableLba = hd.lastUsableLba ∧ hd'.numPartitionEntries = hd.numPartitionEntries
  lt : i < GPT_MAX_ENTRIES
  free : ¬ Used d i
  first : ∀ j < i, Used d j
  slots : ∀ j, slotOf d' j = if j = i then info.entry e else slotOf d j
  parts : d'.parts = d.parts ∨ d'.parts = d.parts ++ [⟨i, info.entry e⟩]
  ok : d'.ok = d.ok

theorem SameTable.headerAt (h : SameTable d d')
    (hh : HeaderAt d hd) : HeaderAt d' hd := ⟨by rw [h.headerOf]; exact hh.1, hh.2⟩

theorem commitEntry_spec {entriesBuf : List UInt8} (hh : HeaderAt d hd) (hr : InRange hd info e)
    (hlt : i < GPT_MAX_ENTRIES) (hfree : ¬ Used d i) (hfirst : ∀ j < i, Used d j)
    (hbuf : entriesBuf = load d.bytes (GPT_ENTRIES_LBA * GPT_SECTOR) ENTRIES_LEN) :
    wp (commitEntry hd entriesBuf i (info.entry e)) (fun _ => Granted d hd info e i)
      (fun _ d' => Flaky d ∧ (SameTable d d' ∨ Granted d hd info e i d')) d := by
  rw [commitEntry, hh.2]
  refine wp_writeBytes (fun d' hs hf => ⟨hf, .inl hs⟩) fun d₁ hb₁ hp₁ hok₁ => ?_
  rw [hbuf, store_slot _ hlt] at hb₁
  have hslot₁ := slotOf_store _ hb₁
  have hhd₁ : headerOf d₁ = some hd := by rw [headerOf_store _ hb₁, hh.1]
  -- the entry is in the table, the header still has the old checksum of the array
  refine wp_writeBytes (fun d' hs hf => ⟨by rwa [Flaky, hok₁] at hf, .inr ?_⟩) fun d₂ hb₂ hp₂ hok₂ => ?_
  · exact ⟨hr, ⟨hd, ⟨by rw [hs.headerOf, hhd₁], hh.2⟩, rfl, rfl, rfl⟩, hlt, hfree, hfirst,
      by rw [hs.slotOf]; exact hslot₁, .inl (hs.parts.trans hp₁), hs.ok.trans hok₁⟩
  have hslot₂ : slotOf d₂ = slotOf d₁ := slotOf_header _ hb₂
  have hhead : HeaderAt d₂ _ := ⟨headerOf_header _ hb₂, hh.2⟩
  simp only [createPartitionDevice, wp_bind, wp_ask]
  split_ifs
  · refine ⟨hr, ⟨_, hhead, rfl, rfl, rfl⟩, hlt, hfree, hfirst, ?_, .inr ?_, hok₂.trans hok₁⟩
    · intro j
      exact (congrFun hslot₂ j).trans (hslot₁ j)
    · show d₂.parts ++ _ = _
      rw [hp₂, hp₁]
  · refine ⟨hr, ⟨_, hhead, rfl, rfl, rfl⟩, hlt, hfree, hfirst, ?_, .inl (hp₂.trans hp₁), hok₂.trans hok₁⟩
    intro j
    exact (congrFun hslot₂ j).trans (hslot₁ j)

theorem Granted.of_same {d₀ : GptDisk} (hs : SameTable d₀ d) (h : Granted d hd info e i d') :
    Granted d₀ hd info e i d' := by
  have hslot := hs.slotOf
  have hused : Used d = Used d₀ := by funext j; rw [Used, Used, hslot]
  have hfree := h.free
  have hfirst := h.first
  have hslots := h.slots
  have hparts := h.parts
  rw [hused] at hfree hfirst
  rw [hslot] at hslots
  rw [hs.parts] at hparts
  exact ⟨h.range, h.header, h.lt, hfree, hfirst, hslots, hparts, h.ok.trans hs.ok⟩

/-- **What `add_partition` does**: it grants the request, or a request below failed, the range is not usable or
no slot is free. -/
theorem addPartition_spec (hh : HeaderAt d hd) (info : CreatePartitionInfo) : wp (addPartition info)
    (fun _ d' => ∃ e i, Granted d hd info e i d') (fun _ d' => (Flaky d ∨ (∀ e, ¬ InRange hd info e)
    ∨ ∀ i < GPT_MAX_ENTRIES, Used d i) ∧ (SameTable d d' ∨ ∃ e i, Granted d hd info e i d')) d := by
  rw [addPartition]
  refine wp_readBytes (fun d' hs hf => ⟨.inl hf, .inl hs⟩) fun d₀ hs₀ => ?_
  rw [← headerOf, hh.1]
  refine wp_orFail (fun hn => by cases hn) fun hd' heq => ?_
  obtain rfl := Option.some.inj heq
  refine wp_orFail (fun hn => ⟨.inr (.inl ?_), .inl hs₀⟩) fun e he => ?_
  · intro e hr
    rw [hr.1] at hn; cases hn
  split_ifs with hrange
  · refine ⟨.inr (.inl ?_), .inl hs₀⟩
    rintro e' ⟨h1, h2, h3⟩
    obtain rfl : e' = e := by rw [he] at h1; exact (Option.some.inj h1).symm
    simp only [Bool.or_eq_true, decide_eq_true_eq, ← UInt64.not_le] at hrange
    exact hrange.elim (fun h => h h2) fun h => h h3
  have hr : InRange hd info e := by
    simp only [Bool.or_eq_true, decide_eq_true_eq, not_or, UInt64.not_lt] at hrange
    exact ⟨he, hrange⟩
  rw [hh.2]
  refine wp_readBytes (fun d' hs hf => ⟨.inl (by rwa [Flaky, hs₀.ok] at hf), .inl (hs₀.trans hs)⟩) fun d₁ hs₁ => ?_
  have hs := hs₀.trans hs₁
  rw [← hs₁.bytes]
  generalize hbuf : load d₁.bytes (GPT_ENTRIES_LBA * GPT_SECTOR) ENTRIES_LEN = entriesBuf
  have hused : Used d₁ = Used d := by funext j; rw [Used, Used, hs.slotOf]
  refine wp_orFail (fun hn => ⟨.inr (.inr ?_), .inl hs⟩) fun i hi => ?_
  · rw [← hused]; exact freeIndex_none hbuf.symm hn
  obtain ⟨hlt, hfree, hfirst⟩ := freeIndex_some hbuf.symm hi
  refine (commitEntry_spec (hs.headerAt hh) hr hlt hfree hfirst hbuf.symm).mono
    (fun _ d' hg => ⟨e, i, hg.of_same hs⟩) ?_
  rintro - d' ⟨hf, h⟩
  refine ⟨.inl (by rwa [Flaky, hs.ok] at hf), ?_⟩
  rcases h with h | h
  · exact .inl (hs.trans h)
  · exact .inr ⟨e, i, h.of_same hs⟩

/-! ## Runs of requests -/

theorem Laid.congr (h : Laid d) (hs : SameTable d d') : Laid d' := by
  have h2 := hs.slotOf
  have h3 : Used d' = Used d := by funext i; rw [Used, Used, h2]
  exact ⟨by rw [hs.headerOf, h2, h3]; exact h.header, by rw [h2, h3]; exact h.disjoint,
    by rw [h2, h3, hs.parts]; exact h.parts, by rw [hs.parts]; exact h.nodup⟩

theorem Laid.granted (h : Laid d) (hh : HeaderAt d hd) (hguid : info.partTypeGuid ≠ Guid.zero)
    (hok : ¬ Conflicts d info) (hg : Granted d hd info e i d') : Laid d' := by
  have hnew : (info.entry e).isUnused = false := decide_eq_false hguid
  have hused : ∀ j, Used d' j → j ≠ i → Used d j := by
    intro j hj hne
    rw [Used, hg.slots, if_neg hne] at hj
    exact hj
  have hused' : ∀ j, Used d j → Used d' j ∧ slotOf d' j = slotOf d j := by
    intro j hj
    have hne : j ≠ i := by
      rintro rfl
      exact hg.free hj
    rw [Used, hg.slots, if_neg hne]
    exact ⟨hj, rfl⟩
  have hdis : ∀ j, Used d j → Disjoint (info.entry e).sectors (slotOf d j).sectors := by
    intro j hj
    by_contra hcon
    exact hok ⟨hd, e, hh.1, hg.range.1, hg.range.2.1, hg.range.2.2, ⟨i, hg.lt, hg.free⟩, j, hj, hcon⟩
  refine ⟨?_, ?_, ?_, ?_⟩
  · obtain ⟨hd', hh', hfirst, hlast, -⟩ := hg.header
    obtain ⟨hd₀, h1, -, h3⟩ := h.header
    obtain rfl : hd₀ = hd := by rw [hh.1] at h1; exact (Option.some.inj h1).symm
    refine ⟨hd', hh'.1, hh'.2, fun j hj => ?_⟩
    rw [hfirst, hlast, hg.slots]
    split_ifs with hji
    · exact ⟨endLba_spec hg.range.1, Set.Icc_subset_Icc (UInt64.le_iff_toNat_le.1 hg.range.2.1)
        (UInt64.le_iff_toNat_le.1 hg.range.2.2)⟩
    · exact h3 j (hused j hj hji)
  · intro j k hj hk hne
    rw [hg.slots, hg.slots]
    split_ifs with hji hki hki
    · exact absurd (hji.trans hki.symm) hne
    · exact hdis k (hused k hk hki)
    · exact (hdis j (hused j hj hji)).symm
    · exact h.disjoint j k (hused j hj hji) (hused k hk hki) hne
  · have hold : ∀ p ∈ d.parts, Used d' p.index ∧ slotOf d' p.index = p.entry := by
      intro p hp
      obtain ⟨h1, h2⟩ := h.parts p hp
      obtain ⟨h3, h4⟩ := hused' _ h1
      exact ⟨h3, h4.trans h2⟩
    rcases hg.parts with hp | hp
    · rw [hp]; exact hold
    rw [hp]
    intro p hpm
    rcases mem_append.1 hpm with hpm | hpm
    · exact hold p hpm
    · rw [mem_singleton] at hpm
      subst hpm
      rw [Used, hg.slots, if_pos rfl]
      exact ⟨⟨hg.lt, hnew⟩, rfl⟩
  · rcases hg.parts with hp | hp
    · rw [hp]; exact h.nodup
    rw [hp, map_append, map_singleton]
    refine nodup_append.2 ⟨h.nodup, nodup_singleton _, ?_⟩
    rintro a ha b hb rfl
    obtain ⟨p, hpm, hpi⟩ := mem_map.1 ha
    have hai : a = i := mem_singleton.1 hb
    have hu := (h.parts p hpm).1
    rw [hpi, hai] at hu
    exact hg.free hu

theorem isUnused_zero (a : ℕ) : (GptPartitionEntry.decode (load (fun _ => 0) a GPT_ENTRY_SIZE)).isUnused = true := by
  have h : load (fun _ => (0 : UInt8)) a GPT_ENTRY_SIZE = replicate GPT_ENTRY_SIZE 0 := by
    simp only [load, map_const', length_range]
  rw [h]
  decide

structure EmptyTable (d : GptDisk) (hd : GptHeader) : Prop where
  header : HeaderAt d hd
  free : ∀ i, ¬ Used d i
  parts : d.parts = []

/-- **`DiskCreateGpt`** leaves an empty table, or fails because a request below failed. -/
theorem doCreateGpt_spec (d : GptDisk) : wp doCreateGpt
    (fun _ d' => EmptyTable d' (freshHeader d.lbaCount) ∧ d'.ok = d.ok) (fun _ _ => Flaky d) d := by
  rw [doCreateGpt, wp_bind, wp_modify, writeFreshGpt, wp_bind, wp_get]
  refine wp_writeBytes (fun _ _ hf => hf) fun d₁ _ hp₁ hok₁ => ?_
  refine wp_writeBytes (fun _ _ hf => ?_) fun d₂ hb₂ hp₂ hok₂ => ?_
  · rwa [Flaky, hok₁] at hf
  refine wp_writeBytes_last (fun _ _ hf => ?_) fun d₃ hb₃ hp₃ hok₃ => ?_
  · rwa [Flaky, hok₂, hok₁] at hf
  have hlen : (replicate ENTRIES_LEN (0 : UInt8)).length = ENTRIES_LEN := length_replicate
  refine ⟨⟨⟨?_, rfl⟩, ?_, ?_⟩, hok₃.trans (hok₂.trans hok₁)⟩
  · have hdis : HEADER_OFF + GPT_SECTOR ≤ GPT_ENTRIES_LBA * GPT_SECTOR := by decide
    rw [headerOf, hb₃, load_store_of_disjoint (.inl hdis), ← headerOf]
    exact headerOf_header _ hb₂
  · rintro i ⟨hi, hu⟩
    have hload : load d₃.bytes (slotOff i) GPT_ENTRY_SIZE = load (fun _ => 0) (slotOff i) GPT_ENTRY_SIZE := by
      refine load_congr fun k hk => ?_
      rw [hb₃, store, if_pos, getD_eq_getElem?_getD, getElem?_replicate]
      · split_ifs <;> rfl
      · rw [hlen]
        simp only [slotOff, GPT_MAX_ENTRIES, GPT_ENTRY_SIZE, ENTRIES_LEN, GPT_ENTRIES_SECTORS,
          GPT_SECTOR, GPT_ENTRIES_LBA] at hi hk ⊢
        omega
    rw [slotOf, hload, isUnused_zero] at hu
    cases hu
  · rw [hp₃, hp₂, hp₁]

def blankDisk (lbaCount : UInt64) : GptDisk := ⟨lbaCount, fun _ => 0, 0, fun _ => true, []⟩

def tenSectors (startLba : UInt64) : CreatePartitionInfo where
  partTypeGuid := ⟨1 :: replicate 15 0, rfl⟩
  uniqueGuid := Guid.zero
  startLba := startLba
  numLba := 10
  nameUtf16 := ⟨replicate 36 0, rfl⟩

theorem blankDisk_created (lbaCount : UInt64) : ∃ d, doCreateGpt (blankDisk lbaCount) = .ok () d ∧
    EmptyTable d (freshHeader lbaCount) ∧ ¬ Flaky d := by
  have hnf : ¬ Flaky (blankDisk lbaCount) := fun ⟨_, hn⟩ => by cases hn
  obtain ⟨⟨⟩, d, hd, hempty, hok⟩ := exists_of_wp
    ((doCreateGpt_spec (blankDisk lbaCount)).mono (fun _ _ h => h) fun _ _ hf => hnf hf)
  exact ⟨d, hd, hempty, by rwa [Flaky, hok]⟩

theorem addPartition_granted (hh : HeaderAt d hd) (hnf : ¬ Flaky d) (hr : InRange hd info e) (hfree
    : ∃ i < GPT_MAX_ENTRIES, ¬ Used d i) : ∃ i a t, addPartition info d = .ok a t ∧ Granted d hd
    info e i t := by
  have hspec : wp (addPartition info) (fun _ d' => ∃ e i, Granted d hd info e i d') (fun _ _ => False) d := by
    refine (addPartition_spec hh info).mono (fun _ _ h => h) ?_
    rintro - d' ⟨hf | hr' | hfull, -⟩
    · exact hnf hf
    · exact hr' e hr
    · obtain ⟨i, hi, hu⟩ := hfree
      exact hu (hfull i hi)
  obtain ⟨a, t, ht, e', i, hg⟩ := exists_of_wp hspec
  obtain rfl : e' = e := by
    have h1 := hg.range.1
    rw [hr.1] at h1; exact (Option.some.inj h1).symm
  exact ⟨i, a, t, ht, hg⟩

theorem tenSectors_inRange {startLba : UInt64} (h : startLba = 34 ∨ startLba = 44) :
    InRange (freshHeader 4096) (tenSectors startLba) (startLba + 9) := by
  rcases h with rfl | rfl <;> exact ⟨by decide, by decide, by decide⟩

section
variable {S : Type}

/-- The sectors of the raw disk that `do_io` touches for a request. -/
def touched (ctx : RawDiskCtx S) (r : Irp S) : List ℕ :=
  match target ctx r with
  | none => []
  | some (baseLba, n) => (List.range n).map (wadd baseLba)

/-- The end of the request wraps around `2 ^ 64` to a number of sectors that the partition has. -/
def WrapsInto (startLba endLba : ℕ) (r : Irp S) : Prop :=
  2 ^ 64 ≤ r.offset + r.size / SECTOR_SIZE ∧ r.offset + r.size / SECTOR_SIZE - 2 ^ 64 ≤ endLba - startLba + 1

variable {ctx : RawDiskCtx S} {r : Irp S} {startLba endLba : ℕ}

theorem numLba_eq (hle : startLba ≤ endLba) (hend : endLba < 2 ^ 64 - 1) :
    numLba startLba endLba = endLba - startLba + 1 := by
  rw [numLba, if_neg (by omega), wsub_eq hle (by omega), wadd_eq (by omega)]

theorem target_part (hdev : r.device = .part startLba endLba) (hbusy : ctx.busy = false) (h0 : r.size ≠ 0)
    (hmod : r.size % SECTOR_SIZE = 0) : target ctx r = if wadd r.offset (r.size / SECTOR_SIZE) > numLba startLba
    endLba then none else if wadd (wadd startLba r.offset) (r.size / SECTOR_SIZE) > ctx.lbaCount then none else some
    (wadd startLba r.offset, r.size / SECTOR_SIZE) := by
  simp only [target, hdev, hbusy, h0, hmod]
  split_ifs <;> simp_all

section
variable (hle : startLba ≤ endLba) (hend : endLba < ctx.lbaCount) (hcount : ctx.lbaCount < 2 ^ 64)
  (hdev : r.device = .part startLba endLba) (hbusy : ctx.busy = false) (h0 : r.size ≠ 0)
  (hmod : r.size % SECTOR_SIZE = 0)
include hle hend hcount hdev hbusy h0 hmod

theorem touched_inside (hnowrap : r.offset + r.size / SECTOR_SIZE < 2 ^ 64) : ∀ x ∈ touched ctx r,
    startLba ≤ x ∧ x ≤ endLba := by
  intro x hx
  rw [touched, target_part hdev hbusy h0 hmod, numLba_eq hle (by omega), wadd_eq hnowrap] at hx
  split_ifs at hx with h1 h2
  · cases hx
  · cases hx
  · obtain ⟨i, hi, rfl⟩ := mem_map.1 hx
    rw [mem_range] at hi
    rw [wadd_eq (by omega : startLba + r.offset < 2 ^ 64), wadd_eq (by omega)]
    omega

theorem touched_outside (hoff : r.offset < 2 ^ 64) (hsize : r.size < 2 ^ 64)
    (hw : WrapsInto startLba endLba r) : ∃ x ∈ touched ctx r, ¬ (startLba ≤ x ∧ x ≤ endLba) := by
  obtain ⟨hwrap, hin⟩ := hw
  set n := r.size / SECTOR_SIZE with hn
  have hn' : n < 2 ^ 55 := by rw [hn, SECTOR_SIZE]; omega
  have htarget : target ctx r = some (wadd startLba r.offset, n) := by
    rw [target_part hdev hbusy h0 hmod, numLba_eq hle (by omega), if_neg, if_neg]
    · simp only [wadd]; omega
    · simp only [wadd]; omega
  rw [touched, htarget]
  -- with `k` the distance of the offset to `2 ^ 64`: the sector before the first one, or, if the
  -- first sectors are below zero too, the last 64-bit number
  by_cases hk : 2 ^ 64 - r.offset ≤ startLba
  · refine ⟨wadd (wadd startLba r.offset) 0, mem_map_of_mem (mem_range.2 (by omega)), ?_⟩
    simp only [wadd]; omega
  · refine ⟨wadd (wadd startLba r.offset) (2 ^ 64 - r.offset - startLba - 1),
      mem_map_of_mem (mem_range.2 (by omega)), ?_⟩
    simp only [wadd]; omega

end

/-- **When a partition device stays inside its partition**: exactly if the request is refused at once, or its end
does not wrap around `2 ^ 64` into the partition's length. -/
theorem isolated_iff (ctx : RawDiskCtx S) (startLba endLba : ℕ) (hle : startLba ≤ endLba)
    (hend : endLba < ctx.lbaCount) (hcount : ctx.lbaCount < 2 ^ 64) (r : Irp S)
    (hdev : r.device = .part startLba endLba) (hoff : r.offset < 2 ^ 64) (hsize : r.size < 2 ^ 64) :
    (∀ x ∈ touched ctx r, startLba ≤ x ∧ x ≤ endLba) ↔
      (ctx.busy = true ∨ r.size = 0 ∨ r.size % SECTOR_SIZE ≠ 0) ∨ ¬ WrapsInto startLba endLba r := by
  by_cases href : ctx.busy = true ∨ r.size = 0 ∨ r.size % SECTOR_SIZE ≠ 0
  · refine iff_of_true ?_ (.inl href)
    have hnone : target ctx r = none := by
      rw [target]
      split_ifs with h1
      · rfl
      · simp only [Bool.or_eq_true, decide_eq_true_eq, not_or, not_not] at h1
        have hbusy : ctx.busy = true := by tauto
        simp only [hdev, hbusy, Bool.true_or, if_true]
        split <;> rfl
    rw [touched, hnone]
    simp
  · simp only [not_or, not_not, Bool.not_eq_true] at href
    obtain ⟨hbusy, h0, hmod⟩ := href
    have hiff : (ctx.busy = true ∨ r.size = 0 ∨ r.size % SECTOR_SIZE ≠ 0) ↔ False := by
      simp [hbusy, h0, hmod]
    rw [hiff, false_or]
    constructor
    · intro h hw
      obtain ⟨x, hx, hout⟩ := touched_outside hle hend hcount hdev hbusy h0 hmod hoff hsize hw
      exact hout (h x hx)
    intro hnw
    by_cases hnowrap : r.offset + r.size / SECTOR_SIZE < 2 ^ 64
    · exact touched_inside hle hend hcount hdev hbusy h0 hmod hnowrap
    -- the wrapped end is still too large for the partition
    have hbig : ¬ (r.offset + r.size / SECTOR_SIZE - 2 ^ 64 ≤ endLba - startLba + 1) :=
      fun h => hnw ⟨by omega, h⟩
    have hnone : target ctx r = none := by
      have hn : r.size / SECTOR_SIZE < 2 ^ 55 := by rw [SECTOR_SIZE]; omega
      rw [target_part hdev hbusy h0 hmod, numLba_eq hle (by omega), if_pos]
      simp only [wadd]; omega
    rw [touched, hnone]
    simp

def smallDisk : RawDiskCtx Unit := ⟨false, 4096, ∅, 0⟩

def readOne (offset : ℕ) : Irp Unit := ⟨.part 34 100, false, offset, 512, fun _ => ()⟩

theorem isolated_readOne : (∀ x ∈ touched smallDisk (readOne 5), 34 ≤ x ∧ x ≤ 100) ↔ (smallDisk.busy = true ∨
    (readOne 5).size = 0 ∨ (readOne 5).size % SECTOR_SIZE ≠ 0) ∨ ¬ WrapsInto 34 100 (readOne 5) :=
  isolated_iff smallDisk 34 100 (by decide) (by decide) (by decide) (readOne 5) rfl (by decide) (by decide)

/-- The read at offset `2 ^ 64 - 1` is accepted and touches the sector before the partition. -/
theorem read_before_partition : target smallDisk (readOne (2 ^ 64 - 1)) = some (33, 1) ∧
    ¬ ∀ x ∈ touched smallDisk (readOne (2 ^ 64 - 1)), 34 ≤ x ∧ x ≤ 100 := by
  have h : target smallDisk (readOne (2 ^ 64 - 1)) = some (33, 1) := by decide
  refine ⟨h, fun hall => ?_⟩
  rw [touched, h] at hall
  exact absurd (hall 33 (by decide)) (by decide)

end

end Archis.Disk
