/-
  The device under a FAT32 volume and the file-allocation table on it
  (`modules/fat32/src/{io_util,sync_state,handle,fat}.rs`).

  Operations run in `FsM`: an error ends them and what they wrote before stays written.  The semaphores of the source
  are left out here.  A walk along FAT links reads values below `2 ^ 28` only, so one that has not ended after
  `walkFuel` links goes round for ever (`hang`).
-/
import Archis.Word
import Archis.Lib.ErrState
import Archis.Fat32.Bpb

namespace Archis.Fat32

open Archis.Lib

/-! ## Faults -/

/-- The error codes of `kernel_intf` that the module returns. -/
inductive Errno where
  | oom
  | internalFailure
  | notFound
  | notDir
  | isDir
  | isSymlink
  | fileExists
  | fileBusy
  | invalid
  | notEmpty
  | noDirEntries
  deriving DecidableEq, Repr

/-- Why a call did not end with success: it returned an error code, it panicked, or it never
    returns. -/
inductive Fault where
  | err (e : Errno)
  | panic
  | hang
  deriving DecidableEq, Repr

/-! ## The device -/

/-- What the module asks of the device below it. -/
inductive Request where
  | read (lba : ℕ)
  | write (lba : ℕ)
  | diskInfo
  deriving DecidableEq, Repr

structure Dev where
  bytes : ℕ → UInt8
  lbaCount : ℕ
  /-- the number of write requests so far -/
  writes : ℕ
  /-- does a request succeed, after so many writes -/
  ok : ℕ → Request → Bool

def Dev.Healthy (d : Dev) : Prop := ∀ n r, d.ok n r = true

/-- `SharedFileState`, without its semaphore. -/
structure SharedFileState where
  firstCluster : ℕ
  size : ℕ
  refcount : ℕ
  deriving DecidableEq, Repr

/-- `FileKind`.  The shared state of a file is the one registered under the handle's place. -/
inductive FileKind where
  | dir (firstCluster : ℕ)
  | file
  deriving DecidableEq, Repr

structure OpenFile where
  kind : FileKind
  parentCluster : ℕ
  slotStart : ℕ
  slotCount : ℕ
  deriving DecidableEq, Repr

/-- A mounted device: its contents, its `DeviceState` and the open handles. -/
structure Vol where
  dev : Dev
  nextFreeHint : ℕ
  bootstrapped : Bool
  openFiles : ℕ × ℕ → Option SharedFileState
  handles : ℕ → Option OpenFile
  nextHandle : ℕ

/-- `DeviceState::new`: the first use of a device. -/
def Vol.mount (d : Dev) : Vol := ⟨d, 2, false, fun _ => none, fun _ => none, 0⟩

abbrev FsM := EStateM Fault Vol

/-- A computation that only reads the device. -/
def readDev {α : Type} (f : Dev → Except Fault α) : FsM α := fun v =>
  match f v.dev with
  | .ok a => .ok a v
  | .error e => .error e v

/-- `lba` and a buffer length in bytes to the bytes read. -/
def readSectors (d : Dev) (lba len : ℕ) : Except Fault (List UInt8) :=
  if len % SECTOR_SIZE = 0 ∧ 0 < len then
    if d.ok d.writes (.read lba) then .ok (load d.bytes (lba * SECTOR_SIZE) len)
    else .error (.err .internalFailure)
  else .error .panic

def writeSectors (lba : ℕ) (buf : List UInt8) : FsM Unit := fun v =>
  if buf.length % SECTOR_SIZE = 0 ∧ 0 < buf.length then
    if v.dev.ok v.dev.writes (.write lba) then
      .ok () { v with dev := { v.dev with
        bytes := store v.dev.bytes (lba * SECTOR_SIZE) buf
        writes := v.dev.writes + 1 } }
    else .error (.err .internalFailure) { v with dev := { v.dev with writes := v.dev.writes + 1 } }
  else .error .panic v

/-- The `lba_count` of `get_disk_info`. -/
def getDiskInfo (d : Dev) : Except Fault ℕ :=
  if d.ok d.writes .diskInfo then .ok d.lbaCount else .error (.err .internalFailure)

/-- Every operation reads the boot sector first. -/
def getBpb (d : Dev) : Except Fault Bpb := do
  let sector ← readSectors d 0 SECTOR_SIZE
  match Bpb.decode sector with
  | some b => pure b
  | none => throw (.err .invalid)

/-! ## FAT entries -/

def EOC : ℕ := 0x0FFFFFFF

def isEoc (v : ℕ) : Bool := 0x0FFFFFF8 ≤ v

def isFree (v : ℕ) : Bool := v = 0

section
variable (b : Bpb) (firstCluster : ℕ) (cluster : ℕ)

/-- `cluster - 2` wraps for the two numbers below the first cluster. -/
def clusterToLba : ℕ :=
  wadd (b.reservedSectorCount.toNat + b.fatArea) (wmul (wsub cluster 2) b.sectorsPerCluster.toNat)

def fatSectorAndOffset (fatCopy cluster : ℕ) : ℕ × ℕ :=
  (b.reservedSectorCount.toNat + fatCopy * b.fatSize32.toNat + cluster * 4 / SECTOR_SIZE, cluster * 4 % SECTOR_SIZE)

/-- The low 28 bits of the entry in the first copy. -/
def readFatEntry (d : Dev) : Except Fault ℕ := do
  let (sector, off) := fatSectorAndOffset b 0 cluster
  let buf ← readSectors d sector SECTOR_SIZE
  return ofLe (slice buf off 4) % 2 ^ 28

/-- `(value & FAT_ENTRY_MASK) | (existing & !FAT_ENTRY_MASK)` -/
def mergeEntry (existing value : ℕ) : ℕ := value % 2 ^ 28 + existing / 2 ^ 28 * 2 ^ 28

def writeFatCopies (b : Bpb) (cluster value : ℕ) : List ℕ → FsM Unit
  | [] => pure ()
  | copy :: copies => do
    let (sector, off) := fatSectorAndOffset b copy cluster
    let buf ← readDev (readSectors · sector SECTOR_SIZE)
    let existing := ofLe (slice buf off 4)
    writeSectors sector (splice buf off (toLe 4 (mergeEntry existing value)))
    writeFatCopies b cluster value copies

/-- The entry is updated in every FAT copy. -/
def writeFatEntry (cluster value : ℕ) : FsM Unit :=
  writeFatCopies b cluster value (List.range b.numFats.toNat)

/-! ## Allocation -/

/-- The binary search of `estimate_free_hint`, with a bound on its rounds. -/
def estimateLoop (b : Bpb) (d : Dev) : ℕ → ℕ → ℕ → ℕ
  | 0, lo, _ => lo
  | n + 1, lo, hi =>
    if lo < hi then
      let mid := lo + (hi - lo) / 2
      match readFatEntry b mid d with
      | .ok v => if isFree v then estimateLoop b d n lo mid else estimateLoop b d n (mid + 1) hi
      | .error _ => lo
    else lo

def estimateFreeHint (d : Dev) (total : ℕ) : ℕ := estimateLoop b d total 2 (total + 2)

/-- Looks at `n` clusters from `cluster` on and claims the first free one. -/
def claimFree (b : Bpb) : ℕ → ℕ → FsM (Option ℕ)
  | 0, _ => pure none
  | n + 1, cluster => do
    let v ← readDev (readFatEntry b cluster)
    if isFree v then
      writeFatEntry b cluster EOC
      modify fun v => { v with nextFreeHint := cluster + 1 }
      pure (some cluster)
    else claimFree b n (cluster + 1)

/-- `take_bootstrap` and the estimate that the first allocation makes. -/
def bootstrap (v : Vol) : Vol :=
  if v.bootstrapped then v
  else { v with bootstrapped := true, nextFreeHint := estimateFreeHint b v.dev b.numClusters }

def allocClusterRaw : FsM ℕ := do
  modify (bootstrap b)
  let v ← get
  -- `clamp(2, total + 2)`
  let hint := min (max v.nextFreeHint 2) (b.numClusters + 2)
  let found ← claimFree b (b.numClusters + 2 - hint) hint
  match found with
  | some cluster => pure cluster
  | none => do
    let found ← claimFree b (hint - 2) 2
    match found with
    | some cluster => pure cluster
    | none => throw (.err .oom)

/-- `alloc_cluster` is `alloc_cluster_raw` under the FAT lock. -/
def allocCluster : FsM ℕ := allocClusterRaw b

/-! ## Chains -/

/-- More links than there are values of an entry. -/
def walkFuel : ℕ := 2 ^ 28 + 2

def freeChainLoop (b : Bpb) : ℕ → ℕ → FsM Unit
  | 0, _ => throw .hang
  | fuel + 1, cluster => do
    let next ← readDev (readFatEntry b cluster)
    writeFatEntry b cluster 0
    if isEoc next || isFree next then pure () else freeChainLoop b fuel next

def freeChain (startCluster : ℕ) : FsM Unit :=
  if startCluster < 2 then pure () else freeChainLoop b walkFuel startCluster

def readChainLoop (b : Bpb) (d : Dev) : ℕ → ℕ → List UInt8 → Except Fault (List UInt8)
  | 0, _, _ => .error .hang
  | fuel + 1, cluster, out => do
    let buf ← readSectors d (clusterToLba b cluster) b.clusterSize
    let next ← readFatEntry b cluster d
    if isEoc next then pure (out ++ buf)
    else if isFree next then throw (.err .internalFailure)
    else readChainLoop b d fuel next (out ++ buf)

def readChain (d : Dev) : Except Fault (List UInt8) :=
  if firstCluster < 2 then pure [] else readChainLoop b d walkFuel firstCluster []

/-- The loop of `write_chain` on the bytes still to write; the first argument bounds the rounds. -/
def writeChainLoop (b : Bpb) : ℕ → ℕ → List UInt8 → FsM Unit
  | 0, _, _ => pure ()
  | n + 1, cluster, data =>
    if data = [] then pure ()
    else if data.length < b.clusterSize then throw .panic
    else do
      writeSectors (clusterToLba b cluster) (data.take b.clusterSize)
      let rest := data.drop b.clusterSize
      if rest = [] then pure ()
      else do
        let next ← readDev (readFatEntry b cluster)
        writeChainLoop b n next rest

def writeChain (data : List UInt8) : FsM Unit :=
  writeChainLoop b data.length firstCluster data

/-- The last cluster of a chain, as `grow_chain` finds it. -/
def walkToTail (b : Bpb) (d : Dev) : ℕ → ℕ → Except Fault ℕ
  | 0, _ => .error .hang
  | fuel + 1, cluster => do
    let next ← readFatEntry b cluster d
    if isEoc next then pure cluster else walkToTail b d fuel next

/-- A fresh cluster, linked behind the tail `cluster` and zeroed. -/
def extendAt : FsM ℕ := do
  let newCluster ← allocClusterRaw b
  writeFatEntry b cluster newCluster
  writeSectors (clusterToLba b newCluster) (List.replicate b.clusterSize 0)
  return newCluster

def growChain : FsM ℕ := do
  let tail ← readDev fun d => walkToTail b d walkFuel firstCluster
  extendAt b tail

end

/-- `cluster_at_index` with `extend = true`, and the number of links still to follow or to make. -/
def clusterAtIndexExtend (b : Bpb) : ℕ → ℕ → FsM ℕ
  | 0, cluster => pure cluster
  | n + 1, cluster => do
    let next ← readDev (readFatEntry b cluster)
    if isEoc next then do
      let newCluster ← extendAt b cluster
      clusterAtIndexExtend b n newCluster
    else clusterAtIndexExtend b n next

/-- `cluster_at_index` with `extend = false`: a pure walk. -/
def clusterAtIndexWalk (b : Bpb) (d : Dev) : ℕ → ℕ → Except Fault ℕ
  | 0, cluster => pure cluster
  | n + 1, cluster => do
    let next ← readFatEntry b cluster d
    if isEoc next then throw (.err .internalFailure) else clusterAtIndexWalk b d n next

end Archis.Fat32
