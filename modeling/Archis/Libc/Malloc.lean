/-
  The allocator of the C library (`userspace/libc/malloc.c`).

  A block is a header of two words and its data; the free blocks are a list through their headers, sorted by address.
    * `Arena` is the memory with the heads of the two lists; a `block_hdr_t **` is the block whose `next` it points to;
    * the replies of the kernel are arguments of the calls; a chunk is new memory (`Fresh`).
-/
import Archis.Lib.WordMem
import Archis.Word

namespace Archis.Libc

open Archis.Lib

def ALIGN : ℕ := 16
def PAGE_SZ : ℕ := 4096
def CHUNK_SZ : ℕ := 64 * 1024
def MIN_SPLIT : ℕ := 32
def BLK_HDR_SZ : ℕ := 16
def CHUNK_HDR_SZ : ℕ := 16

def USER_END : ℕ := 2 ^ 47

structure Arena where
  mem : ℕ → UInt8
  /-- `g_chunks` -/
  gChunks : ℕ
  /-- `g_free_list` -/
  gFreeList : ℕ
  /-- The chunks that the kernel has given: address and size. -/
  given : List (ℕ × ℕ)

namespace Arena

/-! ## Blocks -/

variable (h : Arena) (b : ℕ)

def word (a : ℕ) : ℕ := wordAt h.mem a

def setWord (a v : ℕ) : Arena := { h with mem := Lib.setWord h.mem a v }

def blkSize : ℕ := h.word b / 2 * 2

def blkFree : Bool := h.word b % 2 = 1

def blkData : ℕ := wadd b BLK_HDR_SZ

def dataBlk (p : ℕ) : ℕ := wsub p BLK_HDR_SZ

def freeBit (size : ℕ) : ℕ := size / 2 * 2 + 1

/-- `round_up`, for a power of two. -/
def roundUp (n align : ℕ) : ℕ := wsub (wadd n align) 1 / align * align

def freeList : ListMem := ⟨h.gFreeList, h.mem⟩

/-- `*pp = q`. -/
def setLink (p q : ℕ) : Arena :=
  { h with mem := (h.freeList.setLink p q).mem, gFreeList := (h.freeList.setLink p q).head }

/-- `*pp`, where a loop over the list has stopped. -/
def link (p : ℕ) : ℕ := h.freeList.link p

def freeListInsert (fuel b : ℕ) : Option Arena :=
  (h.freeList.walk (fun cur => !decide (cur < b)) fuel 0).map fun p => (h.setWord (b + 8) (h.link p)).setLink p b

def freeListRemove (fuel b : ℕ) : Option Arena :=
  (h.freeList.walk (fun cur => cur = b) fuel 0).map fun p =>
    if h.link p = 0 then h else h.setLink p (h.word (b + 8))

/-- The header of a new free block, which is then inserted. -/
def addFree (fuel b size : ℕ) : Option Arena := ((h.setWord b (freeBit size)).setWord (b + 8) 0).freeListInsert fuel b

def splitBlock (fuel b size : ℕ) : Option Arena :=
  let old := h.blkSize b
  if wsub old size < MIN_SPLIT then some h
  else (h.addFree fuel (wadd (blkData b) size) (wsub (wsub old size) BLK_HDR_SZ)).map fun h => h.setWord b size

/-! ## Chunks -/

/-- The kernel gives whole pages that no chunk has. -/
def Fresh (ptr total : ℕ) : Prop :=
  PAGE_SZ ∣ ptr ∧ 0 < ptr ∧ 0 < total ∧ ptr + total ≤ USER_END ∧ ∀ c ∈ h.given, ptr + total ≤ c.1 ∨ c.1 + c.2 ≤ ptr

instance (ptr total : ℕ) : Decidable (h.Fresh ptr total) := inferInstanceAs (Decidable (_ ∧ _))

/-- The size of the chunk for `minData` bytes. -/
def chunkTotal (minData : ℕ) : ℕ :=
  let total := wadd (CHUNK_HDR_SZ + BLK_HDR_SZ) minData
  roundUp (if total < CHUNK_SZ then CHUNK_SZ else total) PAGE_SZ

/-- `new_chunk`: has there been one?  The reply is the address, or none if the kernel refuses. -/
def newChunk (fuel minData : ℕ) (reply : Option ℕ) : Option (Bool × Arena) :=
  let total := chunkTotal minData
  match reply with
  | none => some (false, h)
  | some ptr =>
    if h.Fresh ptr total then
      let size := wsub total CHUNK_HDR_SZ
      let h := { (h.setWord ptr h.gChunks).setWord (ptr + 8) size with
        gChunks := ptr
        given := (ptr, total) :: h.given }
      (h.addFree fuel (ptr + CHUNK_HDR_SZ) (wsub size BLK_HDR_SZ)).map fun h => (true, h)
    else none

/-- `find_chunk`, from the chunk `c` on. -/
def findChunk (b : ℕ) : ℕ → ℕ → Option ℕ
  | 0, _ => none
  | fuel + 1, c =>
    if c = 0 then some 0
    else if c + CHUNK_HDR_SZ ≤ b ∧ b < wadd (c + CHUNK_HDR_SZ) (h.word (c + 8)) then some c
    else findChunk b fuel (h.word c)

/-! ## The calls -/

/-- The loop of `malloc`: the first block that is large enough. -/
def takeFit (fuel size : ℕ) : Option (Option ℕ × Arena) :=
  (h.freeList.walk (fun b => h.blkSize b ≥ size) fuel 0).bind fun p =>
    let b := h.link p
    if b = 0 then some (none, h)
    else ((h.setLink p (h.word (b + 8))).splitBlock fuel b size).map fun h =>
      (some (blkData b), h.setWord b (h.blkSize b))

def malloc (fuel size : ℕ) (reply : Option ℕ) : Option (ℕ × Arena) :=
  if size = 0 then some (0, h)
  else do
    let size := roundUp size ALIGN
    match ← h.takeFit fuel size with
    | (some p, h) => some (p, h)
    | (none, h) =>
      match ← h.newChunk fuel size reply with
      | (false, h) => some (0, h)
      | (true, h) =>
        let (p, h) ← h.takeFit fuel size
        some (p.getD 0, h)

def coalesce : Arena :=
  let next := h.word (b + 8)
  if next ≠ 0 ∧ next = wadd (blkData b) (h.blkSize b) then
    (h.setWord b (freeBit (wadd (wadd (h.blkSize b) BLK_HDR_SZ) (h.blkSize next)))).setWord (b + 8) (h.word (next + 8))
  else h

/-- The block before `b` in the list takes it in, if they are adjacent. -/
def coalesceBack (p b : ℕ) : Arena :=
  if p ≠ 0 ∧ wadd (blkData p) (h.blkSize p) = b then
    (h.setWord p (freeBit (wadd (wadd (h.blkSize p) BLK_HDR_SZ) (h.blkSize b)))).setWord (p + 8) (h.word (b + 8))
  else h

def free (fuel ptr : ℕ) : Option Arena :=
  if ptr = 0 then some h
  else do
    let b := dataBlk ptr
    let h ← ((h.setWord b (freeBit (h.word b))).setWord (b + 8) 0).freeListInsert fuel b
    let h := h.coalesce b
    let p ← h.freeList.walk (fun cur => cur = b) fuel 0
    some (h.coalesceBack p b)

def calloc (fuel nmemb size : ℕ) (reply : Option ℕ) : Option (ℕ × Arena) :=
  if nmemb ≠ 0 ∧ size > (2 ^ 64 - 1) / nmemb then some (0, h)
  else do
    let total := wmul nmemb size
    let (ptr, h) ← h.malloc fuel total reply
    some (ptr, if ptr = 0 then h else { h with mem := store h.mem ptr (List.replicate total 0) })

/-- The bytes behind the block are taken for a free block that makes it large enough. -/
def canGrow (b chunk newSize : ℕ) : Bool :=
  let old := h.blkSize b
  let next := wadd (blkData b) old
  chunk ≠ 0 && wadd next BLK_HDR_SZ ≤ wadd (chunk + CHUNK_HDR_SZ) (h.word (chunk + 8)) && h.blkFree next &&
    wadd (wadd old BLK_HDR_SZ) (h.blkSize next) ≥ newSize

def growInPlace (fuel b newSize : ℕ) : Option Arena := do
  let old := h.blkSize b
  let next := wadd (blkData b) old
  let h ← h.freeListRemove fuel next
  let h := h.setWord b (wadd (wadd old BLK_HDR_SZ) (h.blkSize next))
  if wsub (h.blkSize b) newSize ≥ MIN_SPLIT then h.splitBlock fuel b newSize else some h

def realloc (fuel ptr size : ℕ) (reply : Option ℕ) : Option (ℕ × Arena) :=
  if ptr = 0 then h.malloc fuel size reply
  else if size = 0 then (h.free fuel ptr).map fun h => (0, h)
  else
    let b := dataBlk ptr
    let old := h.blkSize b
    let newSize := roundUp size ALIGN
    if old ≥ newSize then
      if wsub old newSize ≥ MIN_SPLIT then ((h.setWord b newSize).splitBlock fuel b newSize).map fun h => (ptr, h)
      else some (ptr, h)
    else do
      let chunk ← h.findChunk b fuel h.gChunks
      if h.canGrow b chunk newSize then (h.growInPlace fuel b newSize).map fun h => (ptr, h)
      else
        let (newPtr, h) ← h.malloc fuel newSize reply
        if newPtr = 0 then some (0, h)
        else (Arena.free { h with mem := store h.mem newPtr (load h.mem ptr old) } fuel ptr).map fun h => (newPtr, h)

/-- Where the data of an aligned block starts that is cut out of the block `b`. -/
def alignedData (alignment b : ℕ) : ℕ := roundUp (wadd (blkData b) BLK_HDR_SZ) alignment

def blkEnd : ℕ := wadd (blkData b) (h.blkSize b)

def carveLead (fuel b lead : ℕ) : Option Arena :=
  if lead ≥ MIN_SPLIT then h.addFree fuel b (wsub lead BLK_HDR_SZ) else some h

/-- The aligned block, and the rest up to `stop` as a free block, if it is large enough. -/
def carveTrail (fuel aligned stop size : ℕ) : Option Arena :=
  let ab := wsub aligned BLK_HDR_SZ
  let trail := wsub (wsub stop aligned) size
  if trail ≥ MIN_SPLIT then
    ((h.setWord ab size).addFree fuel (wadd aligned size) (wsub trail BLK_HDR_SZ)).map fun h => h.setWord (ab + 8) 0
  else some ((h.setWord ab (wsub stop aligned)).setWord (ab + 8) 0)

/-- The free block `b`, which is out of the list, is cut. -/
def carve (fuel alignment b size : ℕ) : Option Arena :=
  let aligned := alignedData alignment b
  let stop := h.blkEnd b
  (h.carveLead fuel b (wsub (wsub aligned BLK_HDR_SZ) (blkData b))).bind fun h => h.carveTrail fuel aligned stop size

/-- The loop of `aligned_alloc`. -/
def takeAligned (fuel alignment size : ℕ) : Option (Option ℕ × Arena) :=
  (h.freeList.walk (fun b => wadd (alignedData alignment b) size ≤ h.blkEnd b) fuel 0).bind fun p =>
    let b := h.link p
    if b = 0 then some (none, h)
    else ((h.setLink p (h.word (b + 8))).carve fuel alignment b size).map fun h => (some (alignedData alignment b), h)

/-- `aligned_alloc`, after the tests of the alignment: with a reply for each new chunk. -/
def alignedLoop (fuel alignment : ℕ) : List (Option ℕ) → ℕ → Arena → Option (ℕ × Arena)
  | replies, size, h => do
    let size := roundUp size ALIGN
    match ← h.takeAligned fuel alignment size with
    | (some p, h) => some (p, h)
    | (none, h) =>
      match replies with
      | [] => none
      | reply :: replies =>
        match ← h.newChunk fuel (wadd size alignment) reply with
        | (false, h) => some (0, h)
        | (true, h) => alignedLoop fuel alignment replies size h

def alignedAlloc (fuel alignment size : ℕ) (replies : List (Option ℕ)) : Option (ℕ × Arena) :=
  if alignment = 0 ∨ alignment &&& (alignment - 1) ≠ 0 then some (0, h)
  else if alignment ≤ ALIGN then h.malloc fuel size replies.head?.join
  else alignedLoop fuel alignment replies size h

end Arena

end Archis.Libc
