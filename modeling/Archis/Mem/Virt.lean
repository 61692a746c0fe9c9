/-
  The virtual allocator: `VirtMemConBlk` of `mem/virtual_allocator.rs`.

  The page tables and the choice of the address space are not part of this model.  A call that panics (an `assert!`, or a
  list node that `Region0` cannot supply where the code says `expect`) is `none`.
-/
import Archis.Mem.Blocks
import Archis.Lib.Run

namespace Archis.Mem

open Archis.Lib

def KERNEL_HALF_OFFSET : ℕ := 0xffff800000000000

def KERNEL_HALF_OFFSET_RAW : ℕ := 2 ^ 47

structure VirtMemConBlk where
  totalMemory : ℕ
  avlMemory : ℕ
  freeBlockList : List PageDescriptor
  allocBlockList : List PageDescriptor
  procId : ℕ
  deriving DecidableEq, Repr

namespace VirtMemConBlk

/-- `VirtMemConBlk::new`; `procId` is 0, and 1 in a test build. -/
def new (procId : ℕ) : VirtMemConBlk :=
  let totalMemory := 0x1ff * 2 ^ 39 - PAGE_SIZE
  { totalMemory
    avlMemory := totalMemory
    freeBlockList :=
      [.unmapped (ceilDiv (KERNEL_HALF_OFFSET_RAW - PAGE_SIZE) PAGE_SIZE) 0 PAGE_SIZE,
       .unmapped (ceilDiv (0x1ff * 2 ^ 39 - KERNEL_HALF_OFFSET_RAW) PAGE_SIZE) 0 KERNEL_HALF_OFFSET]
    allocBlockList := []
    procId }

/-- The block can serve a request for `pages` pages of user or kernel memory. -/
def fits (pages : ℕ) (isUser : Bool) (block : PageDescriptor) : Bool :=
  block.numPages ≥ pages && ((isUser && block.startVirtAddress < KERNEL_HALF_OFFSET) ||
      (!isUser && block.startVirtAddress ≥ KERNEL_HALF_OFFSET))

section
variable (self : VirtMemConBlk)

def findBestFit (slots pages : ℕ) (isUser : Bool) : Except KError (ℕ × VirtMemConBlk × ℕ) :=
  match bestFit (fits pages isUser) self.freeBlockList with
  | none => .error .outOfMemory
  | some (i, node) =>
    .ok (node.startVirtAddress, { self with freeBlockList := carve virtField self.freeBlockList i node pages },
      -- a block without pages left gives its node back
      if node.numPages = pages then slots + 1 else slots)

/-- `coalesce_block`.  Kernel and user blocks are kept separate. -/
def coalesceBlock (slots addr numPages : ℕ) : Option (VirtMemConBlk × ℕ) :=
  (coalesce virtField (· != KERNEL_HALF_OFFSET) slots self.freeBlockList addr numPages
    (.unmapped numPages 0 addr)).map fun (l, slots) => ({ self with freeBlockList := l }, slots)

def inBlock (virtAddr size : ℕ) (item : PageDescriptor) : Bool :=
  virtAddr ≥ item.startVirtAddress && wadd virtAddr size ≤ virtField.wstop item

/-- The part of `desc` below a range. -/
def topOf (desc : PageDescriptor) (virtAddr : ℕ) : PageDescriptor :=
  .unmapped (ceilDiv (wsub virtAddr desc.startVirtAddress) PAGE_SIZE) 0 desc.startVirtAddress

/-- The part of `desc` above a range. -/
def bottomOf (desc : PageDescriptor) (virtAddr size : ℕ) : PageDescriptor :=
  .unmapped (ceilDiv (wsub (wmul desc.numPages PAGE_SIZE)
    (wsub (wadd virtAddr size) desc.startVirtAddress)) PAGE_SIZE) 0 (wadd virtAddr size)

/-- One round of `for descriptor in [top, bottom]`. -/
def addPart (slots : ℕ) (l : List PageDescriptor) (d : PageDescriptor) : Option (List PageDescriptor × ℕ) :=
  if d.numPages ≠ 0 then addNode slots l d else some (l, slots)

/-- The list `l` without its block `desc` at index `i`, but with the parts of
    `desc` outside the range. -/
def cutOut (slots : ℕ) (l : List PageDescriptor) (i : ℕ) (desc : PageDescriptor)
    (virtAddr size : ℕ) : Option (List PageDescriptor × ℕ) := do
  let (l, slots) ← addPart (slots + 1) (l.eraseIdx i) (topOf desc virtAddr)
  addPart slots l (bottomOf desc virtAddr size)

/-- `reserve_virtual_space`.  It leaves `avl_memory` as it is. -/
def reserveVirtualSpace (slots virtAddr : ℕ) (layout : Layout) : Option (Except KError Unit × VirtMemConBlk × ℕ) :=
  let size := roundUp layout.size
  match locate (inBlock virtAddr size) self.freeBlockList with
  | none => some (.error .outOfMemory, self, slots)
  | some (i, desc) => do
    let (free, slots) ← cutOut slots self.freeBlockList i desc virtAddr size
    let (alloc, slots) ← addNode slots self.allocBlockList (.unmapped (ceilDiv size PAGE_SIZE) 0 virtAddr)
    return (.ok (), { self with freeBlockList := free, allocBlockList := alloc }, slots)

def allocate (slots : ℕ) (layout : Layout) (isUser : Bool) : Option (Except KError ℕ × VirtMemConBlk × ℕ) :=
  if layout.size ≥ self.avlMemory || layout.size > self.totalMemory then
    some (.error .outOfMemory, self, slots)
  else if layout.align > PAGE_SIZE then some (.error .invalidArgument, self, slots)
  else if self.procId == 0 && isUser then none
  else
    let numPages := ceilDiv layout.size PAGE_SIZE
    match self.findBestFit slots numPages isUser with
    | .error e => some (.error e, self, slots)
    | .ok (virtAddr, self, slots) => do
      let flags := if isUser then PageDescriptor.USER else 0
      let (alloc, slots) ← addNode slots self.allocBlockList ⟨numPages, 0, virtAddr, flags, false⟩
      return (.ok virtAddr, { self with
        avlMemory := wsub self.avlMemory (wmul numPages PAGE_SIZE), allocBlockList := alloc }, slots)

def deallocate (slots addr : ℕ) (layout : Layout) : Option (Except KError Unit × VirtMemConBlk × ℕ) :=
  if layout.align > PAGE_SIZE then some (.error .invalidArgument, self, slots)
  else
    let numPages := ceilDiv layout.size PAGE_SIZE
    match locate (fun blk => blk.startVirtAddress == addr && blk.numPages == numPages)
        self.allocBlockList with
    | none => some (.error .invalidArgument, self, slots)
    | some (i, blk) =>
      if blk.isMapped then some (.error .invalidArgument, self, slots)
      else do
        let (self, slots) ← coalesceBlock { self with allocBlockList := self.allocBlockList.eraseIdx i }
          (slots + 1) addr numPages
        return (.ok (), { self with avlMemory := wadd self.avlMemory (wmul numPages PAGE_SIZE) }, slots)

/-- `map_memory` (`skip_map` only concerns the page tables). -/
def mapMemory (slots physAddr virtAddr size : ℕ) (flags : UInt8) : Option (Except KError Unit × VirtMemConBlk × ℕ) :=
  let size := roundUp size
  let isUser := flags &&& PageDescriptor.USER != 0
  if physAddr % PAGE_SIZE ≠ 0 || virtAddr % PAGE_SIZE ≠ 0 then
    some (.error .invalidArgument, self, slots)
  else if self.procId == 0 && isUser then none
  else if self.procId != 0 && !isUser then some (.ok (), self, slots)
  else
    match locate (fun item => inBlock virtAddr size item && !item.isMapped) self.allocBlockList with
    | none => some (.error .invalidArgument, self, slots)
    | some (i, desc) => do
      let (alloc, slots) ← cutOut slots self.allocBlockList i desc virtAddr size
      let (alloc, slots) ← addNode slots alloc ⟨ceilDiv size PAGE_SIZE, physAddr, virtAddr, flags, true⟩
      return (.ok (), { self with allocBlockList := alloc }, slots)

/-- `unmap_memory`; a null reply stands for pages that the kernel space accounts for. -/
def unmapMemory (slots virtAddr size : ℕ) (isUser : Bool) : Option (Except KError ℕ × VirtMemConBlk × ℕ) :=
  let numPages := ceilDiv (roundUp size) PAGE_SIZE
  if virtAddr % PAGE_SIZE ≠ 0 then some (.error .invalidArgument, self, slots)
  else if self.procId != 0 && !isUser then some (.ok 0, self, slots)
  else
    match locate (fun item => item.startVirtAddress == virtAddr && item.numPages == numPages &&
        item.isMapped) self.allocBlockList with
    | none => some (.error .invalidArgument, self, slots)
    | some (i, desc) => some (.ok desc.startPhyAddress, { self with
        allocBlockList := self.allocBlockList.set i { desc with isMapped := false, startPhyAddress := 0 } },
        slots)

end

/-! ## Cloning an address space -/

def pageLayout : Layout := ⟨PAGE_SIZE, PAGE_SIZE, by decide⟩

/-- `get_page_reserve` on the kernel address space, with `n` pages still to allocate. -/
def getPageReserve (kern : VirtMemConBlk) (slots : ℕ) : ℕ → Option (Except KError (List ℕ) × VirtMemConBlk × ℕ)
  | 0 => some (.ok [], kern, slots)
  | n + 1 => do
    let (r, kern, slots) ← kern.allocate slots pageLayout false
    match r with
    | .error e => return (.error e, kern, slots)
    | .ok page =>
      let (r, kern, slots) ← getPageReserve kern slots n
      return (r.map (page :: ·), kern, slots)

/-- `remove_page_reserve`; the code expects every page to be deallocated. -/
def removePageReserve (kern : VirtMemConBlk) (slots : ℕ) : List ℕ → Option (VirtMemConBlk × ℕ)
  | [] => some (kern, slots)
  | page :: pages => do
    let (r, kern, slots) ← kern.deallocate slots page pageLayout
    match r with
    | .error _ => none
    | .ok () => removePageReserve kern slots pages

/-- `clone`: the child and the parent; `spaces` is the number of nodes for the list of address spaces. -/
def clone (parent : VirtMemConBlk) (slots spaces procId : ℕ) :
    Option (Except KError VirtMemConBlk × VirtMemConBlk × ℕ) :=
  let freeList := parent.freeBlockList.filter (·.startVirtAddress < KERNEL_HALF_OFFSET)
  let copied := freeList.length + parent.allocBlockList.length
  if parent.procId ≠ 0 ∨ slots < copied then none
  else do
    let (reserve, parent', slots) ← parent.getPageReserve (slots - copied) 4
    match reserve with
    | .error e => return (.error e, parent', slots + copied)
    | .ok pageReserve =>
      let (parent', slots) ← parent'.removePageReserve slots pageReserve
      if spaces = 0 then return (.error .outOfMemory, parent', slots + copied)
      else return (.ok {
        totalMemory := parent.totalMemory
        avlMemory := freeList.foldl (fun avl blk => wadd avl (wmul blk.numPages PAGE_SIZE)) 0
        freeBlockList := freeList
        allocBlockList := []
        procId }, parent', slots + parent.allocBlockList.length)

/-! ## Runs -/

inductive Call where
  | allocate (layout : Layout) (isUser : Bool)
  | reserveVirtualSpace (virtAddr : ℕ) (layout : Layout)
  | mapMemory (physAddr virtAddr size : ℕ) (flags : UInt8)
  | unmapMemory (virtAddr size : ℕ) (isUser : Bool)
  | deallocate (addr : ℕ) (layout : Layout)

/-- One call, with the number of nodes it finds in `Region0`. -/
def step (s : VirtMemConBlk) : ℕ × Call → Option VirtMemConBlk
  | (slots, .allocate layout isUser) => (s.allocate slots layout isUser).map (·.2.1)
  | (slots, .reserveVirtualSpace virtAddr layout) =>
    (s.reserveVirtualSpace slots virtAddr layout).map (·.2.1)
  | (slots, .mapMemory physAddr virtAddr size flags) =>
    (s.mapMemory slots physAddr virtAddr size flags).map (·.2.1)
  | (slots, .unmapMemory virtAddr size isUser) =>
    (s.unmapMemory slots virtAddr size isUser).map (·.2.1)
  | (slots, .deallocate addr layout) => (s.deallocate slots addr layout).map (·.2.1)

end VirtMemConBlk

end Archis.Mem
