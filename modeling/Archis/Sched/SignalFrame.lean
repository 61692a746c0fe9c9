/-
  `init_signal_handler` of `sched/scheduler.rs`: the frame on which a user program's signal handler starts.

  The frame goes below the page boundary under the program's stack pointer, which is whatever the program has put there.
  `initSignalHandler_iff`: it is built exactly if the page under that boundary is user memory and the kernel has room to
  map it.  Everything else panics.
-/
import Archis.Mem.MapKernel

namespace Archis.Sched

open Archis.Lib Archis.Mem
open VirtMemConBlk (cover₀_le_one fits kernelEnd kernelEnd_lt new_bounded new_cover range)
open List hiding get modify set

/-! ## The state -/

/-- `CPUContext`: what is saved of a thread. -/
structure CPUContext where
  pad : UInt64 := 0
  r15 : UInt64 := 0
  r14 : UInt64 := 0
  r13 : UInt64 := 0
  r12 : UInt64 := 0
  r11 : UInt64 := 0
  r10 : UInt64 := 0
  r9 : UInt64 := 0
  r8 : UInt64 := 0
  rbp : UInt64 := 0
  rdi : UInt64 := 0
  rsi : UInt64 := 0
  rdx : UInt64 := 0
  rcx : UInt64 := 0
  rbx : UInt64 := 0
  rax : UInt64 := 0
  vector : UInt64 := 0
  rip : UInt64 := 0
  cs : UInt64 := 0
  rflags : UInt64 := 0
  rsp : UInt64 := 0
  ss : UInt64 := 0

/-- `size_of::<CPUContext>()`. -/
def contextSize : ℕ := 22 * 8

def MAX_SIGNALS : ℕ := 6

structure SignalFrame where
  isInSyscall : Bool := false
  syscallGs : UInt64 := 0
  syscallRsp : UInt64 := 0
  handler : UInt64
  userCtx : UInt64
  context : ℕ := 0
  mappedBase : ℕ := 0
  kernelStackBase : ℕ := 0
  perCpuBase : UInt64 := 0

/-- The fields of `Task` that the delivery of a signal uses. -/
structure Task where
  isInSyscall : Bool
  syscallGs : UInt64
  syscallRsp : UInt64
  context : ℕ
  inSignalInit : UInt8
  pendingSignals : UInt8
  signalFramePending : List (Option SignalFrame)
  signalFrameInit : List (Option SignalFrame)
  perCpuBase : UInt64

/-- What `init_signal_handler` works on. -/
structure Core where
  /-- The address space of the task is the active one. -/
  mem : MemState
  task : Task
  /-- `fetch_context()` -/
  cpuContext : ℕ
  /-- `get_per_cpu_base()` -/
  cpuBase : UInt64
  /-- `INIT_RFLAGS` -/
  initRflags : UInt64
  /-- The contexts in kernel memory, by address. -/
  contexts : ℕ → CPUContext
  /-- The other words in kernel memory, by address. -/
  words : ℕ → UInt64
  /-- The kernel addresses that have been written: start and length. -/
  written : List (ℕ × ℕ)

abbrev CoreM := EStateM Fault Core

/-! ## The code -/

/-- `unwrap` and `expect`. -/
def expect {α : Type} (o : Option α) : CoreM α :=
  match o with
  | none => throw .panic
  | some a => pure a

/-- `assert!`. -/
def check (b : Bool) : CoreM Unit := if b then pure () else throw .panic

/-- A call of `virtual_allocator.rs` that is expected to succeed. -/
def expectMem {α : Type} (x : MemM α) : CoreM α := fun s =>
  match x s.mem with
  | .ok a mem => .ok a { s with mem }
  | .error _ mem => .error .panic { s with mem }

/-- `align_down`, for a power of two. -/
def alignDown (a alignment : ℕ) : ℕ := a / alignment * alignment

/-- `get_highest_set_bit`; `none` is -1. -/
def getHighestSetBit (r : UInt8) : Option ℕ := if r = 0 then none else some (Nat.log2 r.toNat)

def frameAt (frames : List (Option SignalFrame)) (signal : ℕ) : Option SignalFrame := (frames[signal]?).join

namespace Task

variable (task : Task)

/-- A field of the signal handler that runs, or else of the task itself. -/
def current {α : Type} (own : α) (ofFrame : SignalFrame → α) : Option α :=
  match getHighestSetBit task.pendingSignals with
  | none => some own
  | some signal => (frameAt task.signalFramePending signal).map ofFrame

/-- `is_in_syscall`. -/
def inSyscall? : Option Bool := task.current task.isInSyscall (·.isInSyscall)

def syscallGs? : Option UInt64 := task.current task.syscallGs (·.syscallGs)

def syscallRsp? : Option UInt64 := task.current task.syscallRsp (·.syscallRsp)

end Task

namespace Core

def getTaskContext (s : Core) (newSchedule : Bool) : Option (ℕ × UInt64) :=
  if !newSchedule then some (s.cpuContext, s.cpuBase)
  else s.task.current (s.task.context, s.task.perCpuBase) fun f => (f.context, f.perCpuBase)

def isUserContext (s : Core) (context : ℕ) : Bool := (s.contexts context).cs &&& 3 == 3

def getUserStack (s : Core) (context : ℕ) : UInt64 := (s.contexts context).rsp

/-- `get_physical_address` for user memory. -/
def getPhysicalAddress (s : Core) (virtAddr : ℕ) : Option ℕ :=
  if s.mem.addrSpaceInit then Process.getPhysAddress s.mem.active.allocBlockList virtAddr
  else some virtAddr

/-- The context and, above it, the word for the handler are put below `stackBase`. -/
def putFrame (stackBase actualBase : ℕ) (context : CPUContext) (userCtx : UInt64) : CoreM ℕ := do
  check (stackBase % 16 == 0)
  check (actualBase % 16 == 0)
  let sp := wsub stackBase (contextSize + 2 * 8)
  let slot := wsub stackBase 8
  modify fun s => { s with
    contexts := Function.update s.contexts sp context
    words := Function.update s.words slot userCtx
    written := s.written ++ [(sp, contextSize), (slot, 8)] }
  pure sp

def createContextFrom (handler : UInt64) (stackBase actualBase context : ℕ) (userCtx : UInt64) : CoreM ℕ := do
  let s ← get
  putFrame stackBase actualBase { s.contexts context with rip := handler, rsp := .ofNat actualBase, rbp := 0 } userCtx

def createUserContext (handler : UInt64) (stackBase actualBase : ℕ) (userCtx : UInt64) : CoreM ℕ := do
  let s ← get
  putFrame stackBase actualBase
    { rip := handler, rsp := .ofNat actualBase, cs := 0x23, ss := 0x1b, rflags := s.initRflags } userCtx

/-- The frame of a thread that is in user mode, or in a system call. -/
def createFrame (frame : SignalFrame) (isUser : Bool) (stackBase actualBase taskContext : ℕ) : CoreM ℕ :=
  if isUser then createContextFrom frame.handler stackBase actualBase taskContext frame.userCtx
  else createUserContext frame.handler stackBase actualBase frame.userCtx

def saveTaskContext : CoreM Unit := do
  let s ← get
  match getHighestSetBit s.task.pendingSignals with
  | none => set { s with task := { s.task with context := s.cpuContext, perCpuBase := s.cpuBase } }
  | some signal =>
    let frame ← expect (frameAt s.task.signalFramePending signal)
    let frame := { frame with context := s.cpuContext, perCpuBase := s.cpuBase }
    set { s with task := { s.task with
      signalFramePending := s.task.signalFramePending.set signal (some frame) } }

/-- The context is already saved in the handler or the task, if the thread is about to be scheduled. -/
def saveIfRunning (newSchedule : Bool) : CoreM Unit := if newSchedule then pure () else saveTaskContext

/-- The stack pointer and the base of the program, if the thread comes from user mode or performs a system call.
-/
def userStack (s : Core) (taskContext : ℕ) (taskPerCpuBase : UInt64) : Option (Option (UInt64 × UInt64)) :=
  if s.isUserContext taskContext then some (some (s.getUserStack taskContext, taskPerCpuBase))
  else do
    if ← s.task.inSyscall? then
      return some (← s.task.syscallRsp?, ← s.task.syscallGs?)
    else return none

/-- The frame is built on the user's stack, and moves from `signal_frame_init` to
`signal_frame_pending`. -/
def buildFrame (signal taskContext : ℕ) (isUser : Bool) (userRsp perCpuBase : UInt64) : CoreM Unit := do
  let s ← get
  let contextBase := alignDown userRsp.toNat PAGE_SIZE
  let mappedBase := wsub contextBase PAGE_SIZE
  let physAddr ← expect (s.getPhysicalAddress mappedBase)
  let mappedBaseKernel ← expectMem (MemState.mapToKernel physAddr (PAGE_SIZE * 2))
  let mappedContextBase := wadd mappedBaseKernel PAGE_SIZE
  let frame ← expect (frameAt s.task.signalFrameInit signal)
  let context ← createFrame frame isUser mappedContextBase contextBase taskContext
  let frame := { frame with context, perCpuBase, mappedBase := mappedBaseKernel,
                            kernelStackBase := alignDown taskContext 16 }
  check (frameAt s.task.signalFramePending signal).isNone
  modify fun s => { s with task := { s.task with
    signalFramePending := s.task.signalFramePending.set signal (some frame)
    signalFrameInit := s.task.signalFrameInit.set signal none } }

def initSignalHandler (signal : ℕ) (newSchedule : Bool) : CoreM Bool := do
  let s ← get
  let (taskContext, taskPerCpuBase) ← expect (s.getTaskContext newSchedule)
  match ← expect (s.userStack taskContext taskPerCpuBase) with
  | none => pure false
  | some (userRsp, perCpuBase) => do
    buildFrame signal taskContext (s.isUserContext taskContext) userRsp perCpuBase
    saveIfRunning newSchedule
    modify fun s => { s with task := { s.task with
      inSignalInit := s.task.inSignalInit &&& ~~~((1 : UInt8) <<< .ofNat signal)
      pendingSignals := s.task.pendingSignals ||| (1 : UInt8) <<< .ofNat signal } }
    pure true

/-! ## What can be delivered -/

variable {s t : Core} {signal : ℕ} {newSchedule : Bool} {p : VirtMemConBlk}

/-- The stack pointer of the program, if the thread has been in user mode. -/
def userRsp (s : Core) (newSchedule : Bool) : Option UInt64 :=
  (s.getTaskContext newSchedule).bind fun c => ((s.userStack c.1 c.2).join).map Prod.fst

/-- The frame waits in `signal_frame_init`, the handler that runs has one in `signal_frame_pending`, and the
active address space has page-aligned user blocks. -/
structure Ready (s : Core) (signal : ℕ) (p : VirtMemConBlk) : Prop where
  tiles : s.mem.KernelTiles
  init : s.mem.addrSpaceInit = true
  process : s.mem.process = some p
  user : ∀ d ∈ p.allocBlockList, d.isMapped = true → userMapped d = true ∧ PAGE_SIZE ∣ d.startPhyAddress
  frame : (frameAt s.task.signalFrameInit signal).isSome = true
  fresh : (frameAt s.task.signalFramePending signal).isSome = false
  running : ∀ i, getHighestSetBit s.task.pendingSignals = some i → (frameAt s.task.signalFramePending i).isSome = true

/-- The page below the page boundary under the stack pointer is user memory. -/
def PageBelow (p : VirtMemConBlk) (rsp : ℕ) : Prop :=
  PAGE_SIZE ≤ rsp ∧ ∃ d ∈ p.allocBlockList, userMapped d = true ∧ alignDown rsp PAGE_SIZE - PAGE_SIZE ∈ range d

def frameLayout : Layout := ⟨PAGE_SIZE * 2, PAGE_SIZE, by decide⟩

theorem pageAligned_frame : Process.pageAligned (PAGE_SIZE * 2) = some frameLayout := rfl

/-- The signal can wait, or there is a place for its frame. -/
def CanDeliver (s : Core) (newSchedule : Bool) (p : VirtMemConBlk) : Prop :=
  ∀ rsp, s.userRsp newSchedule = some rsp → PageBelow p rsp.toNat ∧ s.mem.KernelRoom frameLayout

def ByteAt (vcb : VirtMemConBlk) (ok : PageDescriptor → Bool) (addr phys : ℕ) : Prop :=
  ∃ d ∈ vcb.allocBlockList, ok d = true ∧ addr ∈ range d ∧ phys = wadd d.startPhyAddress (addr - d.startVirtAddress)

/-- Everything that has been written since `s` is user memory of the process below the stack pointer. -/
def FrameBelow (s t : Core) (p : VirtMemConBlk) (rsp : ℕ) : Prop :=
  ∃ w, t.written = s.written ++ w ∧ ∀ x ∈ w, ∀ i < x.2, ∃ addr phys, addr < rsp ∧
    ByteAt p userMapped addr phys ∧ ByteAt t.mem.kernel (·.isMapped) (x.1 + i) phys

/-- The handler starts on a frame in user memory, or nothing is done yet. -/
def Delivered (s : Core) (newSchedule : Bool) (p : VirtMemConBlk) : EStateM.Result Fault Core Bool → Prop
  | .ok true t => ∃ rsp, s.userRsp newSchedule = some rsp ∧ FrameBelow s t p rsp.toNat
  | .ok false t => t = s
  | .error _ _ => False

/-! ## The stack -/

theorem alignDown_le (a n : ℕ) : alignDown a n ≤ a := Nat.div_mul_le_self a n

variable {d : PageDescriptor} {actualBase i j stackBase virtAddr : ℕ} {rsp : UInt64}

theorem page_subset {a : ℕ} (hd : PAGE_SIZE ∣ d.startVirtAddress) (ha : PAGE_SIZE ∣ a)
    (h : a ∈ range d) (hi : i < PAGE_SIZE) : a + i ∈ range d := by
  obtain ⟨h1, h2⟩ := h
  refine ⟨h1.trans (Nat.le_add_right _ _), ?_⟩
  simp only [AddrField.stop, virtField_get] at h2 ⊢
  obtain ⟨x, hx⟩ := hd
  obtain ⟨y, rfl⟩ := ha
  rw [hx, ← Nat.mul_comm PAGE_SIZE d.numPages, ← Nat.mul_add] at h2 ⊢
  have hlt := Nat.lt_of_mul_lt_mul_left h2
  calc PAGE_SIZE * y + i < PAGE_SIZE * y + PAGE_SIZE := Nat.add_lt_add_left hi _
    _ = PAGE_SIZE * (y + 1) := by rw [Nat.mul_add, Nat.mul_one]
    _ ≤ PAGE_SIZE * (x + d.numPages) := Nat.mul_le_mul_left _ hlt

theorem getPhysicalAddress_eq_some (h : s.Ready signal p) {phys : ℕ}
    (hp : s.getPhysicalAddress (wsub (alignDown rsp.toNat PAGE_SIZE) PAGE_SIZE) = some phys) :
    PAGE_SIZE ∣ phys ∧ PAGE_SIZE ≤ rsp.toNat ∧ ∃ d ∈ p.allocBlockList, userMapped d = true ∧
      alignDown rsp.toNat PAGE_SIZE - PAGE_SIZE ∈ range d ∧
      phys = wadd d.startPhyAddress (alignDown rsp.toNat PAGE_SIZE - PAGE_SIZE - d.startVirtAddress) := by
  have hact : s.mem.active = p := by rw [MemState.active, h.process]; rfl
  rw [getPhysicalAddress, if_pos h.init, hact, Process.getPhysAddress, Option.map_eq_some_iff] at hp
  obtain ⟨d, hfind, rfl⟩ := hp
  have hmem := mem_of_find?_eq_some hfind
  have hd := find?_some hfind
  simp only [Bool.and_eq_true, decide_eq_true_eq, gt_iff_lt] at hd
  obtain ⟨⟨h1, h2⟩, h3⟩ := hd
  obtain ⟨huser, hphy⟩ := h.user d hmem h3
  obtain ⟨hvirt, hstop⟩ := (h.tiles.process p h.process).1.alloc d hmem
  have hend : kernelEnd + PAGE_SIZE ≤ 2 ^ 64 := by decide
  rw [AddrField.wstop_eq (by simp only [PAGE_SIZE] at hend; omega)] at h2
  have hrsp := rsp.toNat_lt
  have hle := alignDown_le rsp.toNat PAGE_SIZE
  -- below the first page the subtraction wraps around, to a page that is in no block
  have hpage : PAGE_SIZE ≤ alignDown rsp.toNat PAGE_SIZE := by
    by_contra hlt
    have hw : wsub (alignDown rsp.toNat PAGE_SIZE) PAGE_SIZE =
        alignDown rsp.toNat PAGE_SIZE + 2 ^ 64 - PAGE_SIZE := by
      unfold wsub
      exact Nat.mod_eq_of_lt (by omega)
    omega
  have hdvd : PAGE_SIZE ∣ alignDown rsp.toNat PAGE_SIZE - PAGE_SIZE := Nat.dvd_sub (Nat.dvd_mul_left _ _) dvd_rfl
  rw [wsub_eq hpage (by omega)] at h1 h2 ⊢
  generalize alignDown rsp.toNat PAGE_SIZE - PAGE_SIZE = a at h1 h2 hdvd ⊢
  have heq : wsub (wadd d.startPhyAddress a) d.startVirtAddress =
      wadd d.startPhyAddress (a - d.startVirtAddress) := by
    unfold wsub wadd
    omega
  rw [heq]
  refine ⟨?_, hpage.trans hle, d, hmem, huser, ⟨h1, h2⟩, rfl⟩
  exact (Nat.dvd_mod_iff (by decide)).2 (dvd_add hphy (Nat.dvd_sub hdvd hvirt))

/-- `get_physical_address` finds the page below the boundary, exactly if it is there. -/
theorem getPhysicalAddress_isSome (h : s.Ready signal p) (hp : PageBelow p rsp.toNat) :
    (s.getPhysicalAddress (wsub (alignDown rsp.toNat PAGE_SIZE) PAGE_SIZE)).isSome = true := by
  obtain ⟨hpage, d, hmem, huser, h1, h2⟩ := hp
  have hact : s.mem.active = p := by rw [MemState.active, h.process]; rfl
  have hle : PAGE_SIZE ≤ alignDown rsp.toNat PAGE_SIZE := by
    simp only [alignDown, PAGE_SIZE] at hpage ⊢
    omega
  have hrsp := rsp.toNat_lt
  have hle' := alignDown_le rsp.toNat PAGE_SIZE
  obtain ⟨-, hstop⟩ := (h.tiles.process p h.process).1.alloc d hmem
  have hend := kernelEnd_lt
  rw [getPhysicalAddress, if_pos h.init, hact, Process.getPhysAddress, Option.isSome_map, find?_isSome]
  refine ⟨d, hmem, ?_⟩
  rw [wsub_eq hle (by omega), AddrField.wstop_eq (by omega)]
  simp only [userMapped, Bool.and_eq_true] at huser
  simp [h1, h2, huser.1]

/-! ## The frame -/

/-- What building a frame at `stackBase` changes. -/
structure Put (s t : Core) (stackBase : ℕ) : Prop where
  mem : t.mem = s.mem
  task : t.task = s.task
  written : t.written = s.written ++ [(wsub stackBase (contextSize + 2 * 8), contextSize), (wsub stackBase 8, 8)]

theorem putFrame_ok (h1 : 16 ∣ stackBase) (h2 : 16 ∣ actualBase) (context : CPUContext)
    (userCtx : UInt64) : ∃ sp t, putFrame stackBase actualBase context userCtx s = .ok sp t ∧ s.Put t stackBase := by
  unfold putFrame
  rw [Nat.mod_eq_zero_of_dvd h1, Nat.mod_eq_zero_of_dvd h2]
  exact ⟨_, _, rfl, rfl, rfl, rfl⟩

theorem createFrame_ok (h1 : 16 ∣ stackBase) (h2 : 16 ∣ actualBase)
    (frame : SignalFrame) (isUser : Bool) (taskContext : ℕ) :
    ∃ sp t, createFrame frame isUser stackBase actualBase taskContext s = .ok sp t ∧ s.Put t stackBase := by
  unfold createFrame createContextFrom createUserContext
  cases isUser
  · exact putFrame_ok h1 h2 _ _
  · exact putFrame_ok h1 h2 _ _

/-- A byte of the page below the boundary, seen from the kernel and from the process. -/
theorem byteAt_page {kernel : VirtMemConBlk} {base : ℕ}
    (hmem : d ∈ p.allocBlockList) (huser : userMapped d = true) (hd : PAGE_SIZE ∣ d.startVirtAddress)
    (hbase : PAGE_SIZE ∣ base) (hin : base ∈ range d)
    (hblock : ⟨ceilDiv frameLayout.size PAGE_SIZE, wadd d.startPhyAddress (base - d.startVirtAddress), virtAddr,
      PageDescriptor.VIRTUAL, true⟩ ∈ kernel.allocBlockList) (hj : j < PAGE_SIZE) :
    ∃ phys, ByteAt p userMapped (base + j) phys ∧ ByteAt kernel (·.isMapped) (virtAddr + j) phys := by
  refine ⟨_, ⟨d, hmem, huser, page_subset hd hbase hin hj, rfl⟩, ⟨_, hblock, rfl, ?_, ?_⟩⟩
  · refine ⟨Nat.le_add_right _ _, Nat.add_lt_add_left (hj.trans_le ?_) _⟩
    change PAGE_SIZE ≤ ceilDiv frameLayout.size PAGE_SIZE * PAGE_SIZE
    decide
  have h1 := hin.1
  simp only [Nat.add_sub_cancel_left]
  rw [Nat.sub_add_comm h1]
  unfold wadd
  rw [Nat.mod_add_mod, Nat.add_assoc]

/-- **The frame lies in the page below the boundary.** -/
theorem frameBelow {u : Core} {rsp : ℕ} (h : s.Ready signal p) (hpage : PAGE_SIZE ≤ rsp)
    (hmem : d ∈ p.allocBlockList) (huser : userMapped d = true) (hin : alignDown rsp PAGE_SIZE - PAGE_SIZE ∈ range d)
    (hmap : s.mem.Mapped u.mem
      (wadd d.startPhyAddress (alignDown rsp PAGE_SIZE - PAGE_SIZE - d.startVirtAddress)) frameLayout virtAddr)
    (hu : u.written = s.written) (hput : u.Put t (wadd virtAddr PAGE_SIZE)) : FrameBelow s t p rsp := by
  have hle := alignDown_le rsp PAGE_SIZE
  have hge : PAGE_SIZE ≤ alignDown rsp PAGE_SIZE := by
    simp only [alignDown, PAGE_SIZE] at hpage ⊢
    omega
  have hdvd : PAGE_SIZE ∣ alignDown rsp PAGE_SIZE := Nat.dvd_mul_left _ _
  have hend := kernelEnd_lt
  have htop := hmap.le
  have hstack : wadd virtAddr PAGE_SIZE = virtAddr + PAGE_SIZE := by
    refine wadd_eq ?_
    have : PAGE_SIZE ≤ ceilDiv frameLayout.size PAGE_SIZE * PAGE_SIZE := by decide
    omega
  have hlt : virtAddr + PAGE_SIZE < 2 ^ 64 := by rw [← hstack]; exact wadd_lt _ _
  have hbytes : ∀ j < PAGE_SIZE, ∃ addr phys, addr < rsp ∧ ByteAt p userMapped addr phys ∧
      ByteAt t.mem.kernel (·.isMapped) (virtAddr + j) phys := by
    intro j hj
    obtain ⟨phys, h1, h2⟩ := byteAt_page hmem huser ((h.tiles.process p h.process).1.alloc d hmem).1
      (Nat.dvd_sub hdvd dvd_rfl) hin hmap.block hj
    exact ⟨_, phys, by omega, h1, by rw [hput.mem]; exact h2⟩
  refine ⟨_, by rw [hput.written, hu], fun x hx i hi => ?_⟩
  have hsize : contextSize + 2 * 8 ≤ PAGE_SIZE := by decide
  rw [hstack] at hx
  simp only [mem_cons, not_mem_nil, or_false] at hx
  rcases hx with rfl | rfl
  · obtain ⟨addr, phys, h1, h2, h3⟩ := hbytes (PAGE_SIZE - (contextSize + 2 * 8) + i) (by simp only at hi; omega)
    refine ⟨addr, phys, h1, h2, ?_⟩
    rw [wsub_eq (by omega) hlt]
    convert h3 using 1
    omega
  · obtain ⟨addr, phys, h1, h2, h3⟩ := hbytes (PAGE_SIZE - 8 + i) (by simp only at hi; omega)
    refine ⟨addr, phys, h1, h2, ?_⟩
    rw [wsub_eq (by omega) hlt]
    convert h3 using 1
    omega

theorem frameAt_set {l : List (Option SignalFrame)} {f : SignalFrame}
    (h : (frameAt l i).isSome = true) : (frameAt (l.set j (some f)) i).isSome = true := by
  unfold frameAt at h ⊢
  rw [getElem?_set]
  split_ifs with hij hlt
  · rfl
  · rw [hij] at hlt
    rw [getElem?_eq_none (not_lt.1 hlt)] at h
    cases h
  · exact h

section
variable {rsp : UInt64} (taskContext : ℕ) (isUser : Bool) (perCpuBase : UInt64) (h : s.Ready signal p)
include h

theorem buildFrame_eq {virtAddr phys : ℕ} {mem : MemState} {frame : SignalFrame}
    (hframe : frameAt s.task.signalFrameInit signal = some frame)
    (hphys : s.getPhysicalAddress (wsub (alignDown rsp.toNat PAGE_SIZE) PAGE_SIZE) = some phys)
    (hmap : MemState.mapToKernel phys (PAGE_SIZE * 2) s.mem = .ok virtAddr mem) {sp : ℕ} {t : Core}
    (hput : createFrame frame isUser (wadd virtAddr PAGE_SIZE) (alignDown rsp.toNat PAGE_SIZE) taskContext
      { s with mem } = .ok sp t) :
    ∃ f, buildFrame signal taskContext isUser rsp perCpuBase s = .ok () { t with
      task := { t.task with
        signalFramePending := t.task.signalFramePending.set signal (some f)
        signalFrameInit := t.task.signalFrameInit.set signal none } } := by
  have hmem : expectMem (MemState.mapToKernel phys (PAGE_SIZE * 2)) s = .ok virtAddr { s with mem } := by
    simp only [expectMem, hmap]
  have hfresh : (frameAt s.task.signalFramePending signal).isNone = true := by
    simpa [Option.not_isSome] using h.fresh
  simp only [buildFrame, bind, EStateM.bind, get_ok, hphys, expect, pure,
    EStateM.pure, hmem, hframe, hput, check, hfresh, if_true]
  exact ⟨_, rfl⟩

/-- **The frame is built** where there is a place for it. -/
theorem buildFrame_ok (hpage : PageBelow p rsp.toNat) (hroom : s.mem.KernelRoom frameLayout) :
    ∃ t, buildFrame signal taskContext isUser rsp perCpuBase s = .ok () t ∧ FrameBelow s t p rsp.toNat ∧
      ∀ i, getHighestSetBit t.task.pendingSignals = some i → (frameAt t.task.signalFramePending i).isSome = true := by
  obtain ⟨phys, hphys⟩ := Option.isSome_iff_exists.1 (getPhysicalAddress_isSome h hpage)
  obtain ⟨hdvd, hrsp, d, hmem, huser, hin, rfl⟩ := getPhysicalAddress_eq_some h hphys
  obtain ⟨frame, hframe⟩ := Option.isSome_iff_exists.1 h.frame
  obtain ⟨virtAddr, mem, hmap, hmapped⟩ := MemState.mapToKernel_of_room h.tiles h.init h.process
    pageAligned_frame (by decide) hdvd hroom
  have h16 : 16 ∣ PAGE_SIZE := by decide
  obtain ⟨sp, t, hput, hstate⟩ := createFrame_ok (s := { s with mem })
    ((Nat.dvd_mod_iff (by decide)).2 (dvd_add (h16.trans hmapped.aligned) h16) : 16 ∣ wadd virtAddr PAGE_SIZE)
    (h16.trans (Nat.dvd_mul_left _ _) : 16 ∣ alignDown rsp.toNat PAGE_SIZE) frame isUser taskContext
  obtain ⟨f, hrun⟩ := buildFrame_eq taskContext isUser perCpuBase h hframe hphys hmap hput
  refine ⟨_, hrun, ?_, ?_⟩
  · obtain ⟨w, hw⟩ := frameBelow (u := { s with mem }) h hrsp hmem huser hin hmapped rfl hstate
    exact ⟨w, hw⟩
  · intro i hi
    have htask : t.task = s.task := hstate.task
    simp only [htask] at hi ⊢
    exact frameAt_set (h.running i hi)

theorem buildFrame_error (hno : ¬ (PageBelow p rsp.toNat ∧ s.mem.KernelRoom frameLayout)) :
    ∃ f t, buildFrame signal taskContext isUser rsp perCpuBase s = .error f t := by
  cases hphys : s.getPhysicalAddress (wsub (alignDown rsp.toNat PAGE_SIZE) PAGE_SIZE) with
  | none =>
    simp only [buildFrame, bind, EStateM.bind, get_ok, hphys, expect]
    exact ⟨_, _, rfl⟩
  | some phys =>
    -- the page is there, so that the kernel has no room
    obtain ⟨hdvd, hrsp, d, hmem, huser, hin, -⟩ := getPhysicalAddress_eq_some h hphys
    obtain ⟨f, mem, hmap⟩ := MemState.mapToKernel_of_no_room h.tiles h.init h.process
      pageAligned_frame (by decide) hdvd fun hroom => hno ⟨⟨hrsp, d, hmem, huser, hin⟩, hroom⟩
    simp only [buildFrame, bind, EStateM.bind, get_ok, hphys, expect, pure, EStateM.pure, expectMem, hmap]
    exact ⟨_, _, rfl⟩

end

theorem saveIfRunning_ok (newSchedule : Bool) (h : ∀ i, getHighestSetBit s.task.pendingSignals = some i →
    (frameAt s.task.signalFramePending i).isSome = true) :
    ∃ t, saveIfRunning newSchedule s = .ok () t ∧ t.mem = s.mem ∧ t.written = s.written := by
  unfold saveIfRunning saveTaskContext
  cases newSchedule
  · cases hi : getHighestSetBit s.task.pendingSignals with
    | none =>
      simp only [Bool.false_eq_true, if_false, bind, EStateM.bind, get_ok, hi]
      exact ⟨_, rfl, rfl, rfl⟩
    | some i =>
      obtain ⟨f, hf⟩ := Option.isSome_iff_exists.1 (h i hi)
      simp only [Bool.false_eq_true, if_false, bind, EStateM.bind, get_ok, hi, expect, hf]
      exact ⟨_, rfl, rfl, rfl⟩
  · exact ⟨s, rfl, rfl, rfl⟩

theorem Ready.current (h : s.Ready signal p) {α : Type} (own : α) (ofFrame : SignalFrame → α) :
    ∃ a, s.task.current own ofFrame = some a := by
  unfold Task.current
  cases hi : getHighestSetBit s.task.pendingSignals with
  | none => exact ⟨own, rfl⟩
  | some i =>
    obtain ⟨f, hf⟩ := Option.isSome_iff_exists.1 (h.running i hi)
    exact ⟨ofFrame f, by simp [hf]⟩

theorem Ready.getTaskContext (h : s.Ready signal p) (newSchedule : Bool) :
    ∃ c, s.getTaskContext newSchedule = some c := by
  unfold Core.getTaskContext
  cases newSchedule
  · exact ⟨_, rfl⟩
  · exact h.current _ _

theorem Ready.userStack (h : s.Ready signal p) (context : ℕ) (base : UInt64) :
    ∃ r, s.userStack context base = some r := by
  unfold Core.userStack
  split
  · exact ⟨_, rfl⟩
  obtain ⟨b, hb⟩ := h.current s.task.isInSyscall (·.isInSyscall)
  obtain ⟨rsp, hrsp⟩ := h.current s.task.syscallRsp (·.syscallRsp)
  obtain ⟨gs, hgs⟩ := h.current s.task.syscallGs (·.syscallGs)
  simp only [Task.inSyscall?, Task.syscallRsp?, Task.syscallGs?, hb, hrsp, hgs, Option.bind_eq_bind, Option.bind_some]
  cases b <;> exact ⟨_, rfl⟩

/-- **Delivery of a signal**: the handler is started on a frame in user memory below the stack pointer, or waits
until the thread comes to user mode, exactly if the page below the boundary is user memory and the kernel has
room to map it. -/
theorem initSignalHandler_iff (h : s.Ready signal p) :
    s.Delivered newSchedule p (initSignalHandler signal newSchedule s) ↔ s.CanDeliver newSchedule p := by
  obtain ⟨⟨context, base⟩, hc⟩ := h.getTaskContext newSchedule
  obtain ⟨r, hr⟩ := h.userStack context base
  have hrsp : s.userRsp newSchedule = r.map Prod.fst := by
    simp only [userRsp, hc, Option.bind_some, hr, Option.join_some]
  unfold CanDeliver
  rw [hrsp]
  cases r with
  | none =>
    have hrun : initSignalHandler signal newSchedule s = .ok false s := by
      simp only [initSignalHandler, bind, EStateM.bind, get_ok, hc, hr, expect, pure, EStateM.pure]
    rw [hrun]
    simp [Delivered]
  | some q =>
    obtain ⟨rsp, gs⟩ := q
    simp only [Option.map_some, Option.some.injEq, forall_eq']
    by_cases hcan : PageBelow p rsp.toNat ∧ s.mem.KernelRoom frameLayout
    · obtain ⟨t, hbuild, ⟨w, hw, hbytes⟩, hframes⟩ := buildFrame_ok context
        (s.isUserContext context) gs h hcan.1 hcan.2
      obtain ⟨u, hsave, hmem, hwritten⟩ := saveIfRunning_ok newSchedule hframes
      refine ⟨fun _ => hcan, fun _ => ?_⟩
      simp only [initSignalHandler, bind, EStateM.bind, get_ok, hc, hr, expect, pure, EStateM.pure, hbuild, hsave]
      refine ⟨rsp, hrsp, w, hwritten.trans hw, fun x hx i hi => ?_⟩
      obtain ⟨addr, phys, h1, h2, h3⟩ := hbytes x hx i hi
      exact ⟨addr, phys, h1, h2, hmem ▸ h3⟩
    · obtain ⟨f, t, hbuild⟩ := buildFrame_error context (s.isUserContext context) gs h hcan
      have hrun : initSignalHandler signal newSchedule s = .error f t := by
        simp only [initSignalHandler, bind, EStateM.bind, get_ok, hc, hr, expect, pure, EStateM.pure, hbuild]
      rw [hrun]
      exact ⟨False.elim, fun h => absurd h hcan⟩

/-- A process with one page of stack, at `0x5000`. -/
def stackSpace : VirtMemConBlk where
  totalMemory := 0x100000
  avlMemory := 0
  freeBlockList := []
  allocBlockList := [⟨1, 0x200000, 0x5000, PageDescriptor.USER, true⟩]
  procId := 1

def stackMem : MemState :=
  { MemState.fourFrames with
    process := some stackSpace
    tables := Process.tablesOf KERNEL_HALF_OFFSET }

/-- The process is in a system call that it has made with the stack pointer `rsp`, and gets signal 2. -/
def inSyscall (rsp : UInt64) : Core where
  mem := stackMem
  task :=
    { isInSyscall := true
      syscallGs := 0
      syscallRsp := rsp
      context := 0
      inSignalInit := 4
      pendingSignals := 0
      signalFramePending := replicate MAX_SIGNALS none
      signalFrameInit := [none, none, some { handler := 0x401000, userCtx := 0 }, none, none, none]
      perCpuBase := 0 }
  cpuContext := 0xffff800000010000
  cpuBase := 0
  initRflags := 0x202
  contexts _ := {}
  words _ := 0
  written := []

theorem inSyscall_ready (rsp : UInt64) : (inSyscall rsp).Ready 2 stackSpace where
  tiles :=
    { kernel := new_bounded 0
      process := by
        rintro _ ⟨⟩
        refine ⟨⟨forall_mem_nil _, fun d hd => ?_⟩, by decide⟩
        rw [mem_singleton.1 hd]
        constructor <;> decide
      frames := MemState.fourFrames_wellFormed.frames
      procId := rfl
      cover_le := fun x => (new_cover 0 x).trans_le (cover₀_le_one x) }
  init := rfl
  process := rfl
  user d hd _ := by
    rw [mem_singleton.1 hd]
    constructor <;> decide
  frame := rfl
  fresh := rfl
  running i hi := by cases hi

theorem stackMem_room : stackMem.KernelRoom frameLayout := by
  have hbest : bestFit (fits (ceilDiv frameLayout.size PAGE_SIZE) false)
      stackMem.kernel.freeBlockList = some (1, .unmapped
        (ceilDiv (0x1ff * 2 ^ 39 - KERNEL_HALF_OFFSET_RAW) PAGE_SIZE) 0 KERNEL_HALF_OFFSET) := by decide
  refine ⟨⟨by decide, by decide, by decide, by decide, by decide, .inl (by decide)⟩, fun i node hb => ?_⟩
  rw [hbest] at hb
  obtain ⟨rfl, rfl⟩ := Prod.mk.inj (Option.some.inj hb)
  have hzero : (Process.rangeTables KERNEL_HALF_OFFSET (ceilDiv frameLayout.size PAGE_SIZE) \
      stackMem.tables.toFinset).card = 0 := by decide
  unfold MemState.TableFrames
  change PhyMemConBlk.ServesPages (Process.rangeTables KERNEL_HALF_OFFSET _ \ _).card _ _
  rw [hzero]
  trivial

/-- With the stack pointer in the page above, the frame is built in the page of stack. -/
theorem initSignalHandler_stack : (inSyscall 0x6abc).CanDeliver true stackSpace ∧
    (inSyscall 0x6abc).Delivered true stackSpace (initSignalHandler 2 true (inSyscall 0x6abc)) := by
  have hcan : (inSyscall 0x6abc).CanDeliver true stackSpace := by
    intro rsp hrsp
    obtain rfl : rsp = 0x6abc := (Option.some.inj hrsp).symm
    refine ⟨⟨by decide, _, mem_singleton_self _, by decide, ?_⟩, stackMem_room⟩
    constructor <;> decide
  exact ⟨hcan, (initSignalHandler_iff (inSyscall_ready _)).2 hcan⟩

/-- A program whose stack pointer is in the lowest page of its stack panics the kernel with the next
signal. -/
theorem initSignalHandler_panics : (inSyscall 0x5abc).Ready 2 stackSpace ∧
    ∃ t, initSignalHandler 2 true (inSyscall 0x5abc) = .error .panic t := ⟨inSyscall_ready _, _, rfl⟩

end Core

end Archis.Sched
