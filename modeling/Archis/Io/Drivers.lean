/-
  The dispatch routines of the drivers in `kernel/src/drivers`: tty, input, i8042, virt_blk, disk and pci.

  A routine completes its IRP and returns the status, returns `Unsupported` and leaves the completion to the I/O manager,
  or keeps the IRP and returns `Pending` (`Outcome`).  What it asks the rest of the system is in `Env`.
-/
import Archis.Disk.DoIo
import Archis.Io.Device
import Archis.Lib.RingBuffer

namespace Archis.Io.Drivers

open Archis.Lib (RingBuffer)
open Archis.Disk (DiskState SECTOR_SIZE)

inductive Status where
  | success
  | pending
  | failed
  | unsupported
  | cancelled
  deriving DecidableEq

/-- What a routine reads of its IRP. -/
structure Irp where
  ptr : ℕ
  major : IrpMajor
  minor : IrpMinor
  baseAddress : ℕ
  size : ℕ
  offset : ℕ
  /-- `req_info.tty_control.pid`. -/
  pid : ℕ
  /-- `req_info.tty_mode.mode`. -/
  mode : UInt8
  sectors : ℕ → List UInt8

/-- The device that a request goes to. -/
structure Target where
  id : ℕ
  state : DeviceState
  isClass : Bool
  isPdo : Bool
  disk : Disk.Device
  /-- `PciCtx::is_fdo`. -/
  isFdo : Bool

/-- The processes, as the tty driver asks for them. -/
structure Procs where
  /-- `sched_get_current_pid`; none in the idle task. -/
  currentPid : Option ℕ
  pgrp : ℕ → ℕ
  session : ℕ → ℕ
  isPgrpActive : ℕ → Bool
  isForegroundPgrp : ℕ → ℕ → Bool
  isSessionActive : ℕ → Bool
  isInSession : ℕ → ℕ → Bool
  isSessionLeader : ℕ → ℕ → Bool

/-- What the device below a disk does with the read that the disk sends it. -/
inductive Child where
  /-- `io_request_async` fails before there is an IRP. -/
  | rejected
  /-- after completing the child's IRP, which runs `on_child_io_complete` unless it is cancelled -/
  | returned (status : Status) (routineRuns : Bool)
  | pending

/-- What a routine learns from outside. -/
structure Env where
  procs : Procs
  /-- The result of `do_start_inner`: the queue size. -/
  virtStart : Option ℕ
  /-- `device_cfg` is mapped after it. -/
  mapped : Bool
  /-- `get_physical_address` succeeds. -/
  physical : Bool
  child : Child
  /-- The sector size and the capacity that the device below reports. -/
  diskInfo : Option (ℕ × ℕ)
  /-- Writing a fresh GPT, or adding a partition, succeeds. -/
  gptWritten : Bool
  /-- The cache and the device after scanning, flushing or writing the partition table. -/
  afterGpt : DiskState (List UInt8)
  /-- The PCI segment of the root bridge. -/
  segment : ℕ

/-- What has become of the IRP when the routine returns, or lets the other threads at it. -/
inductive Own where
  /-- The routine has completed the IRP with these statuses, and returns. -/
  | returned (completed : List Status) (status : Status)
  /-- The IRP is in the queue, and `io_set_cancel_routine` comes next. -/
  | queued
  /-- The driver keeps the IRP, and the routine returns `Pending`. -/
  | kept
  deriving DecidableEq

structure Outcome (σ : Type) where
  own : Own
  ctx : σ
  /-- Other IRPs, which the routine completes with `Failed`. -/
  failing : List ℕ

namespace Outcome
variable {σ τ : Type}

/-- `complete_irp(status)`, and the status is returned. -/
def finish (status : Status) (ctx : σ) : Outcome σ := ⟨.returned [status] status, ctx, []⟩

/-- `Status::Unsupported` is returned and nothing completed. -/
def unsupported (ctx : σ) : Outcome σ := ⟨.returned [] .unsupported, ctx, []⟩

def map (f : σ → τ) (o : Outcome σ) : Outcome τ := ⟨o.own, f o.ctx, o.failing⟩

end Outcome

open Outcome (finish unsupported)

/-! ## Queues of reads -/

structure PendingEntry where
  irp : ℕ
  requested : ℕ
  deriving DecidableEq

def MAX_PENDING : ℕ := 16

def irps (pending : List PendingEntry) : List ℕ := pending.map (·.irp)

/-- `remove_pending` of tty: the order stays. -/
def removePending (irp : ℕ) (pending : List PendingEntry) : List PendingEntry :=
  pending.eraseP (·.irp = irp)

/-- `remove_pending` of input and i8042: the last entry takes the place of the one removed. -/
def swapRemove (irp : ℕ) : List PendingEntry → List PendingEntry
  | [] => []
  | e :: es =>
    if e.irp = irp then
      match es.getLast? with
      | none => []
      | some last => last :: es.dropLast
    else e :: swapRemove irp es

section
variable {α : Type} {N : ℕ}

/-- The loop that serves the queue: the IRPs served, the entries that stay and the ring.  `give` says how many
items a read gets; without an answer the loop ends. -/
def satisfy (give : RingBuffer α N → ℕ → Option ℕ) :
    RingBuffer α N → List PendingEntry → List ℕ × List PendingEntry × RingBuffer α N
  | ring, [] => ([], [], ring)
  | ring, e :: es =>
    match give ring e.requested with
    | none => ([], e :: es, ring)
    | some n =>
      let (served, rest, ring) := satisfy give (ring.advance n) es
      (e.irp :: served, rest, ring)

def giveAvailable (ring : RingBuffer α N) (requested : ℕ) : Option ℕ :=
  if ring.len > 0 then some (min ring.len requested) else none

end

/-! ## tty -/

def INPUT_BUF_SIZE : ℕ := 256

instance : NeZero INPUT_BUF_SIZE := ⟨by decide⟩

def CTRL_C : UInt8 := 0x03
def BACKSPACE : UInt8 := 0x08
def NEWLINE : UInt8 := 10
def MAX_TMP_CHARS : ℕ := 16
def TTY_MODE_CANON : UInt8 := 2

structure TtyCtx where
  inputRing : RingBuffer UInt8 INPUT_BUF_SIZE
  pending : List PendingEntry
  openCount : ℕ
  enabled : Bool
  mode : UInt8
  /-- The session and the foreground process group; 0 is none. -/
  session : ℕ
  pgrp : ℕ

def findLineLen (ring : RingBuffer UInt8 INPUT_BUF_SIZE) : Option ℕ :=
  ((ring.peekInto ring.len).findIdx? (· = NEWLINE)).map (· + 1)

def computeGive (canonical : Bool) (ring : RingBuffer UInt8 INPUT_BUF_SIZE) (requested : ℕ) : Option ℕ :=
  if ring.len = 0 then none
  else if !canonical then some (min ring.len requested)
  else match findLineLen ring with
    | some lineLen => some (min lineLen requested)
    | none => if ring.len ≥ requested then some requested else none

namespace TtyCtx

variable (ctx : TtyCtx) (p : Procs)

def canonical : Bool := ctx.mode &&& TTY_MODE_CANON ≠ 0

def inBackground (pid : ℕ) : Bool :=
  ctx.pgrp ≠ 0 && p.isPgrpActive ctx.pgrp && !p.isForegroundPgrp pid ctx.pgrp

/-- `disable_and_fail_pending`, followed by the completion of the request. -/
def disableAndFailPending : Outcome TtyCtx where
  own := .returned [.success] .success
  ctx := { ctx with pending := [], enabled := false }
  failing := irps ctx.pending

def dispatchPnp (r : Irp) : Outcome TtyCtx :=
  match r.minor with
  | .start => finish .success ctx
  | .stop => ctx.disableAndFailPending
  | .remove => ctx.disableAndFailPending.map fun ctx => { ctx with session := 0, pgrp := 0 }
  | _ => unsupported ctx

def dispatchOpen : Outcome TtyCtx :=
  finish .success { ctx with
    openCount := wadd ctx.openCount 1
    enabled := ctx.enabled || ctx.openCount = 0 }

def dispatchClose : Outcome TtyCtx :=
  finish .success { ctx with
    openCount := wsub ctx.openCount 1
    enabled := ctx.enabled && ctx.openCount ≠ 1 }

def dispatchRead (r : Irp) : Outcome TtyCtx :=
  if r.size = 0 then finish .success ctx
  else match p.currentPid with
    | none => finish .failed ctx
    | some pid =>
      if ctx.inBackground p pid then finish .failed ctx
      else match computeGive ctx.canonical ctx.inputRing r.size with
        | some give => finish .success { ctx with inputRing := ctx.inputRing.advance give }
        | none =>
          if ctx.pending.length = MAX_PENDING then finish .failed ctx
          else ⟨.queued, { ctx with pending := ctx.pending ++ [⟨r.ptr, r.size⟩] }, []⟩

def dispatchWrite : Outcome TtyCtx :=
  match p.currentPid with
  | none => finish .failed ctx
  | some pid => if ctx.inBackground p pid then finish .failed ctx else finish .success ctx

def dispatchControl (r : Irp) : Outcome TtyCtx :=
  match p.currentPid with
  | none => finish .failed ctx
  | some pid =>
    match r.minor with
    | .setForegroundPgrp =>
      if ctx.session = 0 || !p.isSessionActive ctx.session || !p.isInSession pid ctx.session then
        finish .failed ctx
      else finish .success { ctx with pgrp := if r.pid ≠ 0 then p.pgrp r.pid else 0 }
    | .setControllingTty =>
      if p.session r.pid = 0 then finish .failed ctx
      else if ctx.session = 0 || !p.isSessionActive ctx.session
          || p.isSessionLeader pid ctx.session then
        finish .success { ctx with session := p.session r.pid }
      else finish .failed ctx
    | .setTtyMode =>
      if ctx.inBackground p pid then finish .failed ctx
      else finish .success { ctx with mode := r.mode }
    | .getTtyMode => finish .success ctx
    | _ => unsupported ctx

/-- The first loop of `tty_input`: the ring and the bytes to be pushed; none after Ctrl-C. -/
def stage (canonical : Bool) : RingBuffer UInt8 INPUT_BUF_SIZE → List UInt8 → List UInt8 →
    Option (RingBuffer UInt8 INPUT_BUF_SIZE × List UInt8)
  | ring, tmp, [] => some (ring, tmp)
  | ring, tmp, b :: bytes =>
    if b = CTRL_C then none
    else if b = BACKSPACE && canonical then
      if tmp ≠ [] then stage canonical ring tmp.dropLast bytes
      -- never past the end of a completed line
      else stage canonical (if ring.peekBack ≠ some NEWLINE then ring.popBack else ring) tmp bytes
    else if (tmp ++ [b]).length ≥ MAX_TMP_CHARS then some (ring, tmp ++ [b])
    else stage canonical ring (tmp ++ [b]) bytes

/-- `tty_input` up to the release of the lock: the context and the IRPs collected. -/
def ttyInput (bytes : List UInt8) : TtyCtx × List ℕ :=
  if bytes = [] then (ctx, [])
  else match stage ctx.canonical ctx.inputRing [] bytes with
    | none => ({ ctx with inputRing := RingBuffer.new 0 }, [])
    | some (ring, tmp) =>
      let (collected, pending, ring) :=
        satisfy (computeGive ctx.canonical) (tmp.foldl RingBuffer.push ring) ctx.pending
      ({ ctx with inputRing := ring, pending }, collected)

end TtyCtx

/-! ## input -/

structure Keystroke where
  scancode : UInt8
  ascii : UInt8
  flags : UInt8
  modifiers : UInt8

def KS_RELEASE : UInt8 := 1
def MOD_CTRL : UInt8 := 1
def MOD_SHIFT : UInt8 := 2
def MOD_CAPSLOCK : UInt8 := 8
def ASCII_BUF_SIZE : ℕ := 256
def RAW_BUF_SIZE : ℕ := 64

def shiftedSymbols : List (UInt8 × UInt8) :=
  ("1234567890-=[];'`\\,./".toUTF8.toList).zip ("!@#$%^&*()_+\x7b\x7d:\"~|<>?".toUTF8.toList)

def shiftedSymbol (c : UInt8) : UInt8 := (shiftedSymbols.lookup c).getD c

def decodeChar (baseAscii modifiers : UInt8) : UInt8 :=
  let ctrl := modifiers &&& MOD_CTRL ≠ 0
  let shift : Bool := modifiers &&& MOD_SHIFT ≠ 0
  let caps : Bool := modifiers &&& MOD_CAPSLOCK ≠ 0
  let ch :=
    if 0x61 ≤ baseAscii ∧ baseAscii ≤ 0x7A then
      if shift ^^ caps then baseAscii - 0x20 else baseAscii
    else if shift then shiftedSymbol baseAscii
    else baseAscii
  if ¬ ctrl then ch
  else if 0x41 ≤ ch ∧ ch ≤ 0x5A then ch &&& 0x1F
  else if 0x61 ≤ ch ∧ ch ≤ 0x7A then (ch - 0x20) &&& 0x1F
  -- '@', '[', '\', ']', '^' and '_'
  else if ch = 0x40 ∨ 0x5B ≤ ch ∧ ch ≤ 0x5F then ch - 0x40
  else if ch = 0x3F then 0x7F
  else ch

structure InputCtx where
  rawRing : RingBuffer Keystroke RAW_BUF_SIZE
  asciiRing : RingBuffer UInt8 ASCII_BUF_SIZE
  pending : List PendingEntry
  /-- `INPUT_DEVICE_ID`: the class device. -/
  deviceId : ℕ

namespace InputCtx

def dispatchPnp (ctx : InputCtx) (r : Irp) : Outcome InputCtx :=
  match r.minor with
  | .start | .stop | .remove => finish .success ctx
  | _ => unsupported ctx

def dispatchRead (ctx : InputCtx) (t : Target) (r : Irp) : Outcome InputCtx :=
  -- the routine completes the IRP itself, and returns `Unsupported` all the same
  if t.id ≠ ctx.deviceId then finish .unsupported ctx
  else if r.size = 0 then finish .success ctx
  else if r.size > ASCII_BUF_SIZE then finish .failed ctx
  else if ctx.asciiRing.len > 0 then
    finish .success { ctx with asciiRing := ctx.asciiRing.advance (min ctx.asciiRing.len r.size) }
  else if ctx.pending.length = MAX_PENDING then finish .failed ctx
  else ⟨.queued, { ctx with pending := ctx.pending ++ [⟨r.ptr, r.size⟩] }, []⟩

/-- One keystroke of `keystroke_received`. -/
def push (ctx : InputCtx) (ks : Keystroke) : InputCtx :=
  { ctx with
    rawRing := ctx.rawRing.push ks
    asciiRing :=
      if ks.ascii ≠ 0 ∧ ks.flags &&& KS_RELEASE = 0 then
        ctx.asciiRing.push (decodeChar ks.ascii ks.modifiers)
      else ctx.asciiRing }

/-- `keystroke_received` up to the release of the lock. -/
def keystrokeReceived (ctx : InputCtx) (keystrokes : List Keystroke) : InputCtx × List ℕ :=
  let pushed := keystrokes.foldl push ctx
  let (collected, pending, ring) := satisfy giveAvailable pushed.asciiRing ctx.pending
  ({ pushed with asciiRing := ring, pending }, collected)

end InputCtx

/-! ## i8042 -/

def KS_BUF_SIZE : ℕ := 64
def SC_PENDING_SIZE : ℕ := 32

instance : NeZero KS_BUF_SIZE := ⟨by decide⟩
instance : NeZero SC_PENDING_SIZE := ⟨by decide⟩

/-- `size_of::<Keystroke>()`. -/
def KS_SIZE : ℕ := 4

def noKeystroke : Keystroke := ⟨0, 0, 0, 0⟩

structure I8042Ctx where
  ksRing : RingBuffer Keystroke KS_BUF_SIZE
  scPending : RingBuffer Keystroke SC_PENDING_SIZE
  pending : List PendingEntry

namespace I8042Ctx

variable (ctx : I8042Ctx)

def dispatchPnp (r : Irp) : Outcome I8042Ctx :=
  match r.minor with
  | .start => finish .success {
      ksRing := RingBuffer.new noKeystroke
      scPending := RingBuffer.new noKeystroke
      pending := [] }
  | .stop => ⟨.returned [.success] .success, { ctx with pending := [] }, irps ctx.pending⟩
  | .remove => finish .success ctx
  | _ => unsupported ctx

def dispatchControl (r : Irp) : Outcome I8042Ctx :=
  match r.minor with
  | .registerKeyboardHandler => finish .success ctx
  | _ => unsupported ctx

def dispatchRead (r : Irp) : Outcome I8042Ctx :=
  if r.size = 0 || r.size % KS_SIZE ≠ 0 then finish .failed ctx
  else
    let requested := r.size / KS_SIZE
    if requested > KS_BUF_SIZE then finish .failed ctx
    else if ctx.ksRing.len > 0 then
      finish .success { ctx with ksRing := ctx.ksRing.advance (min ctx.ksRing.len requested) }
    else if ctx.pending.length = MAX_PENDING then finish .failed ctx
    else ⟨.queued, { ctx with pending := ctx.pending ++ [⟨r.ptr, requested⟩] }, []⟩

/-- `keyboard_dw` up to the release of the lock. -/
def keyboardDw : I8042Ctx × List ℕ :=
  let batch := ctx.scPending.peekInto ctx.scPending.len
  let (collected, pending, ring) :=
    satisfy giveAvailable (batch.foldl RingBuffer.push ctx.ksRing) ctx.pending
  (⟨ring, ctx.scPending.advance ctx.scPending.len, pending⟩, collected)

end I8042Ctx

/-! ## virt_blk -/

def MAX_QUEUE_SIZE : ℕ := 128

/-- The free entries of the queue are counted. -/
structure VirtBlkCtx where
  /-- `device_cfg` is not null. -/
  deviceCfg : Bool
  freeDesc : ℕ
  freeHdr : ℕ
  freeStatus : ℕ
  pending : List ℕ

namespace VirtBlkCtx

section
variable (ctx : VirtBlkCtx)

def allocateResources : Option VirtBlkCtx :=
  if ctx.pending.length = MAX_PENDING || ctx.freeDesc < 3 || ctx.freeHdr < 1 || ctx.freeStatus < 1 then
    none
  else some { ctx with
    freeDesc := ctx.freeDesc - 3
    freeHdr := ctx.freeHdr - 1
    freeStatus := ctx.freeStatus - 1 }

/-- `release_request_resources`, for an IRP that is pending. -/
def releaseRequestResources (irp : ℕ) : VirtBlkCtx :=
  { ctx with
    freeDesc := ctx.freeDesc + 3
    freeHdr := ctx.freeHdr + 1
    freeStatus := ctx.freeStatus + 1
    pending := ctx.pending.erase irp }

def dispatchPnp (e : Env) (r : Irp) : Outcome VirtBlkCtx :=
  match r.minor with
  | .start =>
    match e.virtStart with
    | none => finish .failed { ctx with deviceCfg := e.mapped }
    | some queueSize =>
      let size := max 1 (min queueSize MAX_QUEUE_SIZE)
      finish .success { ctx with
        deviceCfg := true, freeDesc := size, freeHdr := size, freeStatus := size }
  | .stop =>
    let stopped := ctx.pending.foldl releaseRequestResources ctx
    ⟨.returned [.success] .success, { stopped with deviceCfg := false, pending := [] }, ctx.pending⟩
  | .remove => finish .success { ctx with deviceCfg := false }
  | _ => unsupported ctx

def dispatchControl (r : Irp) : Outcome VirtBlkCtx :=
  match r.minor with
  | .diskGetInfo => if ctx.deviceCfg then finish .success ctx else finish .failed ctx
  | _ => unsupported ctx

/-- `dispatch_read` and `dispatch_write`. -/
def dispatchIo (e : Env) (r : Irp) : Outcome VirtBlkCtx :=
  if r.baseAddress = 0 || r.size = 0 || r.size % SECTOR_SIZE ≠ 0 then finish .failed ctx
  else if !e.physical then finish .failed ctx
  else match ctx.allocateResources with
    | none => finish .failed ctx
    | some ctx => ⟨.kept, { ctx with pending := ctx.pending ++ [r.ptr] }, []⟩

end

/-- `virtblk_dw` up to the release of the lock; `used` are the entries of the used ring. -/
def virtblkDw (ctx : VirtBlkCtx) : List (ℕ × Bool) → VirtBlkCtx × List (ℕ × Status)
  | [] => (ctx, [])
  | (irp, ok) :: used =>
    if irp ∈ ctx.pending then
      let (ctx, completed) := (ctx.releaseRequestResources irp).virtblkDw used
      (ctx, (irp, if ok then .success else .failed) :: completed)
    else ctx.virtblkDw used

end VirtBlkCtx

/-! ## disk -/

structure DiskCtx where
  disk : DiskState (List UInt8)
  /-- The IRPs that wait for the device below. -/
  waiting : List ℕ

namespace DiskCtx

/-- The IRP as `do_io` reads it. -/
def ioRequest (t : Target) (r : Irp) : Disk.Irp (List UInt8) :=
  ⟨t.disk, r.major = .write, r.offset, r.size, r.sectors⟩

def raw (t : Target) : Bool :=
  match t.disk with
  | .raw => true
  | .part _ _ => false

section
variable (ctx : DiskCtx) (t : Target) (e : Env) (r : Irp)

def doStart : Option (Outcome DiskCtx) :=
  if !raw t then some (finish .success ctx)
  else match e.diskInfo with
    | none => some (finish .failed ctx)
    | some (lbaSize, lbaCount) =>
      if lbaSize ≠ SECTOR_SIZE then none
      else if ctx.disk.ctx.busy then some (finish .failed ctx)
      else some (finish .success { ctx with
        disk := { e.afterGpt with ctx := { e.afterGpt.ctx with lbaCount } } })

/-- `do_stop` and `do_remove`: a raw disk must not be busy. -/
def doStop : Option (Outcome DiskCtx) :=
  if !raw t then some (finish .success ctx)
  else if ctx.disk.ctx.busy then none
  else some (finish .success { ctx with disk := e.afterGpt })

def dispatchPnp : Option (Outcome DiskCtx) :=
  match r.minor with
  | .start => ctx.doStart t e
  | .stop | .remove => ctx.doStop t e
  | _ => some (unsupported ctx)

/-- `do_create_gpt` and `do_add_partition`. -/
def doAdmin : Outcome DiskCtx :=
  if !raw t then unsupported ctx
  else if ctx.disk.ctx.busy then finish .failed ctx
  else finish (if e.gptWritten then .success else .failed) { ctx with disk := e.afterGpt }

def dispatchControl : Outcome DiskCtx :=
  match r.minor with
  | .diskGetInfo => finish .success ctx
  | .diskCreateGpt | .diskAddPartition => ctx.doAdmin t e
  | .diskGetPartitionInfo => if raw t then unsupported ctx else finish .success ctx
  | _ => unsupported ctx

/-- The end of `do_io`: the read went to the device below, and `on_child_io_complete` may have run. -/
def childDispatched : Child → Outcome DiskCtx
  | .rejected => finish .failed ctx
  | .returned .failed routineRuns =>
    ⟨.returned (if routineRuns then [.failed, .failed] else [.failed]) .failed, ctx, []⟩
  | .returned status routineRuns =>
    ⟨.returned (if routineRuns then [status] else []) .pending, ctx, []⟩
  | .pending => ⟨.kept, { ctx with waiting := ctx.waiting ++ [r.ptr] }, []⟩

/-- `do_io`, for a read (`is_write` is the IRP's major code). -/
def doIo : Option (Outcome DiskCtx) :=
  match Disk.target ctx.disk.ctx (ioRequest t r) with
  | none => some (finish .failed ctx)
  | some (baseLba, n) =>
    if r.major = .write then
      some (finish .success { ctx with disk := ctx.disk.putAll baseLba r.sectors 0 n })
    else
      let (hit, probed) := Disk.probe ctx.disk.ctx baseLba 0 n
      let ctx := { ctx with disk := { ctx.disk with ctx := probed } }
      if hit then
        match Disk.collect probed baseLba 0 n with
        | (none, _) => none
        | (some _, read) => some (finish .success { ctx with disk := { ctx.disk with ctx := read } })
      else some (ctx.childDispatched r e.child)

/-- A read goes to the device below: its range is right, and a sector is not in the cache. -/
def missesCache : Bool :=
  match Disk.target ctx.disk.ctx (ioRequest t r) with
  | none => false
  | some (baseLba, n) => r.major ≠ .write && !(Disk.probe ctx.disk.ctx baseLba 0 n).1

end

end DiskCtx

/-! ## pci -/

/-- `dispatch_pnp` of pci; its context is not changed. -/
def pciDispatchPnp (t : Target) (e : Env) (r : Irp) : Option (Outcome Unit) :=
  match r.minor with
  | .start | .query | .resources | .stop | .remove => some (finish .success ())
  | .enumerate =>
    if !t.isFdo then none
    else if e.segment ≠ 0 then some (finish .failed ())
    else some (finish .success ())
  | _ => some (unsupported ())

/-! ## All drivers -/

inductive Driver where
  | tty (ctx : TtyCtx)
  | input (ctx : InputCtx)
  | i8042 (ctx : I8042Ctx)
  | virtBlk (ctx : VirtBlkCtx)
  | disk (ctx : DiskCtx)
  | pci

inductive Event where
  | ttyInput (bytes : List UInt8)
  | keystrokeReceived (keystrokes : List Keystroke)
  /-- `keyboard_isr` has decoded a scancode. -/
  | keyboardIsr (keystroke : Keystroke)
  | keyboardDw
  | virtblkDw (used : List (ℕ × Bool))
  /-- `on_child_io_complete`, after the device below has kept the read. -/
  | childComplete (irp : ℕ) (status : Status)
  /-- An administrative operation on the disk begins or ends. -/
  | setBusy (busy : Bool)

namespace Driver

def held : Driver → List ℕ
  | .tty ctx => irps ctx.pending
  | .input ctx => irps ctx.pending
  | .i8042 ctx => irps ctx.pending
  | .virtBlk ctx => ctx.pending
  | .disk ctx => ctx.waiting
  | .pci => []

/-- `dispatch` of the I/O manager; no value is a failed assertion. -/
def dispatch (d : Driver) (t : Target) (e : Env) (r : Irp) : Option (Outcome Driver) :=
  match d, r.major with
  | .tty ctx, .pnp => some ((ctx.dispatchPnp r).map .tty)
  | .tty ctx, .open => some (ctx.dispatchOpen.map .tty)
  | .tty ctx, .close => some (ctx.dispatchClose.map .tty)
  | .tty ctx, .read => some ((ctx.dispatchRead e.procs r).map .tty)
  | .tty ctx, .write => some ((ctx.dispatchWrite e.procs).map .tty)
  | .tty ctx, .control => some ((ctx.dispatchControl e.procs r).map .tty)
  | .input ctx, .open | .input ctx, .close => some (finish .success (.input ctx))
  | .input ctx, .pnp => some ((ctx.dispatchPnp r).map .input)
  | .input ctx, .read => some ((ctx.dispatchRead t r).map .input)
  | .i8042 ctx, .pnp => some ((ctx.dispatchPnp r).map .i8042)
  | .i8042 ctx, .read => some ((ctx.dispatchRead r).map .i8042)
  | .i8042 ctx, .control => some ((ctx.dispatchControl r).map .i8042)
  | .virtBlk ctx, .pnp => some ((ctx.dispatchPnp e r).map .virtBlk)
  | .virtBlk ctx, .control => some ((ctx.dispatchControl r).map .virtBlk)
  | .virtBlk ctx, .read | .virtBlk ctx, .write => some ((ctx.dispatchIo e r).map .virtBlk)
  | .disk ctx, .open | .disk ctx, .close => some (finish .success (.disk ctx))
  | .disk ctx, .pnp => (ctx.dispatchPnp t e r).map (·.map .disk)
  | .disk ctx, .control => some ((ctx.dispatchControl t e r).map .disk)
  | .disk ctx, .read | .disk ctx, .write => (ctx.doIo t e r).map (·.map .disk)
  | .pci, .pnp => (pciDispatchPnp t e r).map (·.map fun _ => .pci)
  | d, _ => some (unsupported d)

/-- The IRP leaves the queue: by a read that finds it cancelled, or by the cancel routine. -/
def remove (d : Driver) (irp : ℕ) : Driver :=
  match d with
  | .tty ctx => .tty { ctx with pending := removePending irp ctx.pending }
  | .input ctx => .input { ctx with pending := swapRemove irp ctx.pending }
  | .i8042 ctx => .i8042 { ctx with pending := swapRemove irp ctx.pending }
  | .virtBlk ctx => .virtBlk { ctx with pending := ctx.pending.erase irp }
  | .disk ctx => .disk { ctx with waiting := ctx.waiting.erase irp }
  | .pci => .pci

/-- The driver after the event, the IRPs collected for `io_start_processing`, and those completed without it. -/
def event (d : Driver) (ev : Event) : Driver × List ℕ × List (ℕ × Status) :=
  match d, ev with
  | .tty ctx, .ttyInput bytes =>
    let (ctx, collected) := ctx.ttyInput bytes
    (.tty ctx, collected, [])
  | .input ctx, .keystrokeReceived keystrokes =>
    let (ctx, collected) := ctx.keystrokeReceived keystrokes
    (.input ctx, collected, [])
  | .i8042 ctx, .keyboardIsr keystroke =>
    (.i8042 { ctx with scPending := ctx.scPending.push keystroke }, [], [])
  | .i8042 ctx, .keyboardDw =>
    let (ctx, collected) := ctx.keyboardDw
    (.i8042 ctx, collected, [])
  | .virtBlk ctx, .virtblkDw used =>
    let (ctx, completed) := ctx.virtblkDw used
    (.virtBlk ctx, [], completed)
  | .disk ctx, .childComplete irp status =>
    if irp ∈ ctx.waiting then (.disk { ctx with waiting := ctx.waiting.erase irp }, [], [(irp, status)])
    else (.disk ctx, [], [])
  | .disk ctx, .setBusy busy =>
    (.disk { ctx with disk := { ctx.disk with ctx := { ctx.disk.ctx with busy } } }, [], [])
  | d, _ => (d, [], [])

end Driver
end Archis.Io.Drivers
