/-
  Offsets and slots that a program chooses: `sys_seek`, `sys_write` and `sys_duplicate` of `sched/user.rs` on files in
  memory.

  File contents and handle tables are growable arrays on the kernel heap, which is a parameter.  A call returns exactly
  if its range does not run over the end of the address space and the heap has what it asks for (`step_isSome_iff`).
-/
import Archis.Lib.Bytes
import Archis.Lib.Run
import Archis.Lib.Vec
import Archis.Word

namespace Archis.Fs

open Archis.Lib
open List hiding next
open Function (update)

/-! ## The state -/

inductive Handle where
  | file (inst : ℕ)
  | process (pid : ℕ)
  | other
  deriving DecidableEq

structure HandleType where
  handleInfo : Handle
  isInheritable : Bool
  deriving DecidableEq

structure Proc where
  isSuspended : Bool
  handleTable : Vec (Option HandleType)

inductive FileData where
  | static (bytes : List UInt8)
  | owned (v : Vec UInt8)

inductive NodeKind where
  | file (data : FileData)
  | other

/-- A node of a file system in memory, with the size in its `attrs`. -/
structure Node where
  kind : NodeKind
  size : ℕ

/-- `FileInst`, with a node as its backing. -/
structure FileInst where
  isDir : Bool
  node : ℕ
  offset : UInt64

structure Kernel (H : Type) where
  heap : H
  /-- `STOP_FS` -/
  stopFs : Bool
  nodes : ℕ → Node
  insts : ℕ → FileInst
  procs : ℕ → Proc

def E_SUCCESS : Int64 := 0
def E_INVALID : Int64 := -1
def E_INVALID_MEMORY_RANGE : Int64 := -6
def E_NOPERM : Int64 := -8
def E_IS_DIR : Int64 := -14
def E_FS_STOPPED : Int64 := -24

def SEEK_SET : UInt64 := 0
def SEEK_CUR : UInt64 := 1
def SEEK_END : UInt64 := 2

/-! ## The code -/

def FileData.bytes : FileData → List UInt8
  | .static bytes => bytes
  | .owned v => v.data

namespace Kernel
variable {H : Type} (heap : Heap H) (entrySize : ℕ) (s : Kernel H) (pid : ℕ) (data : FileData)
  (table : Vec (Option HandleType))

/-- `get_handle`, in the process `pid`. -/
def getHandle (handle : UInt64) : Option Handle :=
  ((s.procs pid).handleTable.data[handle.toNat]?).join.map (·.handleInfo)

/-- `FileInst::len`. -/
def fileLen (inst : ℕ) : ℕ :=
  match (s.nodes (s.insts inst).node).kind with
  | .file data => data.bytes.length
  | .other => 0

def seek (inst : ℕ) (newOffset : UInt64) : Int64 × Kernel H :=
  if (s.insts inst).isDir then (E_IS_DIR, s)
  else (newOffset.toInt64, { s with
    insts := update s.insts inst { s.insts inst with offset := newOffset } })

def sysSeek (handle offset whence : UInt64) : Int64 × Kernel H :=
  match s.getHandle pid handle with
  | some (.file inst) =>
    let delta := offset.toInt64
    let next? : Option Int64 :=
      if whence = SEEK_SET then some delta
      else if whence = SEEK_CUR then some ((s.insts inst).offset.toInt64 + delta)
      else if whence = SEEK_END then some ((UInt64.ofNat (s.fileLen inst)).toInt64 + delta)
      else none
    match next? with
    | none => (E_INVALID, s)
    | some next => if next < 0 then (E_INVALID, s) else s.seek inst next.toUInt64
  | _ => (E_INVALID, s)

/-- `make_owned`: static bytes are copied to the heap. -/
def makeOwned (h : H) : Option (Vec UInt8 × H) :=
  match data with
  | .owned v => some (v, h)
  | .static bytes =>
    if bytes = [] then some (.empty, h)
    else (heap.alloc bytes.length h).map fun h => (⟨bytes, bytes.length, le_rfl⟩, h)

/-- `if v.len() < end { v.resize(end, 0); }`. -/
def resizeTo (v : Vec UInt8) (stop : UInt64) (h : H) : Option (Vec UInt8 × H) :=
  if v.data.length < stop.toNat then v.resize heap 1 isizeMax stop.toNat 0 h else some (v, h)

def userBytes (user : ℕ → UInt8) (len : ℕ) : List UInt8 := (List.range len).map user

@[simp] theorem length_userBytes (user : ℕ → UInt8) (len : ℕ) : (userBytes user len).length = len := by
  simp [userBytes]

/-- The bytes of a file after a write at `cur`; the slice `v[cur..end]` panics if `end < cur`. -/
def store (cur len : UInt64) (user : Option (ℕ → UInt8)) (h : H) : Option (Vec UInt8 × H) :=
  (makeOwned heap data h).bind fun (v, h) =>
    (resizeTo heap v (cur + len) h).bind fun (v, h) =>
      if hr : cur.toNat ≤ (cur + len).toNat ∧ (cur + len).toNat ≤ v.data.length then
        match user with
        | none => some (v, h)
        | some user =>
          some (⟨splice v.data cur.toNat (userBytes user ((cur + len).toNat - cur.toNat)), v.cap, by
            rw [length_splice (by rw [length_userBytes]; omega)]; exact v.le_cap⟩, h)
      else none

/-- `FileInst::write`.  If the user's bytes cannot be read the file keeps the length it has got. -/
def write (inst : ℕ) (len : UInt64) (user : Option (ℕ → UInt8)) : Option (Except Int64 UInt64 × Kernel H) :=
  let f := s.insts inst
  if f.isDir then some (.error E_IS_DIR, s)
  else if s.stopFs then some (.error E_FS_STOPPED, s)
  else match (s.nodes f.node).kind with
    | .other => some (.error E_INVALID, s)
    | .file data => (store heap data f.offset len user s.heap).map fun (v, h) =>
      match user with
      | none => (.error E_INVALID, { s with
          heap := h
          nodes := update s.nodes f.node { s.nodes f.node with kind := .file (.owned v) } })
      | some _ => (.ok len, { s with
          heap := h
          nodes := update s.nodes f.node ⟨.file (.owned v), v.data.length⟩
          insts := update s.insts inst { f with offset := f.offset + len } })

/-- `sys_write`; `result` says that the reply can be stored at the user's pointer. -/
def sysWrite (handle len : UInt64) (user : Option (ℕ → UInt8)) (result : Bool) : Option (Int64 × Kernel H) :=
  if len = 0 then some (E_SUCCESS, s)
  else match s.getHandle pid handle with
    | some (.file inst) => (s.write heap inst len user).map fun
      | (.error e, s) => (e, s)
      | (.ok _, s) => (if result then E_SUCCESS else E_INVALID_MEMORY_RANGE, s)
    | _ => some (E_INVALID, s)

def setTable (h : H) : Kernel H :=
  { s with heap := h, procs := update s.procs pid { s.procs pid with handleTable := table } }

def setSlot (i : ℕ) (t : HandleType) : Vec (Option HandleType) :=
  ⟨table.data.set i (some t), table.cap, by rw [length_set]; exact table.le_cap⟩

/-- `add_handle_to_proc`: the first free slot, or a new one. -/
def addHandleToProc (t : HandleType) : Option (Int64 × Kernel H) :=
  let table := (s.procs pid).handleTable
  match table.data.findIdx? (·.isNone) with
  | some i => some ((UInt64.ofNat i).toInt64, s.setTable pid (setSlot table i t) s.heap)
  | none => (table.push heap entrySize isizeMax (some t) s.heap).map fun (table, h) =>
    ((UInt64.ofNat (table.data.length - 1)).toInt64, s.setTable pid table h)

/-- `place_handle_in_proc`: the table is padded up to the slot. -/
def placeHandleInProc (index : UInt64) (t : HandleType) : Option (Kernel H) :=
  let table := (s.procs pid).handleTable
  (Vec.pad heap entrySize isizeMax none (index.toNat + 1 - table.data.length) table s.heap).map
    fun (table, h) => s.setTable pid (setSlot table index.toNat t) h

/-- The process that a duplicate goes to: the caller, or a suspended process of which it has a handle. -/
def dupTarget (target : UInt64) : Except Int64 ℕ :=
  if target.toInt64 = -1 then .ok pid
  else match s.getHandle pid target with
    | some (.process q) => if (s.procs q).isSuspended then .ok q else .error E_NOPERM
    | _ => .error E_INVALID

def sysDuplicate (target old new inherit : UInt64) : Option (Int64 × Kernel H) :=
  if inherit ≠ 0 ∧ inherit ≠ 1 then some (E_INVALID, s)
  else match s.getHandle pid old with
    | none => some (E_INVALID, s)
    | some handle =>
      match s.dupTarget pid target with
      | .error e => some (e, s)
      | .ok q =>
        let t : HandleType := ⟨handle, inherit != 0⟩
        if new.toInt64 = -1 then s.addHandleToProc heap entrySize q t
        else (s.placeHandleInProc heap entrySize q new t).map fun s => (new.toInt64, s)

/-- The calls of a program, and what the rest of the kernel does to the heap in between. -/
inductive Call (H : Type) where
  | seek (handle offset whence : UInt64)
  | write (handle len : UInt64) (user : Option (ℕ → UInt8)) (result : Bool)
  | duplicate (target old new inherit : UInt64)
  | elsewhere (h : H)

def step : ℕ × Call H → Option (Kernel H)
  | (pid, .seek handle offset whence) => some (s.sysSeek pid handle offset whence).2
  | (pid, .write handle len user result) => (s.sysWrite heap pid handle len user result).map (·.2)
  | (pid, .duplicate target old new inherit) =>
    (s.sysDuplicate heap entrySize pid target old new inherit).map (·.2)
  | (_, .elsewhere h) => some { s with heap := h }

/-! ## The calls that return -/

/-- The heap has the bytes for a file that is to reach `stop`. -/
def FileRoom (stop : ℕ) (h : H) : Prop :=
  match data with
  | .owned v => Vec.Room heap 1 isizeMax v.cap stop h
  | .static bytes =>
    if bytes = [] then Vec.Room heap 1 isizeMax 0 stop h
    else ∃ h', heap.alloc bytes.length h = some h' ∧ Vec.Room heap 1 isizeMax bytes.length stop h'

/-- The heap has the slots for a handle table with the slot `new`; -1 asks for any slot. -/
def TableRoom (q : ℕ) (new : UInt64) : Prop :=
  let table := (s.procs q).handleTable
  if new.toInt64 = -1 then
    none ∈ table.data ∨ Vec.Room heap entrySize isizeMax table.cap (table.data.length + 1) s.heap
  else Vec.Grows heap entrySize isizeMax (max table.data.length (new.toNat + 1)) table.cap s.heap

/-- What the kernel expects of a call. -/
def Fits : ℕ × Call H → Prop
  | (_, .seek ..) => True
  | (pid, .write handle len _ _) => len ≠ 0 → ∀ inst, s.getHandle pid handle = some (.file inst) →
      (s.insts inst).isDir = false → s.stopFs = false →
      ∀ data, (s.nodes (s.insts inst).node).kind = .file data → (s.insts inst).offset.toNat + len.toNat < 2 ^ 64 ∧
          FileRoom heap data ((s.insts inst).offset.toNat + len.toNat) s.heap
  | (pid, .duplicate target old new inherit) => inherit = 0 ∨ inherit = 1 →
      (s.getHandle pid old).isSome = true → ∀ q, s.dupTarget pid target = .ok q → s.TableRoom heap entrySize q new
  | (_, .elsewhere _) => True

variable {heap entrySize} {s t : Kernel H} {pid inst : ℕ}
variable {data : FileData} {h : H} {cur len : UInt64} {user : Option (ℕ → UInt8)} {stop : UInt64} {v w : Vec UInt8}

theorem fileRoom_iff {stop : ℕ} : FileRoom heap data stop h ↔
    ∃ v h', makeOwned heap data h = some (v, h') ∧ Vec.Room heap 1 isizeMax v.cap stop h' := by
  unfold FileRoom makeOwned
  cases data with
  | owned v => simp
  | static bytes =>
    simp only
    split_ifs with hb
    · simp [Vec.empty]
    constructor
    · rintro ⟨h', ha, hr⟩
      exact ⟨_, h', by rw [ha]; rfl, hr⟩
    · rintro ⟨v, h', hm, hr⟩
      obtain ⟨h₁, ha, hv⟩ := Option.map_eq_some_iff.1 hm
      cases hv
      exact ⟨_, ha, hr⟩

theorem resizeTo_isSome_iff :
    (resizeTo heap v stop h).isSome = true ↔ Vec.Room heap 1 isizeMax v.cap stop.toNat h := by
  unfold resizeTo
  split_ifs with hlt
  · rw [Vec.resize, Vec.extend_isSome_iff, length_replicate, Nat.add_sub_cancel' hlt.le]
  · exact ⟨fun _ => .inl ((not_lt.1 hlt).trans v.le_cap), fun _ => rfl⟩

theorem resizeTo_data {h' : H} (hr : resizeTo heap v stop h = some (w, h')) :
    stop.toNat ≤ w.data.length ∧ v.data <+: w.data := by
  unfold resizeTo at hr
  split_ifs at hr with hlt
  · rw [Vec.extend_data hr]
    refine ⟨?_, prefix_append _ _⟩
    rw [length_append, length_replicate]
    omega
  · cases hr
    exact ⟨not_lt.1 hlt, prefix_rfl⟩

theorem le_add_iff (cur len : UInt64) : cur.toNat ≤ (cur + len).toNat ↔ cur.toNat + len.toNat < 2 ^ 64 := by
  have h1 := cur.toNat_lt
  have h2 := len.toNat_lt
  rw [UInt64.toNat_add]
  omega

theorem toNat_add_of_le (h : cur.toNat ≤ (cur + len).toNat) : (cur + len).toNat = cur.toNat + len.toNat := by
  rw [UInt64.toNat_add, Nat.mod_eq_of_lt ((le_add_iff cur len).1 h)]

theorem store_eq_some {h₂ : H} (hs : store heap data cur len user h = some (w, h₂)) :
    cur.toNat ≤ (cur + len).toNat ∧ ∃ v h₁ u, makeOwned heap data h = some (v, h₁) ∧
    resizeTo heap v (cur + len) h₁ = some (u, h₂) := by
  obtain ⟨⟨v, h₁⟩, hm, hs⟩ := Option.bind_eq_some_iff.1 hs
  obtain ⟨⟨u, h₃⟩, hr, hs⟩ := Option.bind_eq_some_iff.1 hs
  dsimp only at hr hs
  split at hs
  · rename_i hle
    refine ⟨hle.1, v, h₁, u, hm, ?_⟩
    cases user <;> cases hs <;> exact hr
  · cases hs

theorem store_isSome_iff (user : Option (ℕ → UInt8)) : (store heap data cur len user h).isSome =
    true ↔ cur.toNat + len.toNat < 2 ^ 64 ∧ FileRoom heap data (cur.toNat + len.toNat) h := by
  rw [← le_add_iff, fileRoom_iff]
  constructor
  · intro hs
    obtain ⟨⟨w, h₂⟩, hw⟩ := Option.isSome_iff_exists.1 hs
    obtain ⟨hle, v, h₁, u, hm, hr⟩ := store_eq_some hw
    refine ⟨hle, v, h₁, hm, ?_⟩
    rw [← toNat_add_of_le hle]
    exact resizeTo_isSome_iff.1 (by rw [hr]; rfl)
  · rintro ⟨hle, v, h₁, hm, hroom⟩
    rw [← toNat_add_of_le hle] at hroom
    obtain ⟨⟨w, h₂⟩, hr⟩ := Option.isSome_iff_exists.1 (resizeTo_isSome_iff.2 hroom)
    simp only [store, hm, hr, Option.bind_some]
    rw [dif_pos ⟨hle, (resizeTo_data hr).1⟩]
    cases user <;> rfl

/-- **Writing to a file in memory** returns exactly if the range does not wrap around and the heap has the bytes.
-/
theorem write_isSome_iff : (s.write heap inst len user).isSome = true ↔
    ((s.insts inst).isDir = false → s.stopFs = false → ∀ data, (s.nodes (s.insts inst).node).kind =
    .file data → (s.insts inst).offset.toNat + len.toNat < 2 ^ 64 ∧ FileRoom heap data
    ((s.insts inst).offset.toNat + len.toNat) s.heap) := by
  simp only [write, ← store_isSome_iff user]
  cases (s.insts inst).isDir with
  | true => simp
  | false =>
  cases s.stopFs with
  | true => simp
  | false =>
  cases (s.nodes (s.insts inst).node).kind with
  | other => simp
  | file data => simp

theorem addHandleToProc_isSome_iff {t : HandleType} : (s.addHandleToProc heap entrySize pid t).isSome = true ↔
      none ∈ (s.procs pid).handleTable.data ∨ Vec.Room heap entrySize isizeMax (s.procs pid).handleTable.cap
        ((s.procs pid).handleTable.data.length + 1) s.heap := by
  simp only [addHandleToProc]
  generalize (s.procs pid).handleTable = table
  cases hf : table.data.findIdx? (·.isNone) with
  | some i =>
    obtain ⟨hlt, hi, -⟩ := findIdx?_eq_some_iff_getElem.1 hf
    have hmem : none ∈ table.data := Option.isNone_iff_eq_none.1 hi ▸ getElem_mem hlt
    simp [hmem]
  | none =>
    have hno : none ∉ table.data := fun h => by
      have := findIdx?_eq_none_iff.1 hf none h
      simp at this
    rw [or_iff_right hno, Option.isSome_map, Vec.push, Vec.extend_isSome_iff]
    rfl

/-- **Placing a handle** returns, exactly if the heap has every table on the way to the slot. -/
theorem placeHandleInProc_isSome_iff {index : UInt64} {t : HandleType} :
    (s.placeHandleInProc heap entrySize pid index t).isSome = true ↔
      Vec.Grows heap entrySize isizeMax (max (s.procs pid).handleTable.data.length (index.toNat + 1))
        (s.procs pid).handleTable.cap s.heap := by
  unfold placeHandleInProc
  rw [Option.isSome_map, Vec.pad_isSome_iff]
  congr! 1
  omega

theorem sysDuplicate_isSome_iff {target old new inherit : UInt64} :
    (s.sysDuplicate heap entrySize pid target old new inherit).isSome = true ↔
      (inherit = 0 ∨ inherit = 1 → (s.getHandle pid old).isSome = true →
        ∀ q, s.dupTarget pid target = .ok q → s.TableRoom heap entrySize q new) := by
  simp only [sysDuplicate, TableRoom]
  by_cases hi : inherit = 0 ∨ inherit = 1
  · rw [if_neg (by tauto)]
    cases s.getHandle pid old with
    | none => simp
    | some handle =>
      cases s.dupTarget pid target with
      | error e => simp
      | ok q =>
        by_cases hn : new.toInt64 = -1
        · simp [hn, hi, addHandleToProc_isSome_iff]
        · simp [hn, hi, placeHandleInProc_isSome_iff]
  · rw [if_pos (by tauto)]
    simp [hi]

theorem sysWrite_isSome_iff {handle : UInt64} {result : Bool} :
    (s.sysWrite heap pid handle len user result).isSome = true ↔
      s.Fits heap entrySize (pid, .write handle len user result) := by
  simp only [sysWrite, Fits]
  by_cases hl : len = 0
  · simp [hl]
  rw [if_neg hl]
  rcases s.getHandle pid handle with _ | _ | _ | _
  · simp
  · rename_i inst
    simp only [Option.isSome_map, write_isSome_iff, hl, ne_eq, not_false_eq_true, forall_const,
      Option.some.injEq, Handle.file.injEq, forall_eq']
  · simp
  · simp

/-- **A call returns**, with or without an error, exactly if it fits. -/
theorem step_isSome_iff (s : Kernel H) (c : ℕ × Call H) :
    (s.step heap entrySize c).isSome = true ↔ s.Fits heap entrySize c := by
  obtain ⟨pid, _ | _ | _ | _⟩ := c
  · simp [step, Fits]
  · rw [step, Option.isSome_map]
    exact sysWrite_isSome_iff
  · rw [step, Option.isSome_map]
    exact sysDuplicate_isSome_iff
  · simp [step, Fits]

/-- **Runs**: the kernel performs each call or returns an error, exactly if no range wraps around and the heap
suffices. -/
theorem exec_returns_iff (s : Kernel H) (calls : List (ℕ × Call H)) :
    (exec (step heap entrySize) s calls).isSome = true ↔
      Along (step heap entrySize) (Fits heap entrySize) s calls :=
  exec_isSome_iff step_isSome_iff

/-- A heap that gives out bytes as long as there are any. -/
def byteHeap : Heap ℕ where
  alloc n h := if n ≤ h then some (h - n) else none
  dealloc n h := h + n

def oneFile : Kernel ℕ where
  heap := 4096
  stopFs := false
  nodes _ := ⟨.file (.static []), 0⟩
  insts _ := ⟨false, 0, 0⟩
  procs _ := ⟨false, ⟨[some ⟨.file 0, false⟩], 4, by decide⟩⟩

theorem oneFile_seek_write {offset : UInt64} (hl : len ≠ 0) (hpos : ¬ offset.toInt64 < 0)
    (hno : ¬ (offset.toNat + len.toNat < 2 ^ 64 ∧ Vec.Room byteHeap 1 isizeMax 0
    (offset.toNat + len.toNat) 4096)) : exec (step byteHeap 24) oneFile
    [(0, .seek 0 offset SEEK_SET), (0, .write 0 len (some fun _ => 0) true)] = none := by
  have hseek : (oneFile.sysSeek 0 0 offset SEEK_SET).2 =
      { oneFile with insts := update oneFile.insts 0 ⟨false, 0, offset⟩ } := by
    have hget : oneFile.getHandle 0 0 = some (.file 0) := rfl
    simp only [sysSeek, hget, if_true, if_neg hpos]
    rfl
  have hwrite : ¬ (step byteHeap 24 (oneFile.sysSeek 0 0 offset SEEK_SET).2
      (0, .write 0 len (some fun _ => 0) true)).isSome = true := by
    rw [step_isSome_iff, hseek]
    exact fun hfits => hno (hfits hl 0 rfl rfl rfl _ rfl)
  rw [Option.not_isSome_iff_eq_none] at hwrite
  rw [exec, step, Option.bind_some, exec, hwrite, Option.bind_none]

/-- A write far behind the end, one whose range wraps around, and a handle in a far slot panic the kernel. -/
theorem offsets_and_slots_panic : exec (step byteHeap 24) oneFile [(0, .seek 0 0x4000000000000000 SEEK_SET), (0,
    .write 0 1 (some fun _ => 0) true)] = none ∧ exec (step byteHeap 24) oneFile [(0, .seek 0 10 SEEK_SET), (0,
    .write 0 0xffffffffffffffff (some fun _ => 0) true)] = none ∧ exec (step byteHeap 24) oneFile [(0,
    .duplicate 0xffffffffffffffff 0 1000 0)] = none := by
  refine ⟨oneFile_seek_write (by decide) (by decide) (by decide +kernel),
    oneFile_seek_write (by decide) (by decide) (by decide +kernel), ?_⟩
  exact Option.not_isSome_iff_eq_none.1 (by decide +kernel)

end Kernel

end Archis.Fs
