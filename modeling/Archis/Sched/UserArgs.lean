/-
  The arguments of a user process: `sys_create_process_handler` reads them from the memory of the caller, and
  `push_args_and_envp_to_user_stack` lays them out on the stack of the new process (`sched/user.rs`).  They arrive
  intact exactly if the block fits the stack of ten pages (`intact_iff`).
-/
import Archis.Word
import Archis.Lib.Bytes
import Archis.Lib.Utf

namespace Archis.Sched

open Archis.Lib
open List (length_replicate replicate)
open List hiding utf8Encode

/-! ## Reading the memory of the caller -/

/-- The memory of the calling process, and what `check_user_range_locked` says of a range. -/
structure UserMem where
  byte : ℕ → UInt8
  valid : ℕ → ℕ → Bool

namespace UserMem

variable (m : UserMem)

def load (a n : ℕ) : List UInt8 := (List.range n).map fun i => m.byte (wadd a i)

def copyFromUser (a n : ℕ) : Option (List UInt8) :=
  if n = 0 then some [] else if m.valid a n then some (m.load a n) else none

/-- `STRLEN_SCAN_CHUNK` -/
def SCAN_CHUNK : ℕ := 128

/-- The chunk `read_c_strlen` scans next does not cross a page. -/
def scanLen (cur : ℕ) : ℕ :=
  let dist := wsub (wadd cur (PAGE_SIZE - 1) / PAGE_SIZE * PAGE_SIZE) cur
  min (if dist = 0 then PAGE_SIZE else dist) SCAN_CHUNK

theorem scanLen_pos (cur : ℕ) : 0 < scanLen cur := by
  unfold scanLen
  dsimp only
  split_ifs with h
  · decide
  · exact Nat.lt_min.2 ⟨Nat.pos_of_ne_zero h, by decide⟩

/-- The loop of `read_c_strlen`. -/
def scan (cur len total : ℕ) : Option ℕ :=
  (m.copyFromUser cur (scanLen cur)).bind fun buf =>
    match buf.findIdx? (· = 0) with
    | some i => some (len + i)
    | none =>
      if 2 * PAGE_SIZE ≤ total + scanLen cur then none
      else scan (wadd cur (scanLen cur)) (len + scanLen cur) (total + scanLen cur)
termination_by 2 * PAGE_SIZE - total
decreasing_by
  have := scanLen_pos cur
  omega

def readCStrlen (start : ℕ) : Option ℕ := m.scan start 0 0

/-- `String::from_utf8`; a string is its bytes. -/
def fromUtf8 (buf : List UInt8) : Option (List UInt8) := if (utf8Decode buf).isSome then some buf else none

def readUserString (ptr : ℕ) : Option (List UInt8) := do
  let len ← m.readCStrlen ptr
  if len = 0 then some []
  else fromUtf8 (← m.copyFromUser ptr len)

def MAX_ENVP_ENTRIES : ℕ := 256

/-- The loop of `read_user_envp`, with the number of entries that it still looks at. -/
def readEntries (ptr : ℕ) : ℕ → ℕ → Option (List (List UInt8))
  | 0, _ => some []
  | n + 1, idx => do
    let entry := ofLe (← m.copyFromUser (wadd ptr (idx * 8)) 8)
    if entry = 0 then some []
    else
      let s ← m.readUserString entry
      let rest ← readEntries ptr n (idx + 1)
      some (s :: rest)

def readUserEnvp (ptr : ℕ) : Option (List (List UInt8)) :=
  if ptr = 0 then some [] else m.readEntries ptr MAX_ENVP_ENTRIES 0

/-- Why the system call does not get to `create_process`. -/
inductive Refusal where
  /-- `E_INVALID` -/
  | invalid
  /-- `E_INVALID_MEMORY_RANGE` -/
  | invalidMemoryRange
  /-- The kernel has no memory for the lists, and stops. -/
  | noMemory
  deriving DecidableEq

def okOr {α : Type} (e : Refusal) : Option α → Except Refusal α
  | none => .error e
  | some a => .ok a

def readCommand (s : ℕ) : Except Refusal (List UInt8) := do
  let len ← okOr .invalidMemoryRange (m.readCStrlen s)
  let buf ← okOr .invalidMemoryRange (m.copyFromUser s len)
  okOr .invalid (fromUtf8 buf)

/-- The strings that are held at the same time: a `String` has 24 bytes, and its text is on the heap. -/
def heldBytes (strs : List (List UInt8)) : ℕ := (strs.map fun s => s.length + 24).sum

/-- `sys_create_process_handler`: the arguments and the environment of the new process. -/
def sysCreateProcess (args0 len args2 : ℕ) : Except Refusal (List (List UInt8) × List (List UInt8)) :=
  if args0 = 0 ∨ len = 0 then .error .invalid
  else if isizeMax < len * 8 then .error .noMemory
  else do
    let _ ← okOr .invalidMemoryRange (m.copyFromUser args0 (len * 8))
    let argv ← ((List.range len).map fun i => ofLe (m.load (wadd args0 (i * 8)) 8)).mapM m.readCommand
    let envp ← okOr .invalidMemoryRange (m.readUserEnvp args2)
    if isizeMax < heldBytes (argv ++ envp) then .error .noMemory else .ok (argv, envp)

end UserMem

/-! ## The stack -/

def INIT_STACK_SIZE : ℕ := PAGE_SIZE * 10

def INIT_GUARD_PAGE_SIZE : ℕ := PAGE_SIZE

/-- A stack from `new_user_stack`: pages of the address space, the first of them not mapped. -/
structure UserStack where
  base : ℕ
  aligned : PAGE_SIZE ∣ base
  bound : base + INIT_GUARD_PAGE_SIZE + INIT_STACK_SIZE < 2 ^ 64

namespace UserStack

/-- `get_stack_top`: the lower end. -/
def getStackTop (st : UserStack) : ℕ := st.base + INIT_GUARD_PAGE_SIZE

/-- `get_stack_base`: the upper end, where the stack starts. -/
def getStackBase (st : UserStack) : ℕ := st.base + INIT_GUARD_PAGE_SIZE + INIT_STACK_SIZE

end UserStack

/-- `block[i..i + d.len()].copy_from_slice(d)`, which panics outside the block. -/
def copySlice (block : List UInt8) (i : ℕ) (d : List UInt8) : Option (List UInt8) :=
  if i + d.length ≤ block.length then some (splice block i d) else none

/-- The loops of `push_args_and_envp_to_user_stack`: the block and `str_cursor`. -/
def stage (rsp ptrsOff : ℕ) : List (List UInt8) → ℕ → List UInt8 × ℕ → Option (List UInt8 × ℕ)
  | [], _, st => some st
  | arg :: args, idx, (block, cursor) => do
    let block ← copySlice block (ptrsOff + 8 * idx) (toLe 8 (wadd rsp cursor))
    let block ← copySlice block cursor arg
    stage rsp ptrsOff args (idx + 1) (block, cursor + arg.length + 1)

def stringsLen (strs : List (List UInt8)) : ℕ := (strs.map fun s => s.length + 1).sum

def ptrsLen (strs : List (List UInt8)) : ℕ := (strs.length + 1) * 8

/-- `push_args_and_envp_to_user_stack`: `rsp`, and the block that is copied there. -/
def pushArgsAndEnvp (stackTop : ℕ) (args envp : List (List UInt8)) : Option (ℕ × List UInt8) := do
  let headerLen := 8 + ptrsLen args + ptrsLen envp
  let blockLen := headerLen + stringsLen args + stringsLen envp
  let start := wsub stackTop blockLen
  let rsp := start - start % 16
  let blockSize := wsub stackTop rsp
  let block ← copySlice (replicate blockSize 0) 0 (toLe 8 args.length)
  let (block, cursor) ← stage rsp 8 args 0 (block, headerLen)
  let (block, _) ← stage rsp (8 + ptrsLen args) envp 0 (block, cursor)
  some (rsp, block)

/-! ## The reader -/

section
variable (mem : ℕ → UInt8)

def readWord (a : ℕ) : ℕ := ofLe (load mem a 8)

def readStr : ℕ → ℕ → Option (List UInt8)
  | 0, _ => none
  | fuel + 1, a => if mem a = 0 then some [] else (readStr fuel (a + 1)).map (mem a :: ·)

/-- The strings of a pointer array up to `NULL`. -/
def readStrs (fuel : ℕ) : ℕ → ℕ → Option (List (List UInt8))
  | 0, _ => none
  | n + 1, a =>
    if readWord mem a = 0 then some []
    else do
      let s ← readStr mem fuel (readWord mem a)
      let rest ← readStrs fuel n (a + 8)
      some (s :: rest)

/-- The reader of the layout, which looks at no more bytes than the stack has. -/
def readArgs (rsp : ℕ) : Option (List (List UInt8) × List (List UInt8)) := do
  let argc := readWord mem rsp
  let argv := rsp + 8
  let args ← readStrs mem INIT_STACK_SIZE INIT_STACK_SIZE argv
  let envp ← readStrs mem INIT_STACK_SIZE INIT_STACK_SIZE (argv + (argc + 1) * 8)
  if args.length = argc then some (args, envp) else none

end

/-- The arguments arrive: `rsp` is aligned, the block lies in the stack, and the reader finds the strings. -/
def Intact (st : UserStack) (mem : ℕ → UInt8) (argv envp : List (List UInt8)) : Prop :=
  ∃ rsp block, pushArgsAndEnvp st.getStackBase argv envp = some (rsp, block) ∧ rsp % 16 = 0 ∧ (∀ i < block.length,
    st.getStackTop ≤ rsp + i ∧ rsp + i < st.getStackBase) ∧ readArgs (store mem rsp block) rsp = some (argv, envp)

/-- The words and the strings fit the stack. -/
def Fits (argv envp : List (List UInt8)) : Prop :=
  8 * (argv.length + envp.length + 3) + stringsLen argv + stringsLen envp ≤ INIT_STACK_SIZE

instance (argv envp : List (List UInt8)) : Decidable (Fits argv envp) := inferInstanceAs (Decidable (_ ≤ _))

/-! ## What is read -/

namespace UserMem

variable {m : UserMem}

def NoNul (s : List UInt8) : Prop := ∀ b ∈ s, b ≠ 0

variable {n ptr : ℕ} {s : List UInt8} {len start : ℕ} {buf : List UInt8}

theorem copyFromUser_eq {a : ℕ} (h : m.copyFromUser a n = some buf) : buf = m.load a n := by
  unfold copyFromUser at h
  split_ifs at h with h0 hv
  · subst h0
    exact (Option.some.inj h).symm
  · exact (Option.some.inj h).symm

theorem wadd_wadd (a i j : ℕ) : wadd (wadd a i) j = wadd a (i + j) := by
  unfold wadd
  omega

theorem noNul_scan {cur total : ℕ} (h : m.scan cur len total = some n)
    (hcur : ∀ k, wadd cur k = wadd start (len + k)) (hno : ∀ i < len, m.byte (wadd start i) ≠ 0) :
    ∀ i < n, m.byte (wadd start i) ≠ 0 := by
  fun_induction scan m cur len total with
  | case1 cur len total ih =>
    obtain ⟨buf, hbuf, h⟩ := Option.bind_eq_some_iff.1 h
    obtain rfl := copyFromUser_eq hbuf
    split at h
    case h_1 k hk =>
      -- the chunk has a zero, at `k`
      obtain rfl := Option.some.inj h
      obtain ⟨hlt, -, hbefore⟩ := findIdx?_eq_some_iff_getElem.1 hk
      intro i hi
      by_cases hlen : i < len
      · exact hno i hlen
      · have hne := hbefore (i - len) (by omega)
        simp only [load, getElem_map, getElem_range, hcur, decide_eq_true_eq] at hne
        rwa [Nat.add_sub_cancel' (by omega)] at hne
    case h_2 hk =>
      split_ifs at h with htotal
      refine ih htotal h (fun k => ?_) fun i hi => ?_
      · rw [wadd_wadd, hcur, Nat.add_assoc]
      by_cases hlen : i < len
      · exact hno i hlen
      · have hne := findIdx?_eq_none_iff.1 hk (m.byte (wadd cur (i - len)))
          (mem_map.2 ⟨i - len, mem_range.2 (by omega), rfl⟩)
        rw [hcur, Nat.add_sub_cancel' (by omega)] at hne
        exact of_decide_eq_false hne

theorem noNul_load (h : m.readCStrlen start = some n) : NoNul (m.load start n) := by
  unfold readCStrlen at h
  intro b hb
  obtain ⟨i, hi, rfl⟩ := mem_map.1 hb
  exact noNul_scan h (fun k => by rw [Nat.zero_add]) (by simp) i (mem_range.1 hi)

theorem fromUtf8_eq (h : fromUtf8 buf = some s) : s = buf := by
  unfold fromUtf8 at h
  split_ifs at h
  exact (Option.some.inj h).symm

theorem noNul_readUserString (h : m.readUserString ptr = some s) : NoNul s := by
  obtain ⟨len, hlen, h⟩ := Option.bind_eq_some_iff.1 h
  split_ifs at h with h0
  · cases h
    nofun
  · obtain ⟨buf, hbuf, h⟩ := Option.bind_eq_some_iff.1 h
    rw [fromUtf8_eq h, copyFromUser_eq hbuf]
    exact noNul_load hlen

theorem okOr_eq_ok {α : Type} {e : Refusal} {o : Option α} {a : α} (h : okOr e o = .ok a) : o = some a := by
  cases o with
  | none => cases h
  | some b => exact congrArg some (Except.ok.inj h)

theorem bind_eq_ok {α β : Type} {x : Except Refusal α} {f : α → Except Refusal β} {b : β} (h : x >>= f = .ok b) :
    ∃ a, x = .ok a ∧ f a = .ok b := by
  cases x with
  | error e => cases h
  | ok a => exact ⟨a, rfl, h⟩

theorem noNul_readCommand (h : m.readCommand ptr = .ok s) : NoNul s := by
  obtain ⟨len, hlen, h⟩ := bind_eq_ok h
  obtain ⟨buf, hbuf, h⟩ := bind_eq_ok h
  rw [fromUtf8_eq (okOr_eq_ok h), copyFromUser_eq (okOr_eq_ok hbuf)]
  exact noNul_load (okOr_eq_ok hlen)

theorem noNul_readEntries : ∀ {n idx : ℕ} {strs : List (List UInt8)},
    m.readEntries ptr n idx = some strs → ∀ s ∈ strs, NoNul s
  | 0, _, _, h => by
    cases h
    nofun
  | n + 1, idx, strs, h => by
    obtain ⟨b, hb, h⟩ := Option.bind_eq_some_iff.1 h
    dsimp only at h
    split_ifs at h
    · cases h
      nofun
    obtain ⟨s, hs, h⟩ := Option.bind_eq_some_iff.1 h
    obtain ⟨rest, hrest, h⟩ := Option.bind_eq_some_iff.1 h
    cases h
    intro t ht
    rcases mem_cons.1 ht with rfl | ht
    · exact noNul_readUserString hs
    · exact noNul_readEntries hrest t ht

theorem noNul_mapM : ∀ {ptrs : List ℕ} {strs : List (List UInt8)},
    ptrs.mapM m.readCommand = .ok strs → ∀ s ∈ strs, NoNul s
  | [], _, h => by
    cases h
    nofun
  | ptr :: ptrs, strs, h => by
    rw [mapM_cons] at h
    obtain ⟨s, hs, h⟩ := bind_eq_ok h
    obtain ⟨rest, hrest, h⟩ := bind_eq_ok h
    cases h
    intro t ht
    rcases mem_cons.1 ht with rfl | ht
    · exact noNul_readCommand hs
    · exact noNul_mapM hrest t ht

/-- **What the system call accepts**: strings without zeros that fit in memory. -/
theorem sysCreateProcess_ok {args0 args2 : ℕ} {argv envp : List (List UInt8)}
    (h : m.sysCreateProcess args0 len args2 = .ok (argv, envp)) :
    (∀ s ∈ argv, NoNul s) ∧ (∀ s ∈ envp, NoNul s) ∧ heldBytes (argv ++ envp) ≤ isizeMax := by
  unfold sysCreateProcess at h
  split_ifs at h
  obtain ⟨_, -, h⟩ := bind_eq_ok h
  obtain ⟨argv', hargv, h⟩ := bind_eq_ok h
  obtain ⟨envp', henvp, h⟩ := bind_eq_ok h
  split_ifs at h with hheld
  cases h
  refine ⟨noNul_mapM hargv, ?_, Nat.le_of_not_lt hheld⟩
  replace henvp := okOr_eq_ok henvp
  unfold readUserEnvp at henvp
  split_ifs at henvp
  · cases henvp
    nofun
  · exact noNul_readEntries henvp

end UserMem

open UserMem (NoNul fromUtf8 heldBytes)

/-! ## What is in the block -/

def packed (strs : List (List UInt8)) : List UInt8 := strs.flatMap (· ++ [0])

/-- The pointers to strings that are packed from `cursor` on. -/
def pointers (rsp : ℕ) : ℕ → List (List UInt8) → List UInt8
  | _, [] => []
  | cursor, s :: strs => toLe 8 (wadd rsp cursor) ++ pointers rsp (cursor + s.length + 1) strs

theorem packed_cons (s : List UInt8) (strs : List (List UInt8)) :
    packed (s :: strs) = (s ++ [0]) ++ packed strs := rfl

@[simp] theorem length_packed : ∀ strs : List (List UInt8), (packed strs).length = stringsLen strs
  | [] => rfl
  | s :: strs => by
    have ih := length_packed strs
    simp only [packed, stringsLen, flatMap_cons, length_append, map_cons, sum_cons,
      length_singleton] at ih ⊢
    rw [ih]

@[simp] theorem length_pointers (rsp : ℕ) : ∀ (cursor : ℕ) (strs : List (List UInt8)),
    (pointers rsp cursor strs).length = 8 * strs.length
  | _, [] => rfl
  | cursor, s :: strs => by
    rw [pointers, length_append, length_toLe, length_pointers, length_cons]
    omega

theorem stringsLen_cons (s : List UInt8) (strs : List (List UInt8)) :
    stringsLen (s :: strs) = s.length + 1 + stringsLen strs := by
  simp [stringsLen]

theorem copySlice_append {a z b d : List UInt8} {i : ℕ} (hi : i = a.length) (hz : z.length = d.length) :
    copySlice (a ++ (z ++ b)) i d = some (a ++ (d ++ b)) := by
  subst hi
  rw [copySlice, if_pos (by simp only [length_append]; omega), splice, ← hz]
  simp

/-- **One list of strings.**  Its pointers go to the zeros after `a`, its strings to the zeros after `c`. -/
theorem stage_eq (rsp ptrsOff : ℕ) : ∀ (strs : List (List UInt8)) (idx cursor : ℕ) (a c r : List UInt8), ptrsOff + 8
    * idx = a.length → cursor = a.length + 8 * strs.length + c.length → stage rsp ptrsOff strs idx
      (a ++ (replicate (8 * strs.length) 0 ++ (c ++ (replicate (stringsLen strs) 0 ++ r))), cursor) =
      some (a ++ (pointers rsp cursor strs ++ (c ++ (packed strs ++ r))), cursor + stringsLen strs)
  | [], idx, cursor, a, c, r, _, _ => by simp [stage, pointers, packed, stringsLen]
  | s :: strs, idx, cursor, a, c, r, ha, hc => by
    have hlen : (s :: strs).length = strs.length + 1 := rfl
    have hzeros : replicate (8 * (s :: strs).length) (0 : UInt8) =
        replicate 8 0 ++ replicate (8 * strs.length) 0 := by
      rw [replicate_append_replicate, hlen]
      congr 1
      omega
    have hstr : replicate (stringsLen (s :: strs)) (0 : UInt8) =
        replicate s.length 0 ++ ([0] ++ replicate (stringsLen strs) 0) := by
      rw [stringsLen_cons, ← replicate_one, replicate_append_replicate, replicate_append_replicate]
      congr 1
      omega
    -- the pointer
    have h1 := copySlice_append (a := a) (z := replicate 8 0) (d := toLe 8 (wadd rsp cursor))
      (b := replicate (8 * strs.length) 0 ++ (c ++ (replicate (stringsLen (s :: strs)) 0 ++ r))) ha (by simp)
    -- the string
    have h2 := copySlice_append (a := a ++ (toLe 8 (wadd rsp cursor) ++ (replicate (8 * strs.length) 0 ++ c)))
      (z := replicate s.length 0) (d := s) (b := [0] ++ (replicate (stringsLen strs) 0 ++ r))
      (i := cursor) (by simp only [hc, hlen, length_append, length_toLe, length_replicate]; omega) (by simp)
    have ih := stage_eq rsp ptrsOff strs (idx + 1) (cursor + s.length + 1) (a ++ toLe 8 (wadd rsp cursor))
      (c ++ (s ++ [0])) r (by simp only [length_append, length_toLe]; omega)
      (by simp only [hc, hlen, length_append, length_toLe, length_singleton]; omega)
    simp only [hstr, append_assoc] at h1 h2 ih
    rw [stage, hzeros, hstr]
    simp only [append_assoc, h1, Option.bind_eq_bind, Option.bind_some, h2, ih]
    rw [pointers, packed_cons, stringsLen_cons]
    simp only [append_assoc, Nat.add_assoc]

/-- The block, with `pad` bytes at its end. -/
def blockOf (rsp : ℕ) (args envp : List (List UInt8)) (pad : ℕ) : List UInt8 :=
  let headerLen := 8 + ptrsLen args + ptrsLen envp
  toLe 8 args.length ++ (pointers rsp headerLen args ++ (replicate 8 0 ++
    (pointers rsp (headerLen + stringsLen args) envp ++ (replicate 8 0 ++
      (packed args ++ (packed envp ++ replicate pad 0))))))

def blockLen (argv envp : List (List UInt8)) : ℕ :=
  8 + ptrsLen argv + ptrsLen envp + stringsLen argv + stringsLen envp

variable {start : ℕ} {envp argv : List (List UInt8)}

theorem pushArgsAndEnvp_eq {stackTop rsp pad : ℕ} {args : List (List UInt8)}
    (hstart : start = wsub stackTop (blockLen args envp)) (hrsp : rsp = start - start % 16)
    (hpad : wsub stackTop rsp = blockLen args envp + pad) :
    pushArgsAndEnvp stackTop args envp = some (rsp, blockOf rsp args envp pad) := by
  have hzeros : replicate (wsub stackTop rsp) (0 : UInt8) =
      replicate 8 0 ++ (replicate (8 * args.length) 0 ++ (replicate 8 0 ++
        (replicate (8 * envp.length) 0 ++ (replicate 8 0 ++ (replicate (stringsLen args) 0 ++
          (replicate (stringsLen envp) 0 ++ replicate pad 0)))))) := by
    simp only [replicate_append_replicate, hpad, blockLen, ptrsLen]
    congr 1
    omega
  have h0 : ∀ b, copySlice (replicate 8 0 ++ b) 0 (toLe 8 args.length) = some (toLe 8 args.length ++ b) :=
    fun b => copySlice_append (a := []) (z := replicate 8 0) rfl (by simp)
  have h1 := stage_eq rsp 8 args 0 (8 + ptrsLen args + ptrsLen envp) (toLe 8 args.length)
    (replicate 8 0 ++ (replicate (8 * envp.length) 0 ++ replicate 8 0))
    (replicate (stringsLen envp) 0 ++ replicate pad 0) (by simp)
    (by simp only [ptrsLen, length_append, length_toLe, length_replicate]; omega)
  have h2 := stage_eq rsp (8 + ptrsLen args) envp 0 (8 + ptrsLen args + ptrsLen envp + stringsLen args)
    (toLe 8 args.length ++ (pointers rsp (8 + ptrsLen args + ptrsLen envp) args ++ replicate 8 0))
    (replicate 8 0 ++ packed args) (replicate pad 0)
    (by simp only [ptrsLen, length_append, length_toLe, length_pointers, length_replicate]; omega)
    (by simp only [ptrsLen, length_append, length_toLe, length_pointers, length_replicate,
          length_packed]; omega)
  simp only [append_assoc] at h1 h2
  unfold pushArgsAndEnvp
  dsimp only
  rw [← blockLen, ← hstart, ← hrsp, hzeros, h0]
  simp only [Option.bind_eq_bind, Option.bind_some, h1, h2, blockOf]

theorem length_blockOf (rsp : ℕ) (args envp : List (List UInt8)) (pad : ℕ) :
    (blockOf rsp args envp pad).length = blockLen args envp + pad := by
  simp only [blockOf, blockLen, ptrsLen, length_append, length_toLe, length_pointers, length_replicate,
    length_packed]
  omega

/-! ## What the reader finds -/

section
variable {mem : ℕ → UInt8} {a : ℕ}

def Holds (mem : ℕ → UInt8) (a : ℕ) (d : List UInt8) : Prop := load mem a d.length = d

theorem holds_append {x y : List UInt8} : Holds mem a (x ++ y) ↔ Holds mem a x ∧ Holds mem (a + x.length) y := by
  have hload : load mem a (x ++ y).length = load mem a x.length ++ load mem (a + x.length) y.length := by
    rw [load, length_append, range_add, map_append, map_map, load, load]
    simp only [Function.comp_def, Nat.add_assoc]
  rw [Holds, hload]
  exact ⟨fun h => append_inj h (by simp), fun h => congrArg₂ (· ++ ·) h.1 h.2⟩

theorem Holds.readWord {v : ℕ} (h : Holds mem a (toLe 8 v)) (hv : v < 2 ^ 64) : readWord mem a = v := by
  rw [Holds, length_toLe] at h
  rw [Sched.readWord, h]
  exact ofLe_toLe_of_lt hv

theorem holds_cons {b : UInt8} {d : List UInt8} : Holds mem a (b :: d) ↔ mem a = b ∧ Holds mem (a + 1) d := by
  rw [← singleton_append, holds_append]
  simp [Holds, load]

theorem Holds.readStr : ∀ {s : List UInt8} {a fuel : ℕ}, Holds mem a (s ++ [0]) → NoNul s →
    s.length < fuel → readStr mem fuel a = some s
  | [], a, fuel + 1, h, _, _ => by
    rw [Sched.readStr, if_pos (holds_cons.1 h).1]
  | b :: s, a, fuel + 1, h, hs, hlt => by
    obtain ⟨hb, h⟩ := holds_cons.1 h
    have hb0 : mem a ≠ 0 := hb ▸ hs b (.head _)
    rw [Sched.readStr, if_neg hb0, Holds.readStr h (fun c hc => hs c (.tail _ hc)) (Nat.lt_of_succ_lt_succ hlt), hb]
    rfl

/-- **A pointer array**, and the strings it points to. -/
theorem readStrs_eq {rsp fuel : ℕ} : ∀ {strs : List (List UInt8)} (cursor : ℕ) {a n : ℕ},
    Holds mem a (pointers rsp cursor strs ++ replicate 8 0) → Holds mem (rsp + cursor) (packed strs) →
    (∀ s ∈ strs, NoNul s) → 0 < cursor → rsp + cursor + stringsLen strs < 2 ^ 64 →
    stringsLen strs ≤ fuel → strs.length < n → readStrs mem fuel n a = some strs
  | [], cursor, a, n + 1, hp, _, _, _, _, _, _ => by
    have hnull : Holds mem a (toLe 8 0) := hp
    rw [readStrs, if_pos (hnull.readWord (by decide))]
  | s :: strs, cursor, a, n + 1, hp, hstr, hs, h0, hlt, hfuel, hn => by
    rw [pointers, append_assoc, holds_append, length_toLe] at hp
    rw [packed_cons, holds_append] at hstr
    rw [stringsLen_cons] at hlt hfuel
    have haddr : wadd rsp cursor = rsp + cursor := wadd_eq (by omega)
    have hptr : Sched.readWord mem a = rsp + cursor := Holds.readWord (haddr ▸ hp.1) (by omega)
    have hhead : readStr mem fuel (rsp + cursor) = some s := hstr.1.readStr (hs s (.head _)) (by omega)
    have htail : readStrs mem fuel n (a + 8) = some strs :=
      readStrs_eq (cursor + s.length + 1) hp.2 (by simpa [Nat.add_assoc] using hstr.2)
        (fun t ht => hs t (.tail _ ht)) (by omega) (by omega) (by omega) (Nat.lt_of_succ_lt_succ hn)
    rw [readStrs, if_neg (by omega), hptr, hhead]
    simp only [Option.bind_eq_bind, Option.bind_some, htail]

end

/-! ## The arguments arrive -/

/-- **The reader finds the strings** in a block below the end of the address space. -/
theorem readArgs_blockOf (mem : ℕ → UInt8) {rsp pad : ℕ} (hargv : ∀ s ∈ argv, NoNul s) (henvp : ∀ s ∈ envp, NoNul s)
    (hfits : Fits argv envp) (hlt : rsp + (blockOf rsp argv envp pad).length < 2 ^ 64) : readArgs
    (store mem rsp (blockOf rsp argv envp pad)) rsp = some (argv, envp) := by
  have hlen := length_blockOf rsp argv envp pad
  have hholds : Holds (store mem rsp (blockOf rsp argv envp pad)) rsp (blockOf rsp argv envp pad) :=
    load_store_self mem rsp _
  generalize store mem rsp (blockOf rsp argv envp pad) = mem' at hholds ⊢
  have hheader : 8 + ptrsLen argv + ptrsLen envp = 8 + 8 * argv.length + 8 + 8 * envp.length + 8 := by
    simp only [ptrsLen]
    omega
  rw [hlen, blockLen, hheader] at hlt
  simp only [blockOf, holds_append, length_toLe, length_pointers, length_replicate, length_packed, hheader] at hholds
  obtain ⟨hargc, hptrs, hnull, heptrs, henull, hstrs, hestrs, -⟩ := hholds
  have hsize : 8 * (argv.length + envp.length + 3) + stringsLen argv + stringsLen envp ≤ INIT_STACK_SIZE := hfits
  rw [readArgs]
  generalize INIT_STACK_SIZE = n at hsize ⊢
  have hargs : readStrs mem' n n (rsp + 8) = some argv :=
    readStrs_eq _ (holds_append.2 ⟨hptrs, by rwa [length_pointers]⟩) (by simpa only [Nat.add_assoc] using hstrs)
      hargv (by omega) (by omega) (by omega) (by omega)
  have henv : readStrs mem' n n (rsp + 8 + 8 * argv.length + 8) = some envp :=
    readStrs_eq _ (holds_append.2 ⟨heptrs, by rwa [length_pointers]⟩) (by simpa only [Nat.add_assoc] using hestrs)
      henvp (by omega) (by omega) (by omega) (by omega)
  have hat : rsp + 8 + (argv.length + 1) * 8 = rsp + 8 + 8 * argv.length + 8 := by omega
  simp only [hargc.readWord (by omega), hargs, hat, henv, Option.bind_eq_bind, Option.bind_some, if_true]

theorem fits_iff : Fits argv envp ↔ blockLen argv envp ≤ INIT_STACK_SIZE := by
  simp only [Fits, blockLen, ptrsLen]
  omega

theorem wsub_cases {a b : ℕ} (ha : a < 2 ^ 64) : wsub a b = if b ≤ a then a - b else a + 2 ^ 64 - b := by
  split_ifs with h
  · exact wsub_eq h ha
  · exact Nat.mod_eq_of_lt (by omega)

theorem push_eq {stackTop : ℕ} (htop : stackTop < 2 ^ 64) (hlen : blockLen argv envp ≤ isizeMax +
    24) (hstart : start = wsub stackTop (blockLen argv envp)) : pushArgsAndEnvp stackTop argv envp =
    some (start - start % 16, blockOf (start - start % 16) argv envp (start % 16)) := by
  refine pushArgsAndEnvp_eq hstart rfl ?_
  generalize blockLen argv envp = n at hlen hstart
  simp only [isizeMax] at hlen
  rw [wsub_cases htop] at hstart
  rw [wsub_cases htop]
  split_ifs at hstart ⊢ <;> omega

theorem blockLen_le (argv envp : List (List UInt8)) : blockLen argv envp ≤ heldBytes (argv ++ envp) + 24 := by
  have hone : ∀ strs : List (List UInt8), 8 * strs.length + stringsLen strs ≤ heldBytes strs := by
    intro strs
    induction strs with
    | nil => decide
    | cons s strs ih =>
      simp only [stringsLen, heldBytes, map_cons, sum_cons, length_cons] at ih ⊢
      omega
  have hsum : heldBytes (argv ++ envp) = heldBytes argv + heldBytes envp := by
    simp [heldBytes]
  have h1 := hone argv
  have h2 := hone envp
  simp only [blockLen, ptrsLen]
  omega

theorem start_inside (st : UserStack) {n : ℕ} (hlen : n ≤ isizeMax + 24) (hstart : start = wsub st.getStackBase n) :
    (n ≤ INIT_STACK_SIZE → st.getStackTop ≤ start - start % 16 ∧ start + n = st.getStackBase) ∧
    (INIT_STACK_SIZE < n → ¬ (st.getStackTop ≤ start - start % 16 ∧ start - start % 16 < st.getStackBase)) := by
  obtain ⟨k, hk⟩ := st.aligned
  have hbound : st.getStackBase < 2 ^ 64 := st.bound
  have hbase : st.getStackBase = st.getStackTop + INIT_STACK_SIZE := rfl
  have htop : st.getStackTop = 16 * (256 * (k + 1)) := by
    simp only [UserStack.getStackTop, INIT_GUARD_PAGE_SIZE, hk, PAGE_SIZE]
    omega
  simp only [isizeMax] at hlen
  rw [wsub_cases hbound] at hstart
  generalize st.getStackBase = base at hstart hbase hbound ⊢
  generalize st.getStackTop = top at hbase htop ⊢
  simp only [INIT_STACK_SIZE, PAGE_SIZE] at hbase ⊢
  split_ifs at hstart <;> omega

section
variable {argv envp : List (List UInt8)} (st : UserStack) (mem : ℕ → UInt8)

theorem Fits.intact (hargv : ∀ s ∈ argv, NoNul s) (henvp : ∀ s ∈ envp, NoNul s)
    (hfits : Fits argv envp) : Intact st mem argv envp := by
  have hlen := fits_iff.1 hfits
  have hmax : blockLen argv envp ≤ isizeMax + 24 := hlen.trans (by decide)
  have hbound : st.getStackBase < 2 ^ 64 := st.bound
  obtain ⟨start, hstart⟩ : ∃ start, start = wsub st.getStackBase (blockLen argv envp) := ⟨_, rfl⟩
  obtain ⟨hlow, hhigh⟩ := (start_inside st hmax hstart).1 hlen
  have hblock := length_blockOf (start - start % 16) argv envp (start % 16)
  refine ⟨_, _, push_eq hbound hmax hstart, by omega, fun i hi => ⟨by omega, by omega⟩, ?_⟩
  exact readArgs_blockOf mem hargv henvp hfits (by omega)

theorem not_intact (hheld : heldBytes (argv ++ envp) ≤ isizeMax) (hfits : ¬ Fits argv envp) :
    ¬ Intact st mem argv envp := by
  rintro ⟨rsp, block, hrun, -, hinside, -⟩
  have hmax : blockLen argv envp ≤ isizeMax + 24 := (blockLen_le argv envp).trans (Nat.add_le_add_right hheld 24)
  obtain ⟨start, hstart⟩ : ∃ start, start = wsub st.getStackBase (blockLen argv envp) := ⟨_, rfl⟩
  have hpush := push_eq st.bound hmax hstart
  obtain ⟨rfl, rfl⟩ := Prod.mk.inj (Option.some.inj (hpush.symm.trans hrun))
  have hpos : 0 < (blockOf (start - start % 16) argv envp (start % 16)).length := by
    rw [length_blockOf, blockLen]
    omega
  exact (start_inside st hmax hstart).2 (Nat.lt_of_not_le fun h => hfits (fits_iff.2 h)) (hinside 0 hpos)

end

/-- **The arguments arrive intact exactly if they fit the stack**, for everything that the system call accepts. -/
theorem intact_iff {m : UserMem} {args0 len args2 : ℕ} {argv envp : List (List UInt8)}
    (h : m.sysCreateProcess args0 len args2 = .ok (argv, envp)) (st : UserStack) (mem : ℕ → UInt8) :
    Intact st mem argv envp ↔ Fits argv envp := by
  obtain ⟨hargv, henvp, hheld⟩ := UserMem.sysCreateProcess_ok h
  refine ⟨fun hintact => ?_, fun hfits => hfits.intact st mem hargv henvp⟩
  by_contra hfits
  exact not_intact st mem hheld hfits hintact

/-! ## A command list that is too long -/

/-- Eleven pages of a process: ten pages of pointers to the string `a`, and the page with the string. -/
def sampleMem : UserMem where
  byte := fun a => if a = 0xB000 then 97 else if 0x1000 ≤ a ∧ a < 0xB000 ∧ a % 8 = 1 then 0xB0 else 0
  valid := fun a n => 0x1000 ≤ a ∧ a + n ≤ 0xC000

theorem sampleMem_pointer {i : ℕ} (hi : i < 5120) : ofLe (sampleMem.load (wadd 0x1000 (i * 8)) 8) = 0xB000 := by
  have hload : sampleMem.load (wadd 0x1000 (i * 8)) 8 = (List.range 8).map fun j => if j = 1 then 0xB0 else 0 := by
    refine map_congr_left fun j hj => ?_
    have hj := mem_range.1 hj
    rw [UserMem.wadd_wadd, wadd_eq (by omega)]
    show (if _ then _ else _) = _
    rw [if_neg (by omega)]
    exact if_congr (by omega) rfl rfl
  rw [hload]
  decide

theorem sampleMem_readCommand : sampleMem.readCommand 0xB000 = .ok [97] := by
  have hlen : sampleMem.readCStrlen 0xB000 = some 1 := by
    rw [UserMem.readCStrlen, UserMem.scan]
    decide +kernel
  have hbuf : sampleMem.copyFromUser 0xB000 1 = some [97] := by decide +kernel
  have hutf : fromUtf8 [97] = some [97] := by
    rw [fromUtf8, show ([97] : List UInt8) = utf8Encode ['a'] by decide, utf8Decode_encode]
    rfl
  simp only [UserMem.readCommand, hlen, hbuf, hutf, UserMem.okOr, bind, Except.bind]

theorem mapM_replicate {α β ε : Type} {f : α → Except ε β} {a : α} {b : β} (h : f a = .ok b) : ∀ n : ℕ,
    (replicate n a).mapM f = .ok (replicate n b)
  | 0 => rfl
  | n + 1 => by
    rw [replicate_succ, mapM_cons, h, mapM_replicate h n]
    rfl

theorem sample_lens (n : ℕ) : heldBytes (replicate n [97] ++ []) = n * 25 ∧
    stringsLen (replicate n [97]) = n * 2 := by
  simp [heldBytes, stringsLen]

theorem sampleMem_accepts {n : ℕ} (h0 : 0 < n) (hn : n ≤ 5120) :
    sampleMem.sysCreateProcess 0x1000 n 0 = .ok (replicate n [97], []) := by
  have hcopy : sampleMem.copyFromUser 0x1000 (n * 8) = some (sampleMem.load 0x1000 (n * 8)) := by
    rw [UserMem.copyFromUser, if_neg (by omega), if_pos]
    exact decide_eq_true (by omega)
  have hptrs : ((List.range n).map fun i => ofLe (sampleMem.load (wadd 0x1000 (i * 8)) 8)) =
      replicate n 0xB000 := by
    rw [← length_range (n := n), ← map_const, length_range]
    exact map_congr_left fun i hi => sampleMem_pointer ((mem_range.1 hi).trans_le hn)
  have hmax : isizeMax = 2 ^ 63 - 1 := rfl
  rw [UserMem.sysCreateProcess, if_neg (by omega), if_neg (by omega), hcopy, hptrs,
    mapM_replicate sampleMem_readCommand]
  show (if isizeMax < heldBytes (replicate n [97] ++ []) then _ else _) = _
  rw [(sample_lens n).1, if_neg (by omega)]

def sampleStack : UserStack := ⟨0x400000, by decide, by decide⟩

theorem intact_iff_one : Intact sampleStack (fun _ => 0) [[97]] [] :=
  (intact_iff (sampleMem_accepts (n := 1) (by decide) (by decide)) sampleStack fun _ => 0).2 (by decide)

/-- **Five thousand arguments are accepted, and do not arrive**: the block starts below the stack. -/
theorem many_args_outside : ∃ argv envp, sampleMem.sysCreateProcess 0x1000 5000 0 = .ok (argv, envp) ∧
    ∀ (st : UserStack) (mem : ℕ → UInt8), ¬ Intact st mem argv envp := by
  refine ⟨_, _, sampleMem_accepts (n := 5000) (by decide) (by decide), fun st mem => ?_⟩
  obtain ⟨hheld, hlen⟩ := sample_lens 5000
  refine not_intact st mem (hheld.trans_le (by decide)) fun hfits => ?_
  rw [Fits, length_replicate, hlen] at hfits
  exact absurd hfits (by decide)

end Archis.Sched
