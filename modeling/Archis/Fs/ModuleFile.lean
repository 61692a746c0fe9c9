/-
  Sizes of a file on a module-backed mount: `FileInst` of `fs/file.rs` over a file of the FAT32 module.

  The module keeps one size for all handles to a file, a `FileInst` one of its own.  `exec_oneSize`: they agree, if a
  write past the end comes from the only instance there is and ends below 4 GiB.
-/
import Archis.Lib.Run
import Archis.Word

namespace Archis.Fs

open Archis.Lib

/-! ## The module -/

/-- `SharedFileState`, as far as the size goes. -/
structure SharedSize where
  allocated : Bool
  size : ℕ
  refcount : ℕ
  deriving DecidableEq

/-- A file: its directory entry, and what all handles to it share while there are any. -/
structure ModuleFile where
  entryAllocated : Bool
  entrySize : ℕ
  shared : Option SharedSize
  deriving DecidableEq

/-- How the sectors take a write. -/
inductive WriteIo where
  | done
  /-- `write_file` fails. -/
  | dataFailed
  /-- `patch_dir_entry` fails. -/
  | entryFailed
  deriving DecidableEq

namespace ModuleFile

variable (f : ModuleFile)

def fsStat : ℕ := f.entrySize

/-- `fs_open`: `acquire_open_file`. -/
def fsOpen : ModuleFile :=
  { f with shared := some (match f.shared with
    | some sh => { sh with refcount := sh.refcount + 1 }
    | none => ⟨f.entryAllocated, f.entrySize, 1⟩) }

/-- `fs_close`: `release_open_file`. -/
def fsClose : ModuleFile :=
  { f with shared := f.shared.bind fun sh =>
      if sh.refcount = 1 then none else some { sh with refcount := sh.refcount - 1 } }

/-- The shared state after `write_file` of `len` bytes. -/
def SharedSize.extend (sh : SharedSize) (offset len : ℕ) : SharedSize :=
  { sh with allocated := true, size := max sh.size (wadd offset len) }

/-- `fs_write`: the bytes written, if there was no error. -/
def fsWrite (io : WriteIo) (offset len : ℕ) : Option ℕ × ModuleFile :=
  match f.shared with
  | none => (none, f)
  | some sh =>
    if len = 0 then (some 0, f)
    else match io with
      | .dataFailed => (none, f)
      | _ =>
        let new := SharedSize.extend sh offset len
        if new.allocated ≠ sh.allocated ∨ new.size ≠ sh.size then
          -- the entry has room for 32 bits of the size
          if io = .done then (some len, ⟨true, new.size % 2 ^ 32, some new⟩)
          else (none, { f with shared := some new })
        else (some len, { f with shared := some new })

end ModuleFile

/-! ## Instances -/

/-- `FileInst` with a module as its backing. -/
structure ModInst where
  offset : ℕ
  modSize : ℕ
  deriving DecidableEq

namespace ModInst

def len (i : ModInst) : ℕ := i.modSize

/-- The size in the attributes of `fstat`. -/
def fstat (i : ModInst) : ℕ := i.modSize

/-- The reply of `sys_seek` with `SEEK_END`. -/
def seekEnd (i : ModInst) (delta : Int64) : Option ℕ :=
  let next := (UInt64.ofNat i.len).toInt64 + delta
  if next < 0 then none else some next.toUInt64.toNat

end ModInst

/-- A file, its instances, and the size that they should report. -/
structure Files where
  file : ModuleFile
  insts : ℕ → Option ModInst
  size : ℕ

inductive Call where
  | open (id : ℕ)
  | write (id len : ℕ) (io : WriteIo)
  | seek (id offset : ℕ)
  | close (id : ℕ)

namespace Files

def setInst (s : Files) (id : ℕ) (i : Option ModInst) : Files := { s with insts := Function.update s.insts id i }

/-- `FileInst::write`, with what it returns. -/
def write (s : Files) (id len : ℕ) (io : WriteIo) (i : ModInst) : Files :=
  match s.file.fsWrite io i.offset len with
  | (none, file) => { s with file }
  | (some written, file) =>
    let s := { s with file, size := if len = 0 then s.size else max s.size (i.offset + written) }
    s.setInst id (some ⟨wadd i.offset len, max i.modSize (wadd i.offset written)⟩)

/-- A call; one with an instance that is not open, or that opens one that is, does not happen. -/
def step (s : Files) : Call → Option Files
  | .open id =>
    match s.insts id with
    | some _ => none
    | none => some (({ s with file := s.file.fsOpen } : Files).setInst id (some ⟨0, s.file.fsStat⟩))
  | .write id len io => (s.insts id).map (s.write id len io)
  | .seek id offset => (s.insts id).map fun i => s.setInst id (some { i with offset })
  | .close id => (s.insts id).map fun _ => ({ s with file := s.file.fsClose } : Files).setInst id none

/-- A write ends within the file, or comes from the only instance and ends below 4 GiB; the entry can be written.
-/
def WriteOk (s : Files) : Call → Prop
  | .write id len io => ∀ i, s.insts id = some i → io ≠ .entryFailed ∧
      (i.offset + len ≤ s.size ∨ 0 < len ∧ i.offset + len < 2 ^ 32 ∧ ∀ j ≠ id, s.insts j = none)
  | _ => True

def OneSize (s : Files) : Prop :=
  ∀ id i, s.insts id = some i → i.len = s.size ∧ i.fstat = s.size ∧ i.seekEnd 0 = some s.size

/-- The invariant of the runs: the module, the entry and the instances have the size. -/
structure Inv (s : Files) : Prop where
  lt : s.size < 2 ^ 32
  entry : s.file.entrySize = s.size
  shared : ∀ sh ∈ s.file.shared, sh.size = s.size
  insts : ∀ id, ∀ i ∈ s.insts id, i.modSize = s.size

variable {s t : Files} {id : ℕ} {i : ModInst}

theorem seekEnd_zero (h : i.modSize < 2 ^ 63) : i.seekEnd 0 = some i.modSize := by
  have hnat : (UInt64.ofNat i.modSize).toNat = i.modSize := UInt64.toNat_ofNat_of_lt' (by simp [UInt64.size]; omega)
  have hpos : ¬ (UInt64.ofNat i.modSize).toInt64 < 0 := by
    have hint : (UInt64.ofNat i.modSize).toInt64.toInt = (UInt64.ofNat i.modSize).toNat :=
      BitVec.toInt_eq_toNat_of_lt (by show 2 * (UInt64.ofNat i.modSize).toNat < 2 ^ 64; omega)
    rw [Int64.lt_iff_toInt_lt, hint]
    exact Int.not_lt.2 (Int.natCast_nonneg _)
  simp only [ModInst.seekEnd, ModInst.len, Int64.add_zero, if_neg hpos]
  simp [hnat]

theorem Inv.oneSize (h : s.Inv) : s.OneSize := by
  intro id i hi
  have hsize := h.insts id i hi
  have hlt := h.lt
  exact ⟨hsize, hsize, by rw [seekEnd_zero (by omega), hsize]⟩

theorem insts_setInst {i' : Option ModInst} {P : ModInst → Prop} (hi : ∀ i ∈ i', P i)
    (h : ∀ j ≠ id, ∀ i ∈ s.insts j, P i) : ∀ j, ∀ i ∈ (s.setInst id i').insts j, P i := by
  intro j i hj
  by_cases hij : j = id
  · subst hij
    have hself : (s.setInst j i').insts j = i' := Function.update_self ..
    exact hi i (hself ▸ hj)
  · have hsame : (s.setInst id i').insts j = s.insts j := Function.update_of_ne hij ..
    exact h j hij i (hsame ▸ hj)

/-- **`fs_write`**, when the directory entry can be written: nothing changes, or the file has the new size. -/
theorem fsWrite_cases {f : ModuleFile} {io : WriteIo} {offset len n : ℕ} (hio : io ≠ .entryFailed)
    (hentry : f.entrySize = n) (hshared : ∀ sh ∈ f.shared, sh.size = n) (hend : max n (offset + len) < 2 ^ 32) :
    f.fsWrite io offset len = (none, f) ∨ len = 0 ∧ f.fsWrite io offset len = (some 0, f) ∨
    0 < len ∧ ∃ f', f.fsWrite io offset len = (some len, f') ∧ f'.entrySize = max n (offset + len) ∧
      ∀ sh ∈ f'.shared, sh.size = max n (offset + len) := by
  unfold ModuleFile.fsWrite
  cases hsh : f.shared with
  | none => exact .inl rfl
  | some sh =>
    have hn : sh.size = n := hshared sh (by rw [hsh]; rfl)
    have hnew : (ModuleFile.SharedSize.extend sh offset len).size = max n (offset + len) := by
      rw [ModuleFile.SharedSize.extend, hn, wadd_eq (by omega)]
    by_cases hlen : len = 0
    · exact .inr (.inl ⟨hlen, by simp only [if_pos hlen]⟩)
    simp only [if_neg hlen]
    cases io with
    | entryFailed => exact absurd rfl hio
    | dataFailed => exact .inl rfl
    | done =>
      refine .inr (.inr ⟨Nat.pos_of_ne_zero hlen, ?_⟩)
      by_cases hchanged : (ModuleFile.SharedSize.extend sh offset len).allocated ≠ sh.allocated ∨
          (ModuleFile.SharedSize.extend sh offset len).size ≠ sh.size
      · simp only [if_pos hchanged]
        refine ⟨_, rfl, ?_, fun sh' hsh' => by cases hsh'; exact hnew⟩
        rw [hnew, Nat.mod_eq_of_lt hend]
      -- the size is the one that the entry has
      simp only [if_neg hchanged]
      rw [not_or, not_not, not_not] at hchanged
      refine ⟨_, rfl, ?_, fun sh' hsh' => by cases hsh'; exact hnew⟩
      rw [← hnew, hchanged.2, hn]
      exact hentry

theorem Inv.write (h : s.Inv) {len : ℕ} {io : WriteIo} (hi : s.insts id = some i)
    (hok : s.WriteOk (.write id len io)) : (s.write id len io i).Inv := by
  obtain ⟨hio, hend⟩ := hok i hi
  have hlt := h.lt
  have hmod : i.modSize = s.size := h.insts id i hi
  have hmax : max s.size (i.offset + len) < 2 ^ 32 := by omega
  unfold Files.write
  rcases fsWrite_cases hio h.entry h.shared hmax with hw | ⟨rfl, hw⟩ | ⟨hlen, f', hw, hentry, hshared⟩
  · rw [hw]
    exact h
  · rw [hw]
    refine ⟨h.lt, h.entry, h.shared, insts_setInst (fun i' hi' => ?_) fun j _ i' hi' => h.insts j i' hi'⟩
    cases hi'
    show max i.modSize (wadd i.offset 0) = s.size
    rw [wadd_eq (by omega)]
    omega
  · rw [hw]
    simp only [if_neg hlen.ne']
    refine ⟨hmax, hentry, hshared, insts_setInst (fun i' hi' => ?_) fun j hj i' hi' => ?_⟩
    · cases hi'
      show max i.modSize (wadd i.offset len) = max s.size (i.offset + len)
      rw [wadd_eq (by omega), hmod]
    -- another instance is open: the write ends within the file
    rcases hend with hle | ⟨-, -, halone⟩
    · have hsize := h.insts j i' hi'
      show i'.modSize = max s.size (i.offset + len)
      omega
    · have hnone : s.insts j = none := halone j hj
      rw [show _ = _ from hnone] at hi'
      cases hi'

theorem Inv.open (h : s.Inv) (hstep : s.step (.open id) = some t) : t.Inv := by
  unfold step at hstep
  cases hi : s.insts id with
  | some i => simp [hi] at hstep
  | none =>
    simp only [hi, Option.some.injEq] at hstep
    subst hstep
    refine ⟨h.lt, h.entry, fun sh hsh => ?_, insts_setInst (fun i' hi' => ?_) fun j _ i' hi' => h.insts j i' hi'⟩
    · cases hsh
      show (match s.file.shared with
        | some sh => { sh with refcount := sh.refcount + 1 }
        | none => ⟨s.file.entryAllocated, s.file.entrySize, 1⟩ : SharedSize).size = s.size
      cases hs : s.file.shared with
      | none => exact h.entry
      | some sh => exact h.shared sh (by rw [hs]; rfl)
    · cases hi'
      exact h.entry

theorem Inv.close (h : s.Inv) : (({ s with file := s.file.fsClose } : Files).setInst id none).Inv := by
  refine ⟨h.lt, h.entry, fun sh hsh => ?_, insts_setInst (fun i' hi' => by cases hi') fun j _ i' hi' => h.insts j i' hi'⟩
  obtain ⟨sh₀, hsh₀, hsh⟩ := Option.bind_eq_some_iff.1 hsh
  split_ifs at hsh
  cases hsh
  exact h.shared sh₀ hsh₀

theorem Inv.step {c : Call} (h : s.Inv) (hok : s.WriteOk c) (hstep : s.step c = some t) : t.Inv := by
  cases c with
  | «open» id => exact h.open hstep
  | write id len io =>
    obtain ⟨i, hi, rfl⟩ := Option.map_eq_some_iff.1 hstep
    exact h.write hi hok
  | seek id offset =>
    obtain ⟨i, hi, rfl⟩ := Option.map_eq_some_iff.1 hstep
    refine ⟨h.lt, h.entry, h.shared, insts_setInst (fun i' hi' => ?_) fun j _ i' hi' => h.insts j i' hi'⟩
    cases hi'
    exact h.insts id i hi
  | close id =>
    obtain ⟨i, hi, rfl⟩ := Option.map_eq_some_iff.1 hstep
    exact h.close

def closed (allocated : Bool) (size : ℕ) : Files := ⟨⟨allocated, size, none⟩, fun _ => none, size⟩

/-- **The size of a file is one truth across its instances** if every write ends within the file, or comes from
its only instance and ends below 4 GiB, and the directory entry can be written. -/
theorem exec_oneSize {allocated : Bool} {size : ℕ} (hsize : size < 2 ^ 32) {l : List Call}
    (hl : Along step WriteOk (closed allocated size) l) (h : exec step (closed allocated size) l = some t) :
    t.OneSize := by
  have hclosed : (closed allocated size).Inv :=
    ⟨hsize, rfl, (fun _ h => by cases h), fun _ _ h => by cases h⟩
  exact (exec_induction (I := Inv) (fun _ _ _ hs hok hstep => hs.step hok hstep) hclosed hl h).oneSize

def shareCalls : List Call := [.open 1, .write 1 5 .done, .open 2, .write 2 3 .done]

theorem exec_oneSize_share : ∃ t, exec step (closed false 0) shareCalls = some t ∧ t.OneSize := by
  have hl : Along step WriteOk (closed false 0) shareCalls := by
    refine ⟨trivial, fun _ h₁ => ?_⟩
    cases h₁
    refine ⟨fun i hi => ⟨by decide, .inr ?_⟩, fun _ h₂ => ?_⟩
    · cases hi
      exact ⟨by decide, by decide, fun j hj => Function.update_of_ne hj ..⟩
    cases h₂
    refine ⟨trivial, fun _ h₃ => ?_⟩
    cases h₃
    refine ⟨fun i hi => ⟨by decide, .inl ?_⟩, fun _ _ => trivial⟩
    cases hi
    decide
  obtain ⟨t, ht⟩ : ∃ t, exec step (closed false 0) shareCalls = some t := ⟨_, rfl⟩
  exact ⟨t, ht, exec_oneSize (by decide) hl ht⟩

theorem stale_size : ∃ t, exec step (closed false 0) [.open 1, .open 2, .write 1 5 .done] = some t ∧
    t.size = 5 ∧ t.insts 1 = some ⟨5, 5⟩ ∧ t.insts 2 = some ⟨0, 0⟩ ∧ ¬ t.OneSize := by
  refine ⟨_, rfl, rfl, rfl, rfl, fun h => ?_⟩
  exact absurd (h 2 ⟨0, 0⟩ rfl).1 (by decide)

end Files

end Archis.Fs
