/-
  The sections of the operations: `lookupDir` is one locked step of the walk to a directory, and `createFileIn`,
  `mkdirIn`, `createSymlinkIn`, `deleteIn`, `renameIn` and `renameBetween` are what comes under the locks.
-/
import Archis.Fat32.Fs

namespace Archis.Fat32

open Archis.Lib

/-! ## The walk to a directory -/

/-- One locked step of `resolve` on the way to a directory; at a symlink the walk ends with `E_IS_SYMLINK`. -/
def lookupDir (b : Bpb) (curCluster : ℕ) (comp : List Char) (d : Dev) : Except Fault DirEntryView := do
  let buf ← readChain b curCluster d
  match findName (decodeDirEntries buf) comp with
  | none => throw (.err .notFound)
  | some entry =>
    if entry.isSymlink then do
      let _ ← readSymlinkTarget b entry d
      throw (.err .isSymlink)
    else if entry.isDir then pure entry
    else throw (.err .notDir)

def walkDir (b : Bpb) (d : Dev) : List (List Char) → DirEntryView → Except Fault DirEntryView
  | [], cur => pure cur
  | comp :: rest, cur => do walkDir b d rest (← lookupDir b cur.firstCluster comp d)

/-- What `resolve_and_lock_dir` makes of the result of `resolve`. -/
def toDir : Resolved → Except Fault DirEntryView
  | .found res => if res.entry.isDir then pure res.entry else throw (.err .notDir)
  | .symlink _ _ => throw (.err .isSymlink)

section
variable {b : Bpb} {d : Dev}

theorem resolveAndLockDir_eq_bind (path : List Char) :
    resolveAndLockDir b path d = resolve b path true d >>= toDir := by
  unfold resolveAndLockDir resolveSimple
  rw [bind_assoc]
  congr 1
  funext r
  cases r <;> rfl

theorem resolveLoop_eq_walkDir : ∀ (comps : List (List Char)) (cur : DirEntryView), comps ≠ [] →
    resolveLoop b d true comps cur.firstCluster >>= toDir = walkDir b d comps cur
  | [], _, h => absurd rfl h
  | comp :: rest, cur, _ => by
    have ih := resolveLoop_eq_walkDir rest
    unfold resolveLoop walkDir lookupDir
    rw [bind_assoc, bind_assoc]
    congr 1
    funext buf
    cases findName (decodeDirEntries buf) comp with
    | none => rfl
    | some e =>
      simp only [resolveEntry]
      by_cases hs : e.isSymlink = true
      · rw [if_pos ⟨hs, .inr trivial⟩, if_pos hs]
        cases readSymlinkTarget b e d <;> rfl
      rw [if_neg fun h => hs h.1, if_neg hs]
      by_cases hd : e.isDir = true
      · by_cases hr : rest = []
        · subst hr
          rw [if_pos rfl, if_pos hd]
          exact if_pos hd
        · rw [if_neg hr, if_pos hd, if_pos hd, ih e hr]
          rfl
      · by_cases hr : rest = []
        · rw [if_pos hr, if_neg hd]
          exact if_neg hd
        · rw [if_neg hr, if_neg hd, if_neg hd]
          rfl

/-- **The walk of `resolve_and_lock_dir`**, from the root on. -/
theorem resolveAndLockDir_eq (path : List Char) :
    resolveAndLockDir b path d = walkDir b d (components path) (.root b.rootCluster.toNat) := by
  rw [resolveAndLockDir_eq_bind, resolve]
  split_ifs with h0
  · rw [h0]
    exact if_pos (show decide (ATTR_DIRECTORY &&& ATTR_DIRECTORY ≠ 0) = true by decide)
  · exact resolveLoop_eq_walkDir _ (.root b.rootCluster.toNat) h0

end

/-! ## New entries -/

section
variable (b : Bpb) (parent : DirEntryView) (leaf : List Char)

def placeIn (d : Dev) : Except Fault NewPlace := do
  let buf ← readChain b parent.firstCluster d
  if (decodeDirEntries buf).any (fun e => eqIgnoreAsciiCase e.longName leaf) then
    throw (.err .fileExists)
  else pure ⟨parent, leaf, buf⟩

def createFileIn : FsM Unit := do
  let pl ← readDev (placeIn b parent leaf)
  addEntry b pl ATTR_ARCHIVE 0 0

/-- The new directory is written, then its entry; its cluster is the result. -/
def makeDir (pl : NewPlace) : FsM ℕ := do
  let newCluster ← allocCluster b
  writeChain b newCluster (newDirBuf b newCluster pl.parent.firstCluster)
  addEntry b pl ATTR_DIRECTORY newCluster 0
  return newCluster

def mkdirIn : FsM ℕ := do
  let pl ← readDev (placeIn b parent leaf)
  makeDir b pl

def makeSymlink (pl : NewPlace) (target : List Char) : FsM Unit := do
  let f ← writeFile b ⟨0, 0⟩ 0 (utf8Encode target)
  addEntry b pl (ATTR_ARCHIVE ||| ATTR_SYMLINK) f.firstCluster (f.fileSize % 2 ^ 32)

def createSymlinkIn (leaf target : List Char) : FsM Unit := do
  let pl ← readDev (placeIn b parent leaf)
  makeSymlink b pl target

/-! ## Deleting and renaming -/

/-- The last hop of `resolve` in `fs_delete`, whose lock is kept: it does not follow a symlink. -/
def findIn (d : Dev) : Except Fault ResolveOk := do
  let buf ← readChain b parent.firstCluster d
  match findName (decodeDirEntries buf) leaf with
  | none => throw (.err .notFound)
  | some entry => pure ⟨entry, parent.firstCluster, true⟩

/-- What `fs_delete` does with the entry that it has found. -/
def deleteFound (res : ResolveOk) : FsM Unit := do
  readDev (checkEmpty b res.entry)
  let v ← get
  if res.entry.isDir = false ∧ isOpen v res.parentCluster res.entry.slotStart then
    throw (.err .fileBusy)
  else deleteEntry b res

def deleteIn : FsM Unit := do
  let res ← readDev (findIn b parent leaf)
  deleteFound b res

/-- `fs_rename_same_dir` under the lock of the directory. -/
def renameIn (fromLeaf toLeaf : List Char) : FsM Unit := do
  let buf ← readDev (readChain b parent.firstCluster)
  let entries := decodeDirEntries buf
  match findName entries fromLeaf with
  | none => throw (.err .notFound)
  | some src =>
    let v ← get
    if isOpen v parent.firstCluster src.slotStart then throw (.err .fileBusy)
    else if entries.any (fun e => eqIgnoreAsciiCase e.longName toLeaf && e.slotStart != src.slotStart)
    then throw (.err .fileExists)
    else
      appendEntries b parent.firstCluster (markDeleted src.slotCount src.slotStart buf)
        (movedSlots src toLeaf entries)

/-- `fs_rename_cross_dir` under the locks of both directories. -/
def renameBetween (fromParent toParent : DirEntryView) (fromLeaf toLeaf : List Char) :
    FsM Unit := do
  let fromBuf ← readDev (readChain b fromParent.firstCluster)
  match findName (decodeDirEntries fromBuf) fromLeaf with
  | none => throw (.err .notFound)
  | some src =>
    let v ← get
    if isOpen v fromParent.firstCluster src.slotStart then throw (.err .fileBusy)
    else do
      let toBuf ← readDev (readChain b toParent.firstCluster)
      let toEntries := decodeDirEntries toBuf
      if toEntries.any (fun e => eqIgnoreAsciiCase e.longName toLeaf) then throw (.err .fileExists)
      else do
        appendEntries b toParent.firstCluster toBuf (movedSlots src toLeaf toEntries)
        writeChain b fromParent.firstCluster (markDeleted src.slotCount src.slotStart fromBuf)

end

section

theorem fsMkdir_eq_bind (path : List Char) : fsMkdir path = (do
    let b ← readDev getBpb
    let pl ← readDev (newPlace b path)
    let _ ← makeDir b pl) := by
  simp only [fsMkdir, makeDir, bind_assoc, pure_bind, bind_pure_unit]

end

end Archis.Fat32
