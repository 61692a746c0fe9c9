/-
  The operations of the module (`modules/fat32/src/lib.rs` and the path part of `dir.rs`).

  The texts that `resolve` reports with `E_IS_SYMLINK` are a result of their own (`Resolved.symlink`); `fs_open` copies
  as much of them as its caller's buffer takes.
-/
import Archis.Lib.Path
import Archis.Fat32.FileIo
import Archis.Fat32.Dir

namespace Archis.Fat32

open Archis.Lib
open List hiding IsChain get modify next utf8Encode

/-! ## Paths -/

/-- `split_parent`: the path in front of the last name, and that name. -/
def splitParent (path : List Char) : List Char × List Char :=
  let trimmed := path.rdropWhile (· = '/')
  let leaf := trimmed.rtakeWhile (· ≠ '/')
  (trimmed.take (trimmed.length - leaf.length - 1), leaf)

structure ResolveOk where
  entry : DirEntryView
  parentCluster : ℕ
  /-- is there a `parent_lock`: not for the root -/
  locked : Bool
  deriving DecidableEq

inductive Resolved where
  | found (res : ResolveOk)
  | symlink (target remaining : List Char)
  deriving DecidableEq

section
variable (b : Bpb) (path : List Char) (followFinal : Bool) (key : ℕ × ℕ) (d : Dev)

def readSymlinkTarget (entry : DirEntryView) (d : Dev) : Except Fault (List Char) := do
  let buf ← readFile b entry.firstCluster entry.size 0 entry.size d
  match utf8Decode buf with
  | some target => pure target
  | none => throw (.err .internalFailure)

/-- `entries.iter().find(|e| e.long_name.eq_ignore_ascii_case(name))`. -/
def findName (entries : List DirEntryView) (name : List Char) : Option DirEntryView :=
  entries.find? fun e => eqIgnoreAsciiCase e.longName name

def resolveEntry (followFinal : Bool) (entry : DirEntryView)
    (rest : List (List Char)) (curCluster : ℕ) (next : ℕ → Except Fault Resolved) :
    Except Fault Resolved :=
  if entry.isSymlink ∧ (rest ≠ [] ∨ followFinal) then do
    let target ← readSymlinkTarget b entry d
    return .symlink target (joinSlash rest)
  else if rest = [] then pure (.found ⟨entry, curCluster, true⟩)
  else if entry.isDir then next entry.firstCluster
  else throw (.err .notDir)

def resolveLoop (b : Bpb) (d : Dev) (followFinal : Bool) : List (List Char) → ℕ → Except Fault Resolved
  | [], _ => throw .panic
  | comp :: rest, curCluster => do
    let buf ← readChain b curCluster d
    match findName (decodeDirEntries buf) comp with
    | none => throw (.err .notFound)
    | some entry =>
      resolveEntry b d followFinal entry rest curCluster (resolveLoop b d followFinal rest)

def resolve : Except Fault Resolved :=
  if components path = [] then pure (.found ⟨.root b.rootCluster.toNat, b.rootCluster.toNat, false⟩)
  else resolveLoop b d followFinal (components path) b.rootCluster.toNat

def resolveSimple :
    Except Fault ResolveOk := do
  match ← resolve b path followFinal d with
  | .found res => pure res
  | .symlink _ _ => throw (.err .isSymlink)

def resolveAndLockDir (parentPath : List Char) (d : Dev) : Except Fault DirEntryView := do
  let res ← resolveSimple b parentPath true d
  if res.entry.isDir then pure res.entry else throw (.err .notDir)

/-! ## Directory buffers -/

/-- The loop of `append_entries` that grows the chain; the first argument bounds the rounds. -/
def growLoop (b : Bpb) (firstCluster need : ℕ) : ℕ → List UInt8 → FsM (List UInt8)
  | 0, buf => pure buf
  | n + 1, buf =>
    if buf.length < need then do
      let _ ← growChain b firstCluster
      growLoop b firstCluster need n (buf ++ replicate b.clusterSize 0)
    else pure buf

def appendEntries (firstCluster : ℕ) (buf : List UInt8) (newSlots : List Slot) :
    FsM Unit := do
  let end_ := findEndMarker buf
  let need := end_ + newSlots.length * 32
  let buf ← growLoop b firstCluster need need buf
  writeChain b firstCluster (splice buf end_ newSlots.flatten)

/-- The bytes of a short slot that hold the cluster and the size. -/
def patchSlot (slot : Slot) (firstCluster size : ℕ) : Slot :=
  splice (splice (splice slot 20 (toLe 2 (firstCluster / 2 ^ 16))) 26 (toLe 2 firstCluster)) 28 (toLe 4 size)

def patchDirEntry (parentCluster slotStart slotCount firstCluster size : ℕ) :
    FsM Unit := do
  let buf ← readDev (readChain b parentCluster)
  let shortSlotStart := slotStart + (slotCount - 1) * 32
  if buf.length < shortSlotStart + 32 then throw .panic
  else
    writeChain b parentCluster (splice buf shortSlotStart (patchSlot (slice buf shortSlotStart 32) firstCluster size))

/-! ## New entries -/

structure NewPlace where
  parent : DirEntryView
  leaf : List Char
  buf : List UInt8

/-- What the creating operations do first: find and read the directory, and look for the name in it. -/
def newPlace : Except Fault NewPlace :=
  if (splitParent path).2 = [] then throw (.err .invalid)
  else do
    let parent ← resolveAndLockDir b (splitParent path).1 d
    let buf ← readChain b parent.firstCluster d
    if (decodeDirEntries buf).any (fun e => eqIgnoreAsciiCase e.longName (splitParent path).2) then
      throw (.err .fileExists)
    else pure ⟨parent, (splitParent path).2, buf⟩

/-- What they do last: append the entry. -/
def addEntry (pl : NewPlace) (attr : UInt8) (firstCluster size : ℕ) : FsM Unit :=
  appendEntries b pl.parent.firstCluster pl.buf
    (encodeEntrySlots pl.leaf (uniqueShortName pl.leaf (decodeDirEntries pl.buf)) attr firstCluster
      size)

def createEntry (attr : UInt8) (initialCluster initialSize : ℕ) :
    FsM Unit := do
  let pl ← readDev (newPlace b path)
  addEntry b pl attr initialCluster initialSize

def fsCreateFile : FsM Unit := do
  let b ← readDev getBpb
  createEntry b path ATTR_ARCHIVE 0 0

def DOT_NAME : List UInt8 := 0x2E :: replicate 10 0x20
def DOTDOT_NAME : List UInt8 := 0x2E :: 0x2E :: replicate 9 0x20

def makeDotEntry (name : List UInt8) (attr : UInt8) (firstCluster : ℕ) : Slot :=
  shortSlot name attr firstCluster 0

def newDirBuf (newCluster parentCluster : ℕ) : List UInt8 :=
  splice (replicate b.clusterSize 0) 0 (makeDotEntry DOT_NAME ATTR_DIRECTORY newCluster ++
      makeDotEntry DOTDOT_NAME ATTR_DIRECTORY parentCluster)

def fsMkdir : FsM Unit := do
  let b ← readDev getBpb
  let pl ← readDev (newPlace b path)
  let newCluster ← allocCluster b
  writeChain b newCluster (newDirBuf b newCluster pl.parent.firstCluster)
  addEntry b pl ATTR_DIRECTORY newCluster 0

def fsCreateSymlink (path target : List Char) : FsM Unit := do
  let b ← readDev getBpb
  let pl ← readDev (newPlace b path)
  let f ← writeFile b ⟨0, 0⟩ 0 (utf8Encode target)
  addEntry b pl (ATTR_ARCHIVE ||| ATTR_SYMLINK) f.firstCluster (f.fileSize % 2 ^ 32)

/-! ## Open files -/

def setShared (shared : Option SharedFileState) (v : Vol) : Vol :=
  { v with openFiles := Function.update v.openFiles key shared }

def acquireOpenFile (firstCluster size : ℕ) (v : Vol) : Vol :=
  match v.openFiles key with
  | some existing => setShared key (some { existing with refcount := existing.refcount + 1 }) v
  | none => setShared key (some ⟨firstCluster, size, 1⟩) v

def releaseOpenFile (v : Vol) : Vol :=
  match v.openFiles key with
  | none => v
  | some existing =>
    if existing.refcount - 1 = 0 then setShared key none v
    else setShared key (some { existing with refcount := existing.refcount - 1 }) v

def isOpen (v : Vol) (parentCluster slotStart : ℕ) : Bool :=
  (v.openFiles (parentCluster, slotStart)).isSome

/-- A handle is a box of its own: its number is not used twice. -/
def newHandle (h : OpenFile) (v : Vol) : Vol :=
  { v with handles := Function.update v.handles v.nextHandle (some h), nextHandle := v.nextHandle + 1 }

inductive OpenResult where
  | opened (handle : ℕ) (isDir : Bool)
  /-- `E_IS_SYMLINK`, with what fits into the caller's buffers -/
  | symlink (target remaining : List UInt8)

/-- `fs_open` on the entry that was found. -/
def openEntry (res : ResolveOk) : FsM OpenResult := do
  let v ← get
  if res.entry.isDir then
    modify (newHandle ⟨.dir res.entry.firstCluster, res.parentCluster, res.entry.slotStart, res.entry.slotCount⟩)
  else
    modify fun v => newHandle ⟨.file, res.parentCluster, res.entry.slotStart, res.entry.slotCount⟩
      (acquireOpenFile (res.parentCluster, res.entry.slotStart) res.entry.firstCluster
        res.entry.size v)
  return .opened v.nextHandle res.entry.isDir

def fsOpen (symlinkLen remainingLen : ℕ) :
    FsM OpenResult := do
  let b ← readDev getBpb
  match ← readDev (resolve b path followFinal) with
  | .found res => openEntry res
  | .symlink target remaining =>
    return .symlink ((utf8Encode target).take symlinkLen) ((utf8Encode remaining).take remainingLen)

/-- `fs_close` on a handle; for one that is not open the source frees memory that it does not
    own. -/
def fsClose (handle : ℕ) : FsM Unit := do
  match (← get).handles handle with
  | none => throw .panic
  | some h =>
    modify fun v => { v with handles := Function.update v.handles handle none }
    match h.kind with
    | .dir _ => pure ()
    | .file => modify (releaseOpenFile (h.parentCluster, h.slotStart))

def sharedOf (v : Vol) (handle : ℕ) : Except Fault (OpenFile × SharedFileState) :=
  match v.handles handle with
  | none => .error .panic
  | some h =>
    match h.kind with
    | .dir _ => .error (.err .isDir)
    | .file =>
      match v.openFiles (h.parentCluster, h.slotStart) with
      | none => .error .panic
      | some shared => .ok (h, shared)

def fsRead (handle fileOffset len : ℕ) : FsM (List UInt8) := do
  let b ← readDev getBpb
  match sharedOf (← get) handle with
  | .error e => throw e
  | .ok (_, shared) => readDev (readFile b shared.firstCluster shared.size fileOffset len)

/-- The new cluster and size are set in the shared state, and in the entry if they changed. -/
def commitFile (h : OpenFile) (shared : SharedFileState) (f : File) : FsM Unit := do
  modify (setShared (h.parentCluster, h.slotStart)
    (some { shared with firstCluster := f.firstCluster, size := f.fileSize }))
  if f.firstCluster ≠ shared.firstCluster ∨ f.fileSize ≠ shared.size then
    patchDirEntry b h.parentCluster h.slotStart h.slotCount f.firstCluster f.fileSize
  else pure ()

def fsWrite (handle fileOffset : ℕ) (data : List UInt8) : FsM ℕ := do
  let b ← readDev getBpb
  match sharedOf (← get) handle with
  | .error e => throw e
  | .ok (h, shared) =>
    let f ← writeFile b ⟨shared.firstCluster, shared.size⟩ fileOffset data
    commitFile b h shared f
    return data.length

/-! ## What a path names -/

/-! ## Deleting -/

/-- The check of `fs_delete` that a directory has no entries but `.` and `..`. -/
def checkEmpty (entry : DirEntryView) (d : Dev) : Except Fault Unit :=
  if entry.isDir then do
    let childBuf ← readChain b entry.firstCluster d
    if (decodeDirEntries childBuf).all (fun e => e.longName = ['.'] ∨ e.longName = ['.', '.']) then
      pure ()
    else throw (.err .notEmpty)
  else pure ()

def deleteEntry (res : ResolveOk) : FsM Unit := do
  let buf ← readDev (readChain b res.parentCluster)
  writeChain b res.parentCluster (markDeleted res.entry.slotCount res.entry.slotStart buf)
  if 2 ≤ res.entry.firstCluster then freeChain b res.entry.firstCluster else pure ()

def fsDelete : FsM Unit := do
  let b ← readDev getBpb
  let res ← readDev (resolveSimple b path false)
  if res.locked = false then throw (.err .invalid)
  else do
    readDev (checkEmpty b res.entry)
    let v ← get
    if res.entry.isDir = false ∧ isOpen v res.parentCluster res.entry.slotStart then
      throw (.err .fileBusy)
    else deleteEntry b res

/-! ## Renaming -/

def movedSlots (src : DirEntryView) (toLeaf : List Char) (entries : List DirEntryView) : List Slot :=
  encodeEntrySlots toLeaf (uniqueShortName toLeaf entries) src.attr src.firstCluster src.size

def fsRenameSameDir (parentPath fromLeaf toLeaf : List Char) : FsM Unit := do
  let parent ← readDev (resolveAndLockDir b parentPath)
  let buf ← readDev (readChain b parent.firstCluster)
  let entries := decodeDirEntries buf
  match findName entries fromLeaf with
  | none => throw (.err .notFound)
  | some src =>
    let v ← get
    if isOpen v parent.firstCluster src.slotStart then throw (.err .fileBusy)
    else if entries.any (fun e => eqIgnoreAsciiCase e.longName toLeaf && e.slotStart != src.slotStart)
    then throw (.err .fileExists)
    else
      appendEntries b parent.firstCluster (markDeleted src.slotCount src.slotStart buf)
        (movedSlots src toLeaf entries)

/-- `path_order_key`: by the length in bytes and then by the lower-case text. -/
def pathOrderLe (p q : List Char) : Bool :=
  let n := (utf8Encode p).length
  let m := (utf8Encode q).length
  n < m || (n = m && utf8Encode (asciiLower p) ≤ utf8Encode (asciiLower q))

/-- The two parent directories of a rename, resolved in the order of their paths. -/
def resolveBoth (fromParentPath toParentPath : List Char) (d : Dev) : Except Fault (DirEntryView × DirEntryView) :=
  if pathOrderLe toParentPath fromParentPath then do
    let fromParent ← resolveAndLockDir b fromParentPath d
    let toParent ← resolveAndLockDir b toParentPath d
    return (fromParent, toParent)
  else do
    let toParent ← resolveAndLockDir b toParentPath d
    let fromParent ← resolveAndLockDir b fromParentPath d
    return (fromParent, toParent)

def fsRenameCrossDir (fromParentPath fromLeaf toParentPath toLeaf : List Char) :
    FsM Unit := do
  let (fromParent, toParent) ← readDev (resolveBoth b fromParentPath toParentPath)
  let fromBuf ← readDev (readChain b fromParent.firstCluster)
  match findName (decodeDirEntries fromBuf) fromLeaf with
  | none => throw (.err .notFound)
  | some src =>
    let v ← get
    if isOpen v fromParent.firstCluster src.slotStart then throw (.err .fileBusy)
    else do
      let toBuf ← readDev (readChain b toParent.firstCluster)
      let toEntries := decodeDirEntries toBuf
      if toEntries.any (fun e => eqIgnoreAsciiCase e.longName toLeaf) then throw (.err .fileExists)
      else do
        appendEntries b toParent.firstCluster toBuf (movedSlots src toLeaf toEntries)
        writeChain b fromParent.firstCluster (markDeleted src.slotCount src.slotStart fromBuf)

end

def fsRename (src dst : List Char) : FsM Unit := do
  let b ← readDev getBpb
  let (fromParentPath, fromLeaf) := splitParent src
  let (toParentPath, toLeaf) := splitParent dst
  if fromLeaf = [] ∨ toLeaf = [] then throw (.err .invalid)
  else if eqIgnoreAsciiCase fromParentPath toParentPath then
    fsRenameSameDir b fromParentPath fromLeaf toLeaf
  else fsRenameCrossDir b fromParentPath fromLeaf toParentPath toLeaf

/-! ## What the parts do to an image -/

theorem splitParent_append_slash (q : List Char) {c : List Char} (hc : IsName c) :
    splitParent (q ++ '/' :: c) = (q, c) := by
  have htrim : (q ++ '/' :: c).rdropWhile (· = '/') = q ++ '/' :: c := by
    rw [rdropWhile_eq_self_iff]
    intro hne
    rw [getLast_append_of_ne_nil _ (by simp), getLast_cons hc.1]
    intro h1
    exact hc.2 (of_decide_eq_true h1 ▸ getLast_mem hc.1)
  have hleaf : (q ++ '/' :: c).rtakeWhile (· ≠ '/') = c := by
    have h1 : ∀ x ∈ c.reverse, decide (x ≠ '/') = true := by
      intro x hx
      rw [decide_eq_true_eq]
      rintro rfl; exact hc.2 (mem_reverse.1 hx)
    rw [rtakeWhile, reverse_append, reverse_cons, append_assoc, takeWhile_append_of_pos h1,
      singleton_append, takeWhile_cons_of_neg (by simp), append_nil, reverse_reverse]
  have hlen : (q ++ '/' :: c).length - c.length - 1 = q.length := by
    rw [length_append, length_cons]; omega
  simp only [splitParent, htrim, hleaf, hlen, take_left]

variable {cs need len : ℕ}

theorem growCount_eq_zero (hcs : 0 < cs) (h : need ≤ len) : growCount cs need len = 0 := by
  rw [growCount, Nat.sub_eq_zero_of_le h, zero_add]
  exact Nat.div_eq_of_lt (by omega)

theorem growCount_succ (hcs : 0 < cs) (h : len < need) :
    growCount cs need len = growCount cs need (len + cs) + 1 := by
  by_cases hle : need ≤ len + cs
  · rw [growCount_eq_zero hcs hle, growCount]
    refine Nat.div_eq_of_lt_le ?_ ?_
    · omega
    · rw [zero_add, add_mul, one_mul]; omega
  · have h1 : need - len + (cs - 1) = need - (len + cs) + (cs - 1) + cs := by omega
    rw [growCount, h1, Nat.add_div_right _ hcs]
    rfl

theorem growCount_le (hcs : 0 < cs) : growCount cs need len ≤ need := by
  by_cases h0 : need ≤ len
  · rw [growCount_eq_zero hcs h0]; omega
  · rw [growCount, Nat.div_le_iff_le_mul_add_pred hcs]
    have h1 : need ≤ cs * need := Nat.le_mul_of_pos_left _ hcs
    omega

namespace Shows

variable {b : Bpb} {v : Vol} {A : Image}

theorem growLoop (hb : b.Covers) (hf : b.Fits) {a need : ℕ} : ∀ {n : ℕ} {v : Vol} {A : Image}
    {l : List ℕ} {buf : List UInt8}, Shows b v.dev A → IsChain b A a l → growCount b.clusterSize
    need buf.length ≤ n → wp (Fat32.growLoop b a need n buf) (fun buf' w => ∃ news A' t,
    l.getLast? = some t ∧ Becomes b v A' w ∧ Grown b A t news A' ∧ news.length = growCount
    b.clusterSize need buf.length ∧ buf' = buf ++ replicate (news.length * b.clusterSize) 0)
    (fun e w => e = .err .oom ∧ ∃ news A' t, l.getLast? = some t ∧ Becomes b v A' w ∧
    Grown b A t news A' ∧ A'.Full b ∧ news.length < growCount b.clusterSize need buf.length) v
  | n, v, A, l, buf, h, hl, hn => by
    have hcs := hb.valid.clusterSize_pos
    obtain ⟨t, ht⟩ := hl.exists_last
    have hrefl : Grown b A t [] A := .refl (hl.range t (mem_of_getLast? ht))
      (Image.next_eq_none.1 (hl.linked.next_last ht))
    by_cases hlt : buf.length < need
    · rw [growCount_succ hcs hlt] at hn ⊢
      obtain ⟨n, rfl⟩ : ∃ k, n = k + 1 := ⟨n - 1, by omega⟩
      rw [Fat32.growLoop, if_pos hlt, wp_bind]
      refine (h.growChain hb hf hl).mono ?_ ?_
      · rintro c w ⟨t', A', ht', hw, hg⟩
        obtain rfl : t = t' := by rw [ht, Option.some.injEq] at ht'; exact ht'
        have hlen : (buf ++ replicate b.clusterSize (0 : UInt8)).length =
            buf.length + b.clusterSize := by rw [length_append, length_replicate]
        refine (growLoop hb hf hw.image (hg.isChain hl ht) (by rw [hlen]; omega)).mono ?_ ?_
        · rintro buf' u ⟨news, A'', t', ht', hu, hg', hcount, hbuf'⟩
          rw [getLast?_append_of_ne_nil _ (by simp)] at ht'
          refine ⟨c :: news, A'', t, ht, hw.trans hu, hg.trans hg' ht', ?_, ?_⟩
          · rw [length_cons, hcount, hlen]
          · rw [hbuf', append_assoc, ← replicate_add, length_cons, add_mul, one_mul, add_comm]
        · rintro e u ⟨he, news, A'', t', ht', hu, hg', hfull, hcount⟩
          rw [getLast?_append_of_ne_nil _ (by simp)] at ht'
          refine ⟨he, c :: news, A'', t, ht, hw.trans hu, hg.trans hg' ht', hfull, ?_⟩
          rw [length_cons, ← hlen]; omega
      · rintro e w ⟨he, hw, hfull⟩
        exact ⟨he, [], A, t, ht, hw, hrefl, hfull, by simp⟩
    · have hdone : Fat32.growLoop b a need n buf = pure buf := by
        cases n with
        | zero => rfl
        | succ n => rw [Fat32.growLoop, if_neg hlt]
      rw [hdone, wp_pure, growCount_eq_zero hcs (by omega)]
      exact ⟨[], A, t, ht, h.becomes, hrefl, rfl, by simp⟩
  termination_by n => n

/-- **`append_entries`**: the chain has grown and holds the new buffer, or has grown into the last free cluster.
-/
theorem appendEntries (h : Shows b v.dev A) (hb : b.Covers) (hf : b.Fits) {a : ℕ} {l : List ℕ} (hl : IsChain b A a l)
    {buf : List UInt8} (hbuf : buf.length = l.length * b.clusterSize) {new : List Slot} (hnew : ∀ s ∈ new,
    s.length = 32) : wp (Fat32.appendEntries b a buf new) (fun _ w => ∃ news A' t, l.getLast? = some t ∧
    Grown b A t news A' ∧ Becomes b v (A'.setBytes b.clusterSize (l ++ news) (appendBuf b.clusterSize buf new)) w ∧
    (appendBuf b.clusterSize buf new).length = (l ++ news).length * b.clusterSize) (fun e w => e = .err .oom ∧
    ∃ news A' t, l.getLast? = some t ∧ Becomes b v A' w ∧ Grown b A t news A' ∧ A'.Full b ∧
    news.length < growCount b.clusterSize (findEndMarker buf + new.length * 32) buf.length) v := by
  have hcs := hb.valid.clusterSize_slots
  have hn : 0 < 16 * b.sectorsPerCluster.toNat := Nat.mul_pos (by norm_num) hb.valid.spc_pos
  have hbuf' : buf.length = l.length * (16 * b.sectorsPerCluster.toNat) * 32 := by
    rw [hbuf, hcs]; ring
  obtain ⟨e, he, -, -, -⟩ := findEndMarker_spec hbuf'
  obtain ⟨g, hg, -, hlen, -⟩ := appendBuf_spec hn hbuf' he hnew
  rw [← hcs] at hg hlen
  rw [Fat32.appendEntries]
  refine (growLoop hb hf h hl (growCount_le hb.valid.clusterSize_pos)).seq' ?_ ?_
  · rintro buf' w ⟨news, A', t, ht, hw, hgrown, hcount, rfl⟩
    have heq : splice (buf ++ replicate (news.length * b.clusterSize) 0) (findEndMarker buf)
        new.flatten = appendBuf b.clusterSize buf new := by rw [hcount]; rfl
    have hlen : (appendBuf b.clusterSize buf new).length = (l ++ news).length * b.clusterSize := by
      rw [hlen, hg, length_append, hcount, he, hcs]; ring
    rw [heq]
    refine (hw.image.writeChain hb (hgrown.isChain hl ht) hlen).mono ?_ fun _ _ hF => hF.elim
    intro _ u hu
    exact ⟨news, A', t, ht, hgrown, hw.trans hu, hlen⟩
  · rintro e w ⟨he, news, A', t, ht, hw, hgrown, hfull, hlt⟩
    exact ⟨he, news, A', t, ht, hw, hgrown, hfull, hlt⟩

end Shows

end Archis.Fat32
