/-
  The block cache of the disk driver: `drivers/disk/src/cache.rs`.

  The cache maps sector numbers to blocks; a dirty block is newer than the device.  One client runs the functions
  to completion here; `Archis.Disk.Race` has the code as several clients interleave it.  Proofs look at the cache
  through `view`, which forgets when a block was last used.
-/
import Archis.Word

namespace Archis.Disk

def MAX_CACHE_BLOCKS : ℕ := 512

def SECTOR_SIZE : ℕ := 512

/-- `CacheBlock`, over an arbitrary type of sector contents. -/
structure CacheBlock (S : Type) where
  data : S
  dirty : Bool
  seq : ℕ

/-- `BTreeMap<u64, CacheBlock>`. -/
abbrev BlockMap (S : Type) := Std.TreeMap ℕ (CacheBlock S)

/-- The fields of `RawDiskCtx` that reading and writing use. -/
structure RawDiskCtx (S : Type) where
  busy : Bool
  lbaCount : ℕ
  cache : BlockMap S
  cacheClock : ℕ

/-- A disk: the driver's context and the sectors of the child device. -/
structure DiskState (S : Type) where
  ctx : RawDiskCtx S
  dev : ℕ → S

section
variable {S : Type}

/-- `cache.iter().min_by_key(|(_, b)| b.seq)`: the first block in key order that is least recently
    used. -/
def oldest (cache : BlockMap S) : Option (ℕ × CacheBlock S) :=
  cache.toList.foldl (fun best e =>
    match best with
    | none => some e
    | some b => if e.2.seq < b.2.seq then some e else some b) none

namespace RawDiskCtx

def insert (ctx : RawDiskCtx S) (lba : ℕ) (data : S) (dirty : Bool) : RawDiskCtx S :=
  let seq := wadd ctx.cacheClock 1
  { ctx with cacheClock := seq, cache := ctx.cache.insert lba ⟨data, dirty, seq⟩ }

section
variable (ctx : RawDiskCtx S) (lba : ℕ)

def remove : RawDiskCtx S := { ctx with cache := ctx.cache.erase lba }

def cacheLookup : Option S × RawDiskCtx S :=
  match ctx.cache[lba]? with
  | none => (none, ctx)
  | some b =>
    let seq := wadd ctx.cacheClock 1
    (some b.data, { ctx with cacheClock := seq, cache := ctx.cache.insert lba { b with seq } })

/-- The block that has to go before `lba` can be entered. -/
def victimFor : Option (ℕ × CacheBlock S) :=
  if ctx.cache[lba]?.isNone && ctx.cache.size ≥ MAX_CACHE_BLOCKS then oldest ctx.cache else none

def hasDirty : Bool := (ctx.cache[lba]?).any (·.dirty)

/-- The snapshot that `flush_all_dirty` takes. -/
def dirtyBlocks : List (ℕ × S) :=
  (ctx.cache.toList.filter (·.2.dirty)).map fun e => (e.1, e.2.data)

/-- `if let Some(b) = ctx.cache.get_mut(&lba) { b.dirty = false; }` -/
def clearDirty : RawDiskCtx S :=
  match ctx.cache[lba]? with
  | none => ctx
  | some b => { ctx with cache := ctx.cache.insert lba { b with dirty := false } }

end

end RawDiskCtx

/-- The sector that `write_bytes(lba * SECTOR_SIZE, ..)` writes. -/
def byteSector (lba : ℕ) : ℕ := wmul lba SECTOR_SIZE / SECTOR_SIZE

theorem byteSector_eq {lba : ℕ} (h : lba < 2 ^ 55) : byteSector lba = lba := by
  unfold byteSector SECTOR_SIZE
  rw [wmul_eq (by omega)]; omega

namespace DiskState

section
variable (s : DiskState S)

def write (lba : ℕ) (data : S) : DiskState S := { s with dev := Function.update s.dev lba data }

/-- Makes room for `lba`: a dirty victim goes to the device.  `sector` is how the caller addresses it. -/
def makeRoom (sector : ℕ → ℕ) (lba : ℕ) : DiskState S :=
  match s.ctx.victimFor lba with
  | none => s
  | some (victim, b) =>
    let s := if b.dirty then s.write (sector victim) b.data else s
    { s with ctx := s.ctx.remove victim }

def cachePut (lba : ℕ) (data : S) (dirty : Bool) : DiskState S :=
  if s.ctx.hasDirty lba && !dirty then s
  else
    let s := s.makeRoom byteSector lba
    { s with ctx := s.ctx.insert lba data dirty }

/-- One round of `cache_fill_no_evict`. -/
def fillOne (lba : ℕ) (data : S) : DiskState S :=
  if s.ctx.hasDirty lba then s
  else
    let s := s.makeRoom id lba
    { s with ctx := s.ctx.insert lba data false }

end

/-- `cache_fill_no_evict` from round `i` on, with `n` rounds to go; `buf` are the sectors of the
    buffer. -/
def cacheFillNoEvict (s : DiskState S) (baseLba : ℕ) (buf : ℕ → S) : ℕ → ℕ → DiskState S
  | _, 0 => s
  | i, n + 1 => (s.fillOne (wadd baseLba i) (buf i)).cacheFillNoEvict baseLba buf (i + 1) n

end DiskState

/-! ## What the cache holds -/

def RawDiskCtx.view (ctx : RawDiskCtx S) (lba : ℕ) : Option (S × Bool) :=
  (ctx.cache[lba]?).map fun b => (b.data, b.dirty)

namespace RawDiskCtx
variable (ctx : RawDiskCtx S) (lba : ℕ)

theorem view_insert (data : S) (dirty : Bool) (x : ℕ) :
    (ctx.insert lba data dirty).view x = if x = lba then some (data, dirty) else ctx.view x := by
  simp only [view, insert, Std.TreeMap.getElem?_insert, compare_eq_iff_eq]
  by_cases h : x = lba
  · subst h; simp
  · rw [if_neg (fun h' => h h'.symm), if_neg h]

theorem view_remove (x : ℕ) : (ctx.remove lba).view x = if x = lba then none else ctx.view x := by
  simp only [view, remove, Std.TreeMap.getElem?_erase, compare_eq_iff_eq]
  by_cases h : x = lba
  · subst h; simp
  · rw [if_neg (fun h' => h h'.symm), if_neg h]

theorem view_cacheLookup (x : ℕ) : (ctx.cacheLookup lba).2.view x = ctx.view x := by
  unfold cacheLookup
  split
  · rfl
  rename_i b hb
  simp only [view, Std.TreeMap.getElem?_insert, compare_eq_iff_eq]
  by_cases h : lba = x
  · subst h; simp [hb]
  · rw [if_neg h]

theorem cacheLookup_fst : (ctx.cacheLookup lba).1 = (ctx.view lba).map Prod.fst := by
  unfold cacheLookup view
  split <;> rename_i h <;> simp [h]

theorem view_clearDirty (x : ℕ) :
    (ctx.clearDirty lba).view x = if x = lba then (ctx.view x).map fun v => (v.1, false) else ctx.view x := by
  unfold clearDirty
  split
  · rename_i h
    by_cases hx : x = lba
    · subst hx; simp [view, h]
    · rw [if_neg hx]
  · rename_i b h
    simp only [view, Std.TreeMap.getElem?_insert, compare_eq_iff_eq]
    by_cases hx : x = lba
    · subst hx; simp [h]
    · rw [if_neg (fun h' => hx h'.symm), if_neg hx]

theorem hasDirty_iff : ctx.hasDirty lba = true ↔ ∃ d, ctx.view lba = some (d, true) := by
  unfold hasDirty view
  cases ctx.cache[lba]? with
  | none => simp
  | some b => cases hb : b.dirty <;> simp [hb]

end RawDiskCtx

theorem oldest_mem_aux : ∀ (l : List (ℕ × CacheBlock S)) (best : Option (ℕ × CacheBlock S))
    (r : ℕ × CacheBlock S), l.foldl (fun best e =>
      match best with
      | none => some e
      | some b => if e.2.seq < b.2.seq then some e else some b) best = some r → best = some r ∨ r ∈ l
  | [], best, r, h => Or.inl h
  | e :: l, best, r, h => by
    rcases oldest_mem_aux l _ r h with hb | hb
    · cases best with
      | none => simp only [Option.some.injEq] at hb; exact Or.inr (by simp [hb])
      | some b =>
        simp only at hb
        split_ifs at hb
        · simp only [Option.some.injEq] at hb; exact Or.inr (by simp [hb])
        · exact Or.inl hb
    · exact Or.inr (by simp [hb])

theorem RawDiskCtx.victimFor_spec {ctx : RawDiskCtx S} {lba victim : ℕ} {b : CacheBlock S}
    (h : ctx.victimFor lba = some (victim, b)) : ctx.view victim = some (b.data, b.dirty) ∧ ctx.view lba = none := by
  unfold victimFor at h
  split_ifs at h with hc
  simp only [Bool.and_eq_true, Option.isNone_iff_eq_none] at hc
  rcases oldest_mem_aux _ _ _ h with h' | h'
  · cases h'
  · rw [Std.TreeMap.mem_toList_iff_getElem?_eq_some] at h'
    exact ⟨by simp [view, h'], by simp [view, hc.1]⟩

end

end Archis.Disk
