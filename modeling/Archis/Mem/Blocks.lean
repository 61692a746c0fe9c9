/-
  Unordered lists of page blocks: the code shared by the frame allocator and the virtual allocator.

  Both keep `PageDescriptor`s in two lists, take pages by best fit (`bestFit`, `carve`) and give them back with a two-step
  merge (`coalesce`), on the physical or the virtual start address (`AddrField`).
-/
import Archis.Word
import Archis.Lib.Tiling

namespace Archis.Mem

open Archis.Lib
open List hiding get

/-- The error codes the allocators return. -/
inductive KError where
  | outOfMemory
  | invalidArgument
  deriving DecidableEq, Repr

/-- `PageDescriptor` of `kernel_intf::mem`. -/
structure PageDescriptor where
  numPages : ℕ
  startPhyAddress : ℕ
  startVirtAddress : ℕ
  flags : UInt8
  isMapped : Bool
  deriving DecidableEq, Repr

namespace PageDescriptor

def VIRTUAL : UInt8 := 1
def USER : UInt8 := 2
def NO_ALLOC : UInt8 := 4
def MMIO : UInt8 := 8
def WC : UInt8 := 16

/-- A descriptor of free pages or of a fresh reservation. -/
def unmapped (numPages phy virt : ℕ) : PageDescriptor := ⟨numPages, phy, virt, 0, false⟩

end PageDescriptor

/-- The start address an allocator works on: reading it and replacing it. -/
structure AddrField where
  get : PageDescriptor → ℕ
  put : PageDescriptor → ℕ → PageDescriptor
  get_put : ∀ d a, get (put d a) = a
  pages_put : ∀ d a, (put d a).numPages = d.numPages
  get_pages : ∀ d n, get { d with numPages := n } = get d

def virtField : AddrField where
  get := (·.startVirtAddress)
  put d a := { d with startVirtAddress := a }
  get_put _ _ := rfl
  pages_put _ _ := rfl
  get_pages _ _ := rfl

def phyField : AddrField where
  get := (·.startPhyAddress)
  put d a := { d with startPhyAddress := a }
  get_put _ _ := rfl
  pages_put _ _ := rfl
  get_pages _ _ := rfl

attribute [simp] AddrField.get_put AddrField.pages_put AddrField.get_pages

@[simp] theorem virtField_get (d : PageDescriptor) : virtField.get d = d.startVirtAddress := rfl

@[simp] theorem phyField_get (d : PageDescriptor) : phyField.get d = d.startPhyAddress := rfl

/-- `List::add_node` with nodes from `Region0`: the slots left and the list, unless no slot is left. -/
def addNode (slots : ℕ) (l : List PageDescriptor) (d : PageDescriptor) : Option (List PageDescriptor × ℕ) :=
  match slots with
  | 0 => none
  | slots + 1 => some (l ++ [d], slots)

variable {l : List PageDescriptor} {d : PageDescriptor}

theorem addNode_eq_some {slots : ℕ} {r : List PageDescriptor × ℕ} : addNode slots l d = some r ↔
    slots ≠ 0 ∧ r = (l ++ [d], slots - 1) := by
  cases slots with
  | zero => simp [addNode]
  | succ n => simp [addNode, eq_comm]

theorem addNode_eq {slots : ℕ} (h : slots ≠ 0) :
    addNode slots l d = some (l ++ [d], slots - 1) := addNode_eq_some.2 ⟨h, rfl⟩

/-- `iter().find(p)`: the first block that meets `p`, with its index in the place of the node pointer. -/
def locate (p : PageDescriptor → Bool) (l : List PageDescriptor) : Option (ℕ × PageDescriptor) :=
  (l.findIdx? p).bind fun i => (l[i]?).map fun d => (i, d)

section
variable {p : PageDescriptor → Bool} {l : List PageDescriptor}

theorem locate_spec {i : ℕ} {d : PageDescriptor} (h : locate p l = some (i, d)) : l[i]? = some d ∧ p d = true := by
  simp only [locate, Option.bind_eq_some_iff, Option.map_eq_some_iff, Prod.mk.injEq] at h
  obtain ⟨j, hj, e, he, rfl, rfl⟩ := h
  obtain ⟨hlt, hp, -⟩ := findIdx?_eq_some_iff_getElem.1 hj
  rw [getElem?_eq_getElem hlt, Option.some.injEq] at he
  rw [← he]; exact ⟨getElem?_eq_getElem hlt, hp⟩

theorem locate_eq_none : locate p l = none ↔ ∀ d ∈ l, p d = false := by
  constructor
  · intro h
    cases hf : l.findIdx? p with
    | none => exact findIdx?_eq_none_iff.1 hf
    | some i =>
      obtain ⟨hlt, -⟩ := findIdx?_eq_some_iff_getElem.1 hf
      simp [locate, hf, getElem?_eq_getElem hlt] at h
  · intro h
    rw [locate, findIdx?_eq_none_iff.2 h]; rfl

theorem exists_locate {d : PageDescriptor} (hd : d ∈ l) (hp : p d = true) : ∃ i e, locate p l = some (i, e) := by
  cases h : locate p l with
  | none => exact absurd hp (by simp [locate_eq_none.1 h d hd])
  | some r => exact ⟨r.1, r.2, rfl⟩

end

/-! ## Best fit -/

/-- The loop of `find_best_fit`: the first smallest block that `fits` admits; `best` is `smallest_blk`. -/
def bestFitFrom (fits : PageDescriptor → Bool) :
    List PageDescriptor → ℕ → Option (ℕ × PageDescriptor) → Option (ℕ × PageDescriptor)
  | [], _, best => best
  | block :: rest, i, best =>
    bestFitFrom fits rest (i + 1) <|
      if fits block then
        match best with
        | some (j, val) => if block.numPages < val.numPages then some (i, block) else some (j, val)
        | none => some (i, block)
      else best

/-- `smallest_blk` after the loop of `find_best_fit`. -/
def bestFit (fits : PageDescriptor → Bool) (l : List PageDescriptor) : Option (ℕ × PageDescriptor) :=
  bestFitFrom fits l 0 none

section
variable {fits : PageDescriptor → Bool}

theorem bestFitFrom_eq : ∀ (l : List PageDescriptor) (i : ℕ) (best : Option (ℕ × PageDescriptor)),
    bestFitFrom fits l i best = (((l.zipIdx i).map Prod.swap).filter fun b => fits b.2).foldl
      (argAux fun b c => b.2.numPages < c.2.numPages) best
  | [], _, _ => rfl
  | block :: rest, i, best => by
    unfold bestFitFrom
    rw [bestFitFrom_eq rest, zipIdx_cons, map_cons, filter_cons, Prod.swap_prod_mk]
    split_ifs
    · cases best <;> rfl
    · rfl

variable {l : List PageDescriptor} {d : PageDescriptor} {i : ℕ}

theorem bestFit_eq : bestFit fits l = ((l.zipIdx.map Prod.swap).filter fun b => fits b.2).argmin (·.2.numPages) :=
  bestFitFrom_eq l 0 none

theorem mem_candidates : (i, d) ∈ ((l.zipIdx.map Prod.swap).filter fun b => fits b.2) ↔
    l[i]? = some d ∧ fits d = true := by
  simp [mem_zipIdx_iff_getElem?]

theorem bestFit_spec (h : bestFit fits l = some (i, d)) : l[i]? = some d ∧ fits d = true :=
  mem_candidates.1 (argmin_mem (bestFit_eq ▸ h))

theorem bestFit_le {e : PageDescriptor} (h : bestFit fits l = some (i, d)) (he : e ∈ l) (hf : fits e = true) :
    d.numPages ≤ e.numPages := by
  obtain ⟨j, hj⟩ := getElem?_of_mem he
  exact le_of_mem_argmin (f := fun b : ℕ × PageDescriptor => b.2.numPages) (mem_candidates.2 ⟨hj, hf⟩)
    (bestFit_eq ▸ h)

theorem exists_bestFit (hd : d ∈ l) (hf : fits d = true) : ∃ i e, bestFit fits l = some (i, e) := by
  obtain ⟨j, hj⟩ := getElem?_of_mem hd
  cases h : bestFit fits l with
  | none =>
    rw [bestFit_eq, argmin_eq_none] at h
    exact absurd (mem_candidates.2 ⟨hj, hf⟩) (h ▸ not_mem_nil)
  | some r => exact ⟨r.1, r.2, rfl⟩

end

/-! ## Blocks as intervals -/

def pagesIn (l : List PageDescriptor) : ℕ := (l.map (·.numPages)).sum

theorem pagesIn_append (l l' : List PageDescriptor) : pagesIn (l ++ l') = pagesIn l + pagesIn l' := by
  simp [pagesIn]

@[simp] theorem pagesIn_singleton (d : PageDescriptor) : pagesIn [d] = d.numPages := by simp [pagesIn]

theorem wsub_pages {f f' n : ℕ} (hn : f' + n = f) (hf : PAGE_SIZE * f < 2 ^ 64) :
    wsub (PAGE_SIZE * f) (wmul n PAGE_SIZE) = PAGE_SIZE * f' := by
  simp only [PAGE_SIZE] at *
  rw [wmul_eq (by omega), wsub_eq (by omega) hf]; omega

theorem wadd_pages {f f' n : ℕ} (hn : f' = f + n) (hf : PAGE_SIZE * f' < 2 ^ 64) :
    wadd (PAGE_SIZE * f) (wmul n PAGE_SIZE) = PAGE_SIZE * f' := by
  simp only [PAGE_SIZE] at *
  rw [wmul_eq (by omega), wadd_eq (by omega)]; omega

namespace AddrField
variable (F : AddrField)

def stop (d : PageDescriptor) : ℕ := F.get d + d.numPages * PAGE_SIZE

def wstop (d : PageDescriptor) : ℕ := wadd (F.get d) (wmul d.numPages PAGE_SIZE)

/-- The number of blocks of `l` that contain the address `x`. -/
def cover (l : List PageDescriptor) (x : ℕ) : ℕ := Lib.cover F.get F.stop l x

/-- The blocks of `l` are page-aligned and end at or below `B`. -/
def Bounded (B : ℕ) (l : List PageDescriptor) : Prop :=
  ∀ d ∈ l, PAGE_SIZE ∣ F.get d ∧ F.stop d ≤ B

variable {F} {B : ℕ} {l l' : List PageDescriptor} {d : PageDescriptor} {a i n : ℕ}

theorem wstop_eq (h : F.stop d < 2 ^ 64) : F.wstop d = F.stop d := by
  unfold stop at h
  rw [wstop, wmul_eq (by omega), wadd_eq (by omega)]; rfl

theorem Bounded.append (h : F.Bounded B l) (h' : F.Bounded B l') : F.Bounded B (l ++ l') :=
  fun d hd => (mem_append.1 hd).elim (h d) (h' d)

theorem Bounded.singleton (h₁ : PAGE_SIZE ∣ F.get d) (h₂ : F.stop d ≤ B) : F.Bounded B [d] :=
  fun e he => by rw [mem_singleton.1 he]; exact ⟨h₁, h₂⟩

theorem Bounded.snoc (h : F.Bounded B l) (ha : PAGE_SIZE ∣ a) (hs : a + n * PAGE_SIZE ≤ B)
    (hd : F.get d = a) (hn : d.numPages = n) : F.Bounded B (l ++ [d]) :=
  h.append (.singleton (by rw [hd]; exact ha) (by rw [stop, hd, hn]; exact hs))

theorem Bounded.eraseIdx (h : F.Bounded B l) (i : ℕ) : F.Bounded B (l.eraseIdx i) :=
  fun d hd => h d (mem_of_mem_eraseIdx hd)

theorem Bounded.set (h : F.Bounded B l) (i : ℕ) (h₁ : PAGE_SIZE ∣ F.get d) (h₂ : F.stop d ≤ B) :
    F.Bounded B (l.set i d) := fun e he => by
  rcases mem_or_eq_of_mem_set he with he | rfl
  exacts [h e he, ⟨h₁, h₂⟩]

theorem Bounded.perm (h : F.Bounded B l) (hp : l.Perm l') : F.Bounded B l' := fun d hd => h d (hp.mem_iff.2 hd)

theorem cover_append (x : ℕ) : F.cover (l ++ l') x = F.cover l x + F.cover l' x :=
  Lib.cover_append _ _ _ _ _

theorem cover_cons (d : PageDescriptor) (x : ℕ) :
    F.cover (d :: l) x = hits (F.get d) (F.stop d) x + F.cover l x := Lib.cover_cons _ _ _ _ _

theorem cover_perm (h : l.Perm l') (x : ℕ) : F.cover l x = F.cover l' x := (h.map _).sum_eq

theorem cover_singleton (d : PageDescriptor) (x : ℕ) :
    F.cover [d] x = hits (F.get d) (F.stop d) x := by simp [cover, Lib.cover]

theorem cover_snoc (ha : F.get d = a) (hn : d.numPages = n) (x : ℕ) :
    F.cover (l ++ [d]) x = F.cover l x + hits a (a + n * PAGE_SIZE) x := by
  rw [cover_append, cover_singleton, stop, ha, hn]

theorem cover_set {e : PageDescriptor} (h : l[i]? = some e) (x : ℕ) :
    F.cover (l.set i d) x + hits (F.get e) (F.stop e) x =
      F.cover l x + hits (F.get d) (F.stop d) x := sum_map_set _ l i d e h

theorem cover_eraseIdx (h : l[i]? = some d) (x : ℕ) :
    F.cover (l.eraseIdx i) x + hits (F.get d) (F.stop d) x = F.cover l x := sum_map_eraseIdx _ l i d h

theorem sum_length (l : List PageDescriptor) : (l.map fun d => F.stop d - F.get d).sum = PAGE_SIZE * pagesIn l := by
  have hlen : (fun d => F.stop d - F.get d) = fun d : PageDescriptor => PAGE_SIZE * d.numPages := by
    funext d; rw [stop, Nat.add_sub_cancel_left, Nat.mul_comm]
  rw [hlen, sum_map_mul_left, pagesIn]

theorem pagesIn_le (hl : F.Bounded B l) (h : ∀ x, F.cover l x ≤ 1) : PAGE_SIZE * pagesIn l ≤ B :=
  sum_length (F := F) l ▸ sum_length_le F.get F.stop (fun d hd => (hl d hd).2) h

/-- The number of pages depends only on what is covered. -/
theorem pagesIn_congr (h : ∀ x, F.cover l x = F.cover l' x) : pagesIn l = pagesIn l' := by
  have hsum := sum_length_congr F.get F.stop h
  rw [sum_length, sum_length] at hsum
  exact Nat.eq_of_mul_eq_mul_left (by decide) hsum

theorem pagesIn_add (h : ∀ x, F.cover l' x + hits a (a + n * PAGE_SIZE) x = F.cover l x) :
    pagesIn l' + n = pagesIn l := by
  rw [← pagesIn_congr fun x => (cover_snoc (F.get_put (.unmapped n 0 0) a) (F.pages_put _ _) x).trans (h x),
    pagesIn_append, pagesIn_singleton, pages_put]
  rfl

end AddrField

open AddrField (cover_eraseIdx cover_perm cover_set get_pages get_put pages_put stop wstop_eq)

/-! ## Carving -/

section
variable (F : AddrField)

/-- Takes `pages` pages from the front of the block `d`; a block left without pages is removed. -/
def carve (l : List PageDescriptor) (i : ℕ) (d : PageDescriptor) (pages : ℕ) : List PageDescriptor :=
  let d' := F.put { d with numPages := d.numPages - pages } (wadd (F.get d) (wmul pages PAGE_SIZE))
  if d'.numPages = 0 then l.eraseIdx i else l.set i d'

variable {F} {B : ℕ} {l : List PageDescriptor} {i : ℕ} {d : PageDescriptor} {pages : ℕ}

/-- What is left of a block when its front is cut off. -/
theorem cut_spec (hp : pages ≤ d.numPages) (hst : F.stop d < 2 ^ 64) :
    let d' := F.put { d with numPages := d.numPages - pages } (wadd (F.get d) (wmul pages PAGE_SIZE))
    F.get d' = F.get d + pages * PAGE_SIZE ∧ F.stop d' = F.stop d ∧ d'.numPages = d.numPages - pages := by
  have hpm : pages * PAGE_SIZE ≤ d.numPages * PAGE_SIZE := Nat.mul_le_mul_right _ hp
  unfold stop at *
  have hw : wadd (F.get d) (wmul pages PAGE_SIZE) = F.get d + pages * PAGE_SIZE := by
    rw [wmul_eq (by omega), wadd_eq (by omega)]
  simp only [get_put, pages_put, hw, Nat.sub_mul, true_and, and_true]
  omega

/-- **Carving removes the front of the block.** -/
theorem carve_spec (hB : B < 2 ^ 64) (hl : F.Bounded B l) (hd : l[i]? = some d) (hp : pages ≤ d.numPages) : (∀ x,
    F.cover (carve F l i d pages) x + hits (F.get d) (F.get d + pages * PAGE_SIZE) x = F.cover l x) ∧
    F.Bounded B (carve F l i d pages) := by
  obtain ⟨hal, hst⟩ := hl d (mem_of_getElem? hd)
  have hsplit : ∀ x, hits (F.get d) (F.stop d) x = hits (F.get d) (F.get d + pages * PAGE_SIZE) x +
      hits (F.get d + pages * PAGE_SIZE) (F.stop d) x :=
    hits_split (Nat.le_add_right _ _) (Nat.add_le_add_left (Nat.mul_le_mul_right _ hp) _)
  obtain ⟨hg, hs, hn⟩ := cut_spec hp (hst.trans_lt hB)
  unfold carve
  generalize F.put _ _ = d' at *
  dsimp only
  split_ifs with h0
  · have hpd : pages = d.numPages := by omega
    refine ⟨fun x => ?_, hl.eraseIdx i⟩
    rw [hpd]; exact cover_eraseIdx hd x
  refine ⟨fun x => ?_, hl.set i ?_ (by rw [hs]; exact hst)⟩
  · have h1 := cover_set (F := F) (d := d') hd x
    have h2 := hsplit x
    rw [hg, hs] at h1; omega
  · rw [hg]; exact Dvd.dvd.add hal (Dvd.intro_left _ rfl)

theorem carve_ne (hB : B < 2 ^ 64) (hl : F.Bounded B l) (hd : l[i]? = some d) (hp : pages ≤ d.numPages)
    (h0 : 0 < pages) : carve F l i d pages ≠ l := by
  intro heq
  have h1 := AddrField.pagesIn_add (carve_spec hB hl hd hp).1
  rw [heq] at h1
  omega

end

/-! ## Coalescing -/

section
variable (F : AddrField) (guard : ℕ → Bool)

/-- `blk` ends where the freed range starts. -/
def endsAt (addr : ℕ) (blk : PageDescriptor) : Bool := F.wstop blk == addr && guard addr

/-- The freed range ends where `blk` starts. -/
def startsAt (stop : ℕ) (blk : PageDescriptor) : Bool := stop == F.get blk && guard (F.get blk)

/-- The first block that the freed range touches, with the range merged in. -/
def mergeInto (addr pages : ℕ) (blk : PageDescriptor) : PageDescriptor :=
  if endsAt F guard addr blk then { blk with numPages := blk.numPages + pages }
  else F.put { blk with numPages := blk.numPages + pages } (wsub (F.get blk) (wmul pages PAGE_SIZE))

def meets (blk item : PageDescriptor) : Bool :=
  (F.wstop item == F.get blk && guard (F.get blk)) || (F.wstop blk == F.get item && guard (F.get item))

def join (blk item : PageDescriptor) : PageDescriptor :=
  F.put { item with numPages := item.numPages + blk.numPages } (min (F.get blk) (F.get item))

/-- Gives a range back to the free list: it is merged with the first block it touches, the result with the first
it touches in turn; one that touches nothing becomes the block `fresh`.  `guard` tells where blocks may be
merged. -/
def coalesce (slots : ℕ) (l : List PageDescriptor) (addr pages : ℕ) (fresh : PageDescriptor) :
    Option (List PageDescriptor × ℕ) :=
  match locate (fun blk =>
      endsAt F guard addr blk || startsAt F guard (wadd addr (wmul pages PAGE_SIZE)) blk) l with
  | none => addNode slots l fresh
  | some (i, found) =>
    let blk := mergeInto F guard addr pages found
    let l₁ := l.set i blk
    match locate (meets F guard blk) l₁ with
    | none => some (l₁, slots)
    | some (j, item) => some ((l₁.set j (join F blk item)).eraseIdx i, slots + 1)

end

section
variable {F : AddrField} {guard : ℕ → Bool} {B addr pages : ℕ} {l : List PageDescriptor}
  {blk item : PageDescriptor} {slots : ℕ}

theorem meets_iff (h₁ : F.stop blk < 2 ^ 64) (h₂ : F.stop item < 2 ^ 64) : meets F guard blk item = true ↔
    F.stop item = F.get blk ∧ guard (F.get blk) = true ∨ F.stop blk = F.get item ∧ guard (F.get item) = true := by
  simp only [meets, wstop_eq h₁, wstop_eq h₂, Bool.or_eq_true, Bool.and_eq_true, beq_iff_eq]

/-- The range touches the block. -/
def Touches (F : AddrField) (guard : ℕ → Bool) (addr pages : ℕ) (blk : PageDescriptor) : Bool :=
  endsAt F guard addr blk || startsAt F guard (wadd addr (wmul pages PAGE_SIZE)) blk

theorem touches_iff (h₁ : addr + pages * PAGE_SIZE < 2 ^ 64) (h₂ : F.stop blk < 2 ^ 64) :
    Touches F guard addr pages blk = true ↔ F.stop blk = addr ∧ guard addr = true ∨
      addr + pages * PAGE_SIZE = F.get blk ∧ guard (F.get blk) = true := by
  simp only [Touches, endsAt, startsAt, wstop_eq h₂, wmul_eq (show pages * PAGE_SIZE < 2 ^ 64 by omega),
    wadd_eq h₁, Bool.or_eq_true, Bool.and_eq_true, beq_iff_eq]

/-- A block merged with a range that it touches runs from the first start to the last end. -/
theorem mergeInto_spec (h₁ : addr + pages * PAGE_SIZE < 2 ^ 64) (h₂ : F.stop blk < 2 ^ 64)
    (ht : Touches F guard addr pages blk = true) :
    F.get (mergeInto F guard addr pages blk) = min addr (F.get blk) ∧
      F.stop (mergeInto F guard addr pages blk) = max (addr + pages * PAGE_SIZE) (F.stop blk) := by
  rw [touches_iff h₁ h₂] at ht
  unfold mergeInto endsAt
  rw [wstop_eq h₂]
  split_ifs with he <;> simp only [Bool.and_eq_true, beq_iff_eq] at he <;> simp only [stop, PAGE_SIZE] at *
  · simp only [get_pages]
    omega
  · have hget := (ht.resolve_left he).1
    rw [get_put, pages_put, wmul_eq (by omega), wsub_eq (by omega) (by omega)]
    simp only
    omega

theorem join_spec (h : F.stop item = F.get blk ∨ F.stop blk = F.get item) :
    F.get (join F blk item) = min (F.get blk) (F.get item) ∧
      F.stop (join F blk item) = max (F.stop blk) (F.stop item) := by
  simp only [stop, join, get_put, pages_put, PAGE_SIZE, true_and] at h ⊢
  omega

theorem exists_coalesce (F : AddrField) (guard : ℕ → Bool) (h : slots ≠ 0) (l : List PageDescriptor)
    (addr pages : ℕ) (fresh : PageDescriptor) : ∃ r, coalesce F guard slots l addr pages fresh = some r := by
  unfold coalesce
  split
  · exact ⟨_, addNode_eq h⟩
  · dsimp only
    split
    · exact ⟨_, rfl⟩
    · exact ⟨_, rfl⟩

/-- What coalescing does: the range becomes a block of its own, or is merged with a block `found`, and the result
with a block `item`.  A result without pages is dropped. -/
theorem coalesce_cases {fresh : PageDescriptor} {r : List PageDescriptor × ℕ}
    (h : coalesce F guard slots l addr pages fresh = some r) :
    (∀ e ∈ l, Touches F guard addr pages e = false) ∧ r.1 = l ++ [fresh] ∨
    ∃ found rest, l.Perm (found :: rest) ∧ Touches F guard addr pages found = true ∧
      ((∀ e ∈ rest, meets F guard (mergeInto F guard addr pages found) e = false) ∧
          r.1.Perm (mergeInto F guard addr pages found :: rest) ∨
        (∃ item rest', rest.Perm (item :: rest') ∧ meets F guard (mergeInto F guard addr pages found) item = true ∧
          r.1.Perm (join F (mergeInto F guard addr pages found) item :: rest')) ∨
        meets F guard (mergeInto F guard addr pages found) (mergeInto F guard addr pages found) = true ∧
          r.1.Perm rest) := by
  unfold coalesce at h
  split at h
  · rename_i hloc
    obtain ⟨-, rfl⟩ := addNode_eq_some.1 h
    exact .inl ⟨locate_eq_none.1 hloc, rfl⟩
  rename_i i found hloc
  obtain ⟨hfound, ht⟩ := locate_spec hloc
  obtain ⟨hi, rfl⟩ := List.getElem?_eq_some_iff.1 hfound
  simp only at h
  refine .inr ⟨_, _, (getElem_cons_eraseIdx_perm hi).symm, ht, ?_⟩
  generalize mergeInto F guard addr pages l[i] = blk at h ⊢
  have hset := set_perm_cons_eraseIdx hi blk
  split at h
  · rename_i hloc'
    cases h
    exact .inl ⟨fun e he => locate_eq_none.1 hloc' e (hset.mem_iff.2 (.tail _ he)), hset⟩
  rename_i j item hloc'
  cases h
  obtain ⟨hitem, hm⟩ := locate_spec hloc'
  have hblk : (l.set i blk)[i]? = some blk := getElem?_set_self hi
  by_cases hij : j = i
  · subst hij
    obtain rfl : blk = item := Option.some.inj (hblk.symm.trans hitem)
    refine .inr (.inr ⟨hm, ?_⟩)
    rw [eraseIdx_set_eq, eraseIdx_set_eq]
  · -- the list is `item`, `blk` and the rest, and `blk` goes
    obtain ⟨hj, rfl⟩ := List.getElem?_eq_some_iff.1 hitem
    have hi' : ((l.set i blk).set j (join F blk (l.set i blk)[j]))[i]? = some blk := by
      rw [getElem?_set_ne hij, hblk]
    obtain ⟨hi₂, hb⟩ := List.getElem?_eq_some_iff.1 hi'
    have h1 := getElem_cons_eraseIdx_perm hi₂
    rw [hb] at h1
    have h2 := h1.trans (set_perm_cons_eraseIdx hj _)
    have hmem : blk ∈ (l.set i blk).eraseIdx j := mem_eraseIdx_iff_getElem?.2 ⟨i, Ne.symm hij, hblk⟩
    have h3 := perm_cons_erase hmem
    refine .inr (.inl ⟨_, ((l.set i blk).eraseIdx j).erase blk, ?_, hm, ?_⟩)
    · exact (hset.symm.trans ((getElem_cons_eraseIdx_perm hj).symm.trans
        ((h3.cons _).trans (.swap ..)))).cons_inv
    · exact (h2.trans ((h3.cons _).trans (.swap ..))).cons_inv

/-- A block that has taken up the range `[a, b)` next to the block `v`. -/
theorem union_spec {u v : PageDescriptor} {a b : ℕ} (hget : F.get u = min a (F.get v))
    (hstop : F.stop u = max b (F.stop v)) (ht : F.stop v = a ∨ b = F.get v) (hab : a ≤ b)
    (ha : PAGE_SIZE ∣ a ∧ b ≤ B) (hv : PAGE_SIZE ∣ F.get v ∧ F.stop v ≤ B) :
    (∀ x, hits (F.get u) (F.stop u) x = hits a b x + hits (F.get v) (F.stop v) x) ∧
      PAGE_SIZE ∣ F.get u ∧ F.stop u ≤ B := by
  rw [hget, hstop]
  refine ⟨hits_union ht hab (Nat.le_add_right _ _), ?_, max_le ha.2 hv.2⟩
  rcases min_choice a (F.get v) with hmin | hmin <;> rw [hmin]
  exacts [ha.1, hv.1]

/-- **Coalescing adds the freed range**, wherever it is merged. -/
theorem coalesce_spec {fresh : PageDescriptor} {r : List PageDescriptor × ℕ}
    (h : coalesce F guard slots l addr pages fresh = some r) (hB : B < 2 ^ 64) (hl : F.Bounded B l)
    (ha : PAGE_SIZE ∣ addr) (hs : addr + pages * PAGE_SIZE ≤ B) (hfa : F.get fresh = addr)
    (hfn : fresh.numPages = pages) : (∀ x, F.cover r.1 x = F.cover l x + hits addr
    (addr + pages * PAGE_SIZE) x) ∧ F.Bounded B r.1 := by
  rcases coalesce_cases h with ⟨-, heq⟩ | ⟨found, rest, hl₁, ht, h⟩
  · rw [heq]
    exact ⟨fun x => AddrField.cover_snoc hfa hfn x, hl.snoc ha hs hfa hfn⟩
  obtain ⟨hfound, hrest⟩ := forall_mem_cons.1 (hl.perm hl₁)
  have hfl := hfound.2.trans_lt hB
  obtain ⟨hg, hst⟩ := mergeInto_spec (F := F) (hs.trans_lt hB) hfl ht
  rw [touches_iff (hs.trans_lt hB) hfl] at ht
  obtain ⟨hc, hblk⟩ := union_spec hg hst (ht.imp And.left And.left) (Nat.le_add_right _ _) ⟨ha, hs⟩ hfound
  generalize mergeInto F guard addr pages found = blk at *
  have hbl := hblk.2.trans_lt hB
  -- after the first merge the range is covered
  have hc₁ : ∀ x, F.cover (blk :: rest) x = F.cover l x + hits addr (addr + pages * PAGE_SIZE) x := fun x => by
    rw [cover_perm hl₁, AddrField.cover_cons, AddrField.cover_cons, hc x]
    omega
  have hbd : F.Bounded B (blk :: rest) := forall_mem_cons.2 ⟨hblk, hrest⟩
  rcases h with ⟨-, hp⟩ | ⟨item, rest', hp', hm, hp⟩ | ⟨hm, hp⟩
  · exact ⟨fun x => (cover_perm hp x).trans (hc₁ x), hbd.perm hp.symm⟩
  · obtain ⟨hitem, hrest'⟩ := forall_mem_cons.1 (AddrField.Bounded.perm hrest hp')
    rw [meets_iff hbl (hitem.2.trans_lt hB)] at hm
    obtain ⟨hg', hst'⟩ := join_spec (F := F) (hm.imp And.left And.left)
    obtain ⟨hc', hjoin⟩ := union_spec hg' hst' (hm.imp And.left And.left) (Nat.le_add_right _ _) hblk hitem
    refine ⟨fun x => ?_, AddrField.Bounded.perm (forall_mem_cons.2 ⟨hjoin, hrest'⟩) hp.symm⟩
    rw [cover_perm hp, AddrField.cover_cons, hc' x, ← hc₁ x, AddrField.cover_cons, cover_perm hp', AddrField.cover_cons, Nat.add_assoc]
  · refine ⟨fun x => ?_, AddrField.Bounded.perm hrest hp.symm⟩
    rw [meets_iff hbl hbl] at hm
    have hnil : F.stop blk = F.get blk := hm.elim And.left And.left
    rw [cover_perm hp, ← hc₁ x, AddrField.cover_cons, hnil, hits_self, Nat.zero_add]

end

end Archis.Mem
