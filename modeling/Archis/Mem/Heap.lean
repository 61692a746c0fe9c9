/-
  The kernel heap: `LinkedListAllocator` of `mem/heap_allocator.rs`.

  Free memory is a list of regions, first fit, and the nodes of the list lie in the regions themselves (`NodeMem`).
  `exec_safe`: the live blocks are aligned, inside the heap's memory, and disjoint from each other and from the free
  regions.
-/
import Archis.Lib.NodeList
import Archis.Lib.Run
import Archis.Lib.Tiling
import Archis.Mem.Syscalls

namespace Archis.Mem

open Archis.Lib
open VirtMemConBlk (kernelEnd kernelEnd_lt)
open List hiding Disjoint next

/-! ## The code -/

/-- `size_of::<ListNode>()`. -/
def LIST_NODE_SIZE : ℕ := 16

/-- `align_of::<ListNode>()`. -/
def LIST_NODE_ALIGN : ℕ := 8

/-- `align_up`, for a power of two. -/
def alignUp (a alignment : ℕ) : ℕ := wadd a (alignment - 1) / alignment * alignment

structure LinkedListAllocator where
  /-- The head of the free list and the words of the memory. -/
  nodes : NodeMem
  backingMemory : ℕ

namespace LinkedListAllocator

def new (word : ℕ → ℕ) : LinkedListAllocator := ⟨⟨0, word⟩, 0⟩

/-- `find_fit`: the first region with room for the block and the padding before it is taken out. -/
def findFit (fuel size align : ℕ) (m : NodeMem) : Option (Option (ℕ × ℕ) × NodeMem) :=
  m.unlinkFirst (fun addr n => n ≥ wadd size (wsub (alignUp addr align) addr)) fuel 0 m.head

/-- The loop of `add_free_region`: regions that touch the new one become a part of it. -/
def mergeLoop (walk : ℕ) : ℕ → ℕ → ℕ → NodeMem → Option (ℕ × ℕ × NodeMem)
  | 0, _, _, _ => none
  | fuel + 1, addr, size, m =>
    match m.unlinkFirst (fun a n => wadd a n == addr || wadd addr size == a) walk 0 m.head with
    | none => none
    | some (none, m) => some (addr, size, m)
    | some (some (a, n), m) => mergeLoop walk fuel (if wadd a n = addr then a else addr) (wadd size n) m

def addFreeRegion (fuel addr size : ℕ) (m : NodeMem) : Option NodeMem :=
  (mergeLoop fuel fuel addr size m).map fun (a, n, m) => m.pushFront a n

section
variable (h : LinkedListAllocator) (fuel size align : ℕ)

/-- `use_list_node`, for the node of `n` bytes at `addr`. -/
def useListNode (fuel addr n size align : ℕ) : Option (ℕ × LinkedListAllocator) :=
  let alignedAddr := alignUp addr align
  let nextAlignedAddr := alignUp (wadd alignedAddr size) LIST_NODE_ALIGN
  let used := wsub nextAlignedAddr addr
  let backingMemory := h.backingMemory - size
  if n ≥ used ∧ n - used ≥ LIST_NODE_SIZE then
    (addFreeRegion fuel nextAlignedAddr (n - used) h.nodes).map fun nodes =>
      (alignedAddr, ⟨nodes, backingMemory⟩)
  else some (alignedAddr, ⟨h.nodes, backingMemory⟩)

def fromList : Option (Option ℕ × LinkedListAllocator) :=
  match findFit fuel size align h.nodes with
  | none => none
  | some (none, nodes) => some (none, { h with nodes })
  | some (some (addr, n), nodes) =>
    ({ h with nodes }.useListNode fuel addr n size align).map fun (p, h) => (some p, h)

/-- The rest of `heap_alloc_impl`, when no region serves; `mem` is the reply of `allocate_memory`.  The reply is
the block, or 0, and the memory that has been obtained. -/
def fromMemory (mem : Option ℕ) : Option (ℕ × Option (ℕ × ℕ) × LinkedListAllocator) :=
  let allocSize := alignUp size PAGE_SIZE
  if allocSize = 0 ∨ Process.pageAligned allocSize = none then none
  else match mem with
    | none => some (0, none, h)
    | some mem => (addFreeRegion fuel mem allocSize h.nodes).bind fun nodes =>
      (fromList ⟨nodes, wadd h.backingMemory allocSize⟩ fuel size align).map fun (p, h) =>
        (p.getD 0, some (mem, allocSize), h)

def heapAllocImpl (mem : Option ℕ) : Option (ℕ × Option (ℕ × ℕ) × LinkedListAllocator) :=
  let size := max size LIST_NODE_SIZE
  let align := max align LIST_NODE_ALIGN
  if h.backingMemory ≥ size then
    match h.fromList fuel size align with
    | none => none
    | some (some p, h) => some (p, none, h)
    | some (none, h) => h.fromMemory fuel size align mem
  else h.fromMemory fuel size align mem

def heapDeallocImpl (fuel addr size : ℕ) : Option LinkedListAllocator :=
  let size := max size LIST_NODE_SIZE
  (addFreeRegion fuel addr size h.nodes).map fun nodes => ⟨nodes, wadd h.backingMemory size⟩

end

end LinkedListAllocator

/-! ## Runs -/

/-- A live block, as it was asked for. -/
structure HeapBlock where
  addr : ℕ
  size : ℕ
  align : ℕ
  deriving DecidableEq

def HeapBlock.range (b : HeapBlock) : Set ℕ := Set.Ico b.addr (b.addr + b.size)

def regionRange (x : ℕ × ℕ) : Set ℕ := Set.Ico x.1 (x.1 + x.2)

/-- The heap, the blocks that programs hold, and what `allocate_memory` has given: address and size. -/
structure HeapRun where
  heap : LinkedListAllocator
  live : List HeapBlock
  chunks : List (ℕ × ℕ)

namespace HeapRun

inductive Call where
  | alloc (size align : ℕ) (mem : Option ℕ)
  | dealloc (i : ℕ)
  /-- The programs write to their blocks. -/
  | write (word : ℕ → ℕ)

def start (word : ℕ → ℕ) : HeapRun := ⟨.new word, [], []⟩

def step (s : HeapRun) : ℕ × Call → Option HeapRun
  | (fuel, .alloc size align mem) => (s.heap.heapAllocImpl fuel size align mem).map fun (p, chunk, heap) =>
    { heap, live := if p = 0 then s.live else ⟨p, size, align⟩ :: s.live, chunks := chunk.toList ++ s.chunks }
  | (fuel, .dealloc i) => (s.live[i]?).bind fun b => (s.heap.heapDeallocImpl fuel b.addr b.size).map fun heap =>
    { s with heap, live := s.live.eraseIdx i }
  | (_, .write word) => some { s with heap := { s.heap with nodes := { s.heap.nodes with word } } }

/-- The memory is new: page-aligned, in the kernel's range, and not given out before. -/
def Fresh (s : HeapRun) (addr size : ℕ) : Prop :=
  PAGE_SIZE ∣ addr ∧ 0 < addr ∧ addr + size ≤ kernelEnd ∧
    ∀ c ∈ s.chunks, Disjoint (Set.Ico addr (addr + size)) (Set.Ico c.1 (c.1 + c.2))

/-- What the callers and `allocate_memory` promise. -/
def Env (s : HeapRun) : ℕ × Call → Prop
  | (_, .alloc size align mem) => size < 2 ^ 64 ∧ (∃ k, align = 2 ^ k) ∧ align ≤ PAGE_SIZE ∧
      ∀ addr, mem = some addr → s.Fresh addr (alignUp (max size LIST_NODE_SIZE) PAGE_SIZE)
  | (_, .dealloc _) => True
  | (_, .write word) => ∀ w, LIST_NODE_ALIGN ∣ w → (∀ b ∈ s.live, w + 8 ≤ b.addr ∨ b.addr + b.size ≤ w) →
      word w = s.heap.nodes.word w

/-- **Heap safety**, for the regions `l` of the free list. -/
structure Safe (s : HeapRun) (l : List (ℕ × ℕ)) : Prop where
  list : s.heap.nodes.IsList l
  aligned : ∀ b ∈ s.live, b.align ∣ b.addr
  inside : ∀ b ∈ s.live, b.range ⊆ ⋃ c ∈ s.chunks, regionRange c
  disjoint : s.live.Pairwise fun b c => Disjoint b.range c.range
  apart : ∀ b ∈ s.live, ∀ x ∈ l, Disjoint b.range (regionRange x)
  regions : l.Pairwise fun x y => Disjoint (regionRange x) (regionRange y)

end HeapRun

/-! ## Regions -/

theorem alignUp_spec {a k : ℕ} (hk : 0 < k) (h : a + k ≤ 2 ^ 64) :
    k ∣ alignUp a k ∧ a ≤ alignUp a k ∧ alignUp a k < a + k := by
  unfold alignUp
  rw [wadd_eq (by omega)]
  refine ⟨Nat.dvd_mul_left _ _, ?_, ?_⟩
  · have := Nat.lt_div_mul_add (a := a + (k - 1)) hk
    omega
  · have := Nat.div_mul_le_self (a + (k - 1)) k
    omega

theorem alignUp_of_dvd {a k : ℕ} (hk : 0 < k) (h : a + k ≤ 2 ^ 64) (hd : k ∣ a) : alignUp a k = a := by
  obtain ⟨h1, h2, h3⟩ := alignUp_spec hk h
  have := Nat.eq_zero_of_dvd_of_lt (Nat.dvd_sub h1 hd) (by omega)
  omega

def regionCover (l : List (ℕ × ℕ)) (x : ℕ) : ℕ := cover Prod.fst (fun r => r.1 + r.2) l x

theorem regionCover_cons (r : ℕ × ℕ) (l : List (ℕ × ℕ)) (x : ℕ) :
    regionCover (r :: l) x = hits r.1 (r.1 + r.2) x + regionCover l x := cover_cons _ _ r l x

theorem spaced_of_cover {l : List (ℕ × ℕ)} (hsize : ∀ r ∈ l, LIST_NODE_SIZE ≤ r.2)
    (h : ∀ x, regionCover l x ≤ 1) : Spaced l := by
  refine (pairwise_disjoint_of_cover _ _ h).imp_of_mem fun {r q} hr hq hd => ?_
  have h1 := hsize r hr
  have h2 := hsize q hq
  simp only [LIST_NODE_SIZE] at h1 h2
  by_contra hno
  rcases le_total r.1 q.1 with hle | hle
  · exact Set.disjoint_left.1 hd (show q.1 ∈ Set.Ico r.1 (r.1 + r.2) from ⟨hle, by omega⟩) ⟨le_rfl, by omega⟩
  · exact Set.disjoint_left.1 hd (show r.1 ∈ Set.Ico r.1 (r.1 + r.2) from ⟨le_rfl, by omega⟩) ⟨hle, by omega⟩

theorem regionCover_append (l l' : List (ℕ × ℕ)) (x : ℕ) :
    regionCover (l ++ l') x = regionCover l x + regionCover l' x := cover_append _ _ l l' x

theorem regionCover_eraseP {test : ℕ × ℕ → Bool} {l : List (ℕ × ℕ)} {r : ℕ × ℕ} (h : l.find? test = some r)
    (x : ℕ) : regionCover (l.eraseP test) x + hits r.1 (r.1 + r.2) x = regionCover l x := by
  obtain ⟨hr, as, bs, rfl, has⟩ := find?_eq_some_iff_append.1 h
  rw [eraseP_append_right _ (by simpa using has), eraseP_cons_of_pos hr]
  simp only [regionCover_append, regionCover_cons]
  omega

/-- The regions of a free list: aligned, and large enough for a node. -/
structure Regions (m : NodeMem) (l : List (ℕ × ℕ)) : Prop where
  list : m.IsList l
  node : ∀ r ∈ l, LIST_NODE_ALIGN ∣ r.1 ∧ LIST_NODE_SIZE ≤ r.2

/-- The regions start and end at multiples of the size of a node. -/
def Whole (l : List (ℕ × ℕ)) : Prop := ∀ r ∈ l, LIST_NODE_SIZE ∣ r.1 ∧ LIST_NODE_SIZE ∣ r.2

theorem whole_cons {r : ℕ × ℕ} {l : List (ℕ × ℕ)} :
    Whole (r :: l) ↔ (LIST_NODE_SIZE ∣ r.1 ∧ LIST_NODE_SIZE ∣ r.2) ∧ Whole l := forall_mem_cons

/-- A request for a multiple of a node with the alignment of one turns the regions `l` into `l'`, and no byte is lost. -/
def Exactly (size align : ℕ) (l l' : List (ℕ × ℕ)) : Prop :=
  LIST_NODE_SIZE ∣ size → align ∣ LIST_NODE_SIZE → Whole l → Whole l' ∧ ∀ x, regionCover l' x = regionCover l x

/-- Memory that has no address 0 and ends before the address space does. -/
structure Backing (mem : ℕ → ℕ) : Prop where
  le_one : ∀ x, mem x ≤ 1
  bound : ∀ x, 0 < mem x → 0 < x ∧ x < kernelEnd

section
variable {mem : ℕ → ℕ} {m : NodeMem} {l : List (ℕ × ℕ)} {addr size : ℕ}

theorem Backing.region (h : Backing mem) (hsize : 0 < size) (hin : ∀ x, hits addr (addr + size) x ≤ mem x) :
    0 < addr ∧ addr + size ≤ kernelEnd := by
  have hfirst : 0 < hits addr (addr + size) addr := hits_pos.2 ⟨le_rfl, by omega⟩
  have hlast : 0 < hits addr (addr + size) (addr + size - 1) := hits_pos.2 ⟨by omega, by omega⟩
  have h1 := h.bound _ (hfirst.trans_le (hin _))
  have h2 := h.bound _ (hlast.trans_le (hin _))
  omega

theorem hits_le_regionCover {r : ℕ × ℕ} (h : r ∈ l) (x : ℕ) : hits r.1 (r.1 + r.2) x ≤ regionCover l x :=
  hits_le_cover Prod.fst (fun r => r.1 + r.2) h x

theorem Regions.spaced (h : Regions m l) (hl : ∀ x, regionCover l x ≤ 1) : Spaced l :=
  spaced_of_cover (fun r hr => (h.node r hr).2) hl

theorem Regions.unlinkFirst (h : Regions m l) (hl : ∀ x, regionCover l x ≤ 1) (fuel : ℕ) (test : ℕ → ℕ → Bool) :
    Yields (l.length < fuel) (m.unlinkFirst test fuel 0 m.head) fun q =>
      q.1 = l.find? (fun x => test x.1 x.2) ∧ Regions q.2 (l.eraseP fun x => test x.1 x.2) := by
  refine ⟨NodeMem.unlinkFirst_isSome h.list, fun q hu => ?_⟩
  -- the walk starts at the head: there are no nodes before
  have hnil : Seg m.word m.head [] m.head := rfl
  obtain ⟨hr, hlist, -⟩ := NodeMem.unlinkFirst_eq_some hnil h.list (h.spaced hl) hu
  exact ⟨hr, hlist, fun x hx => h.node x (mem_of_mem_eraseP hx)⟩

theorem Regions.pushFront (h : Regions m l) (ha : addr ≠ 0) (hal : LIST_NODE_ALIGN ∣ addr)
    (hs : LIST_NODE_SIZE ≤ size) (hl : ∀ x, regionCover l x + hits addr (addr + size) x ≤ 1) :
    Regions (m.pushFront addr size) ((addr, size) :: l) := by
  have hnode : ∀ r ∈ (addr, size) :: l, LIST_NODE_ALIGN ∣ r.1 ∧ LIST_NODE_SIZE ≤ r.2 := by
    intro r hr
    rcases mem_cons.1 hr with rfl | hr
    · exact ⟨hal, hs⟩
    · exact h.node r hr
  refine ⟨NodeMem.isList_pushFront h.list ha (spaced_of_cover (fun r hr => (hnode r hr).2) fun x => ?_), hnode⟩
  rw [regionCover_cons, Nat.add_comm]
  exact hl x

namespace LinkedListAllocator

theorem hits_merge {a n : ℕ} (h : a + n = addr ∨ addr + size = a) (x : ℕ) :
    hits a (a + n) x + hits addr (addr + size) x =
      hits (if a + n = addr then a else addr) ((if a + n = addr then a else addr) + (size + n)) x := by
  split_ifs with hbefore
  · subst hbefore
    rw [hits_split (a := a) (m := a + n) (b := a + (size + n)) (by omega) (by omega), Nat.add_assoc, Nat.add_comm n]
  · obtain rfl := h.resolve_left hbefore
    rw [hits_split (a := addr) (m := addr + size) (b := addr + (size + n)) (by omega) (by omega),
      Nat.add_assoc addr, Nat.add_comm]

/-- **Merging** keeps the bytes of the regions. -/
theorem mergeLoop_spec (hm : Backing mem) {walk : ℕ} : ∀ {fuel addr size : ℕ} {m : NodeMem} {l : List (ℕ × ℕ)},
    Regions m l → LIST_NODE_ALIGN ∣ addr → LIST_NODE_SIZE ≤ size →
    (∀ x, regionCover l x + hits addr (addr + size) x ≤ mem x) →
    Yields (l.length < walk ∧ l.length < fuel) (mergeLoop walk fuel addr size m) fun r =>
      ∃ l', Regions r.2.2 l' ∧ l'.length ≤ l.length ∧ LIST_NODE_ALIGN ∣ r.1 ∧ LIST_NODE_SIZE ≤ r.2.1 ∧
        (Whole ((addr, size) :: l) → Whole ((r.1, r.2.1) :: l')) ∧
        ∀ x, regionCover l' x + hits r.1 (r.1 + r.2.1) x = regionCover l x + hits addr (addr + size) x
  | 0, _, _, _, _, _, _, _, _ => .none fun hf => by omega
  | fuel + 1, addr, size, m, l, hr, hal, hs, hc => by
    have hl : ∀ x, regionCover l x ≤ 1 := fun x => by
      have := hc x
      have := hm.le_one x
      omega
    rw [mergeLoop]
    rcases (hr.unlinkFirst hl walk fun a n => wadd a n == addr || wadd addr size == a).cases with
      ⟨hw, hu⟩ | ⟨⟨r, m₁⟩, hu, hfind, hr₁⟩
    · rw [hu]
      exact .none fun hf => hw hf.1
    rw [hu]
    cases r with
    | none =>
      refine .some ⟨_, hr₁, eraseP_sublist.length_le, hal, hs, fun hw =>
        whole_cons.2 ⟨(whole_cons.1 hw).1, fun r hr => (whole_cons.1 hw).2 r (mem_of_mem_eraseP hr)⟩, fun x => ?_⟩
      rw [eraseP_of_forall_not]
      intro q hq
      have := find?_eq_none.1 hfind.symm q hq
      simpa using this
    | some q =>
      obtain ⟨a₀, n₀⟩ := q
      have hmem := mem_of_find?_eq_some hfind.symm
      have htest := find?_some hfind.symm
      have hlen := length_eraseP_of_mem hmem (find?_some hfind.symm)
      have hpos := length_pos_of_mem hmem
      obtain ⟨hal₀, hs₀⟩ := hr.node _ hmem
      have herase := regionCover_eraseP hfind.symm
      simp only at htest hal₀ hs₀ herase
      simp only [LIST_NODE_SIZE] at hs hs₀
      -- neither region comes near the end of the address space
      have hend : kernelEnd < 2 ^ 64 := kernelEnd_lt
      obtain ⟨-, hb⟩ := hm.region (by omega) fun x => (Nat.le_add_left _ _).trans (hc x)
      have hin₀ : ∀ x, hits a₀ (a₀ + n₀) x ≤ mem x := fun x =>
        (hits_le_regionCover hmem x).trans ((Nat.le_add_right _ _).trans (hc x))
      obtain ⟨-, hb₀⟩ := hm.region (by omega) hin₀
      rw [wadd_eq (by omega), wadd_eq (by omega)] at htest
      have hsum : wadd size n₀ = size + n₀ := wadd_eq (by
        rcases Bool.or_eq_true_iff.1 htest with ht | ht
        all_goals simp only [beq_iff_eq] at ht; omega)
      have hsplit := hits_merge (by simpa using htest)
      simp only
      rw [wadd_eq (by omega), hsum]
      refine (mergeLoop_spec hm hr₁ (by split_ifs <;> assumption) (by simp only [LIST_NODE_SIZE]; omega)
        fun x => by rw [← hsplit x, ← Nat.add_assoc, herase x]; exact hc x).mono (fun hf => by omega) ?_
      rintro r ⟨l', hr', hlen', hal', hs', hw', hc'⟩
      refine ⟨l', hr', by omega, hal', hs', fun hw => hw' ?_, fun x => ?_⟩
      · obtain ⟨⟨h1, h2⟩, hl⟩ := whole_cons.1 hw
        obtain ⟨h1', h2'⟩ := hl _ hmem
        exact whole_cons.2 ⟨⟨by split_ifs <;> assumption, Nat.dvd_add h2 h2'⟩,
          fun r hr => hl r (mem_of_mem_eraseP hr)⟩
      · rw [hc' x, ← hsplit x, ← Nat.add_assoc, herase x]

variable {fuel align : ℕ} {h : LinkedListAllocator} {reply : Option ℕ}

/-- **A region is added** to the list, alone or as a part of a larger one. -/
theorem addFreeRegion_spec (hm : Backing mem) (hr : Regions m l) (hal : LIST_NODE_ALIGN ∣ addr)
    (hs : LIST_NODE_SIZE ≤ size) (hc : ∀ x, regionCover l x + hits addr (addr + size) x ≤ mem x) :
    Yields (l.length < fuel) (addFreeRegion fuel addr size m) fun m' => ∃ l', Regions m' l' ∧
      l'.length ≤ l.length + 1 ∧ (Whole ((addr, size) :: l) → Whole l') ∧
      ∀ x, regionCover l' x = regionCover l x + hits addr (addr + size) x := by
  refine ((mergeLoop_spec hm hr hal hs hc).mono (fun hf => ⟨hf, hf⟩) fun _ => id).map ?_
  rintro ⟨a, n, m₁⟩ ⟨l', hr', hlen, hal', hs', hw', hc'⟩
  have hin : ∀ x, regionCover l' x + hits a (a + n) x ≤ mem x := fun x => (hc' x).trans_le (hc x)
  have hn : 0 < n := by
    simp only [LIST_NODE_SIZE] at hs'
    omega
  obtain ⟨ha, -⟩ := hm.region hn fun x => (Nat.le_add_left _ _).trans (hin x)
  refine ⟨(a, n) :: l', hr'.pushFront (by omega) hal' hs' fun x => (hin x).trans (hm.le_one x),
    Nat.succ_le_succ hlen, hw', fun x => ?_⟩
  rw [regionCover_cons, Nat.add_comm, hc' x]

/-- **A block is cut** out of the region of `n` bytes at `addr`, and the rest goes back to the list. -/
theorem useListNode_spec (hm : Backing mem) {n : ℕ} (hr : Regions h.nodes l) (hpage : align ≤ PAGE_SIZE)
    (hpos : 0 < align) (hs : LIST_NODE_SIZE ≤ size) (hc : ∀ x, regionCover l x + hits addr (addr + n) x ≤ mem x)
    (hfit : size + (alignUp addr align - addr) ≤ n) :
    Yields (l.length < fuel) (h.useListNode fuel addr n size align) fun r =>
      align ∣ r.1 ∧ 0 < r.1 ∧ r.2.backingMemory = h.backingMemory - size ∧ ∃ l', Regions r.2.nodes l' ∧
        Exactly size align ((addr, n) :: l) ((r.1, size) :: l') ∧
        ∀ x, regionCover l' x + hits r.1 (r.1 + size) x ≤ regionCover l x + hits addr (addr + n) x := by
  simp only [LIST_NODE_SIZE] at hs
  obtain ⟨ha, hb⟩ := hm.region (by omega) fun x => (Nat.le_add_left _ _).trans (hc x)
  have hend : kernelEnd + PAGE_SIZE ≤ 2 ^ 64 := by decide
  obtain ⟨hdvd, hle, -⟩ := alignUp_spec (a := addr) hpos (by omega)
  have hsum : wadd (alignUp addr align) size = alignUp addr align + size := wadd_eq (by omega)
  obtain ⟨hdvd', hle', hlt'⟩ := alignUp_spec (a := alignUp addr align + size) (k := LIST_NODE_ALIGN) (by decide)
    (by simp only [LIST_NODE_ALIGN, PAGE_SIZE] at hend ⊢; omega)
  have hq : align ∣ addr → alignUp addr align = addr := alignUp_of_dvd hpos (by omega)
  have hnext : LIST_NODE_ALIGN ∣ alignUp addr align + size →
      alignUp (alignUp addr align + size) LIST_NODE_ALIGN = alignUp addr align + size :=
    alignUp_of_dvd (by decide) (by simp only [LIST_NODE_ALIGN, PAGE_SIZE] at hend ⊢; omega)
  unfold useListNode
  simp only [hsum]
  generalize alignUp addr align = q at *
  generalize alignUp (q + size) LIST_NODE_ALIGN = next at *
  rw [wsub_eq (by omega) (by simp only [LIST_NODE_ALIGN, PAGE_SIZE] at hend hlt'; omega)]
  -- a whole request is cut from the start of the region
  have hwhole : LIST_NODE_SIZE ∣ size → align ∣ LIST_NODE_SIZE → Whole ((addr, n) :: l) →
      q = addr ∧ next = addr + size ∧ LIST_NODE_SIZE ∣ addr ∧ LIST_NODE_SIZE ∣ n - size ∧ Whole l := by
    intro hd ha hw
    obtain ⟨⟨h1, h2⟩, hl⟩ := whole_cons.1 hw
    obtain rfl := hq (ha.trans h1)
    exact ⟨rfl, hnext (Nat.dvd_trans (by decide) (Nat.dvd_add h1 hd)), h1, Nat.dvd_sub h2 hd, hl⟩
  split_ifs with hsplit
  · -- the rest of the region lies after the block
    have hrest : next + (n - (next - addr)) = addr + n := by omega
    have hbytes : ∀ x, hits next (addr + n) x + hits q (q + size) x ≤ hits addr (addr + n) x := fun x => by
      unfold hits
      split_ifs <;> omega
    refine (addFreeRegion_spec hm hr hdvd' hsplit.2 fun x => ?_).map ?_
    · have := hc x
      have := hbytes x
      rw [hrest]
      omega
    rintro m' ⟨l', hr', -, hw', hc'⟩
    refine ⟨hdvd, by omega, rfl, l', hr', fun hd ha hw => ?_, fun x => ?_⟩
    · obtain ⟨rfl, rfl, h1, h2, hl⟩ := hwhole hd ha hw
      rw [Nat.add_sub_cancel_left] at hw' hc'
      refine ⟨whole_cons.2 ⟨⟨h1, hd⟩, hw' (whole_cons.2 ⟨⟨Nat.dvd_add h1 hd, h2⟩, hl⟩)⟩, fun x => ?_⟩
      have hsum : q + size + (n - size) = q + n := by omega
      have hx := hits_split (a := q) (m := q + size) (b := q + n) (by omega) (by omega) x
      simp only [regionCover_cons, hc' x, hsum, hx]
      omega
    · have := hbytes x
      simp only [hc' x, hrest]
      omega
  · refine .some ⟨hdvd, by omega, rfl, l, hr, fun hd ha hw => ?_, fun x => Nat.add_le_add_left ?_ _⟩
    · obtain ⟨rfl, rfl, h1, h2, hl⟩ := hwhole hd ha hw
      have hn : n - size = 0 := Nat.eq_zero_of_dvd_of_lt h2 (by simp only [LIST_NODE_SIZE] at hsplit ⊢; omega)
      obtain rfl : n = size := by omega
      exact ⟨hw, fun _ => rfl⟩
    · unfold hits
      split_ifs <;> omega

theorem fromList_spec (hm : Backing mem) (hr : Regions h.nodes l) (hpage : align ≤ PAGE_SIZE)
    (hpos : 0 < align) (hs : LIST_NODE_SIZE ≤ size) (hsize : size ≤ kernelEnd) (hc : ∀ x, regionCover l x ≤ mem x) :
    Yields (l.length < fuel) (h.fromList fuel size align) fun r =>
      (r.1 = none → Regions r.2.nodes l ∧ r.2.backingMemory = h.backingMemory) ∧
      ∀ p, r.1 = some p → align ∣ p ∧ 0 < p ∧ r.2.backingMemory = h.backingMemory - size ∧
        ∃ l', Regions r.2.nodes l' ∧ Exactly size align l ((p, size) :: l') ∧
          ∀ x, regionCover l' x + hits p (p + size) x ≤ regionCover l x := by
  have hl : ∀ x, regionCover l x ≤ 1 := fun x => (hc x).trans (hm.le_one x)
  unfold fromList findFit
  rcases (hr.unlinkFirst hl fuel _).cases with ⟨hw, hu⟩ | ⟨⟨r, nodes⟩, hu, hfind, hr₁⟩
  · rw [hu]
    exact .none hw
  rw [hu]
  cases r with
  | none =>
    rw [eraseP_of_forall_not (find?_eq_none.1 hfind.symm)] at hr₁
    exact .some ⟨fun _ => ⟨hr₁, rfl⟩, fun p hp => by cases hp⟩
  | some q =>
    obtain ⟨addr, n⟩ := q
    have hmem := mem_of_find?_eq_some hfind.symm
    have htest := find?_some hfind.symm
    have herase := regionCover_eraseP hfind.symm
    have hs₀ := (hr.node _ hmem).2
    simp only [decide_eq_true_eq, LIST_NODE_SIZE] at htest hs₀ herase
    -- the test of `find_fit` does not wrap
    have hend : kernelEnd + PAGE_SIZE ≤ 2 ^ 64 := by decide
    have hin : ∀ x, hits addr (addr + n) x ≤ mem x := fun x => (hits_le_regionCover hmem x).trans (hc x)
    obtain ⟨-, hb⟩ := hm.region (by omega) hin
    obtain ⟨-, hle, hlt⟩ := alignUp_spec (a := addr) hpos (by omega)
    rw [wsub_eq hle (by omega), wadd_eq (by omega)] at htest
    refine ((useListNode_spec hm (h := { h with nodes }) hr₁ hpage hpos hs (fun x => by rw [herase x]; exact hc x)
      htest).mono eraseP_sublist.length_le.trans_lt fun _ => id).map ?_
    rintro ⟨p, h'⟩ ⟨hdvd, hp, hback, l', hr', he', hc'⟩
    refine ⟨fun hn => (by cases hn), fun p' hp' => ?_⟩
    cases hp'
    refine ⟨hdvd, hp, hback, l', hr', fun hd ha hw => ?_, fun x => ?_⟩
    · obtain ⟨hw', hx⟩ := he' hd ha (whole_cons.2 ⟨hw _ hmem, fun r hr => hw r (mem_of_mem_eraseP hr)⟩)
      exact ⟨hw', fun x => by rw [hx x, regionCover_cons, Nat.add_comm, herase x]⟩
    · rw [← herase x]
      exact hc' x

def given (p size : ℕ) : List (ℕ × ℕ) := if p = 0 then [] else [(p, size)]

def sizes (l : List (ℕ × ℕ)) : ℕ := (l.map Prod.snd).sum

/-- The block and the regions share the bytes of the regions before and of the memory obtained. -/
structure Served (h : LinkedListAllocator) (l : List (ℕ × ℕ)) (size align p : ℕ) (chunk : Option (ℕ × ℕ))
    (h' : LinkedListAllocator) (l' : List (ℕ × ℕ)) : Prop where
  regions : Regions h'.nodes l'
  aligned : p ≠ 0 → align ∣ p
  cover : ∀ x, regionCover l' x + regionCover (given p size) x ≤ regionCover l x + regionCover chunk.toList x
  accounted : h'.backingMemory + sizes (given p size) = h.backingMemory + sizes chunk.toList
  exact : Exactly size align (chunk.toList ++ l) (given p size ++ l')

theorem regionCover_nil (x : ℕ) : regionCover [] x = 0 := rfl

theorem le_alignUp {a k : ℕ} (ha : a < 2 ^ 64) (hk : 0 < k) (hk' : k < 2 ^ 64) (h : alignUp a k ≠ 0) :
    a ≤ alignUp a k := by
  by_cases hw : a + k ≤ 2 ^ 64
  · exact (alignUp_spec hk hw).2.1
  refine absurd ?_ h
  have hlt : wadd a (k - 1) < k := by
    unfold wadd
    omega
  rw [alignUp, Nat.div_eq_of_lt hlt, Nat.zero_mul]

theorem served_of_fromList (hm : Backing mem) (hr : Regions h.nodes l) (hpage : align ≤ PAGE_SIZE)
    (hpos : 0 < align) (hs : LIST_NODE_SIZE ≤ size) (hsize : size ≤ kernelEnd) (hc : ∀ x, regionCover l x ≤ mem x)
    (hback : size ≤ h.backingMemory) : Yields (l.length < fuel) (h.fromList fuel size align) fun r =>
      (∃ l', Served h l size align (r.1.getD 0) none r.2 l') ∧
      (r.1 = none → Regions r.2.nodes l ∧ r.2.backingMemory = h.backingMemory) := by
  refine (fromList_spec hm hr hpage hpos hs hsize hc).mono id ?_
  rintro ⟨r, h'⟩ ⟨hnone, hsome⟩
  refine ⟨?_, hnone⟩
  cases r with
  | none =>
    obtain ⟨hr', hb'⟩ := hnone rfl
    exact ⟨l, hr', fun hp => absurd rfl hp, fun _ => le_rfl, by rw [hb']; rfl, fun _ _ hw => ⟨hw, fun _ => rfl⟩⟩
  | some p =>
    obtain ⟨hdvd, hp, hb', l', hr', he', hc'⟩ := hsome p rfl
    have hgiven : given p size = [(p, size)] := if_neg (by omega)
    refine ⟨l', hr', fun _ => hdvd, fun x => ?_, ?_, by simpa [hgiven] using he'⟩
    · simpa [hgiven, regionCover_cons, regionCover_nil] using hc' x
    · simp only [Option.getD_some, hgiven, sizes, map_cons, map_nil, sum_cons, sum_nil,
        Option.toList_none] at hb' ⊢
      omega

/-- What a call of `size` and `align` gives. -/
def Serves (h : LinkedListAllocator) (l : List (ℕ × ℕ)) (size align : ℕ) (reply : Option ℕ)
    (r : ℕ × Option (ℕ × ℕ) × LinkedListAllocator) : Prop :=
  (∃ l', Served h l size align r.1 r.2.1 r.2.2 l') ∧
    ∀ c, r.2.1 = some c → reply = some c.1 ∧ c.2 = alignUp size PAGE_SIZE

/-- The memory that `allocate_memory` gives is new. -/
def Replies (mem : ℕ → ℕ) (backing size : ℕ) (reply : Option ℕ) : Prop :=
  ∀ addr, reply = some addr → LIST_NODE_ALIGN ∣ addr ∧
    Backing (fun x => mem x + hits addr (addr + alignUp size PAGE_SIZE) x) ∧ backing + alignUp size PAGE_SIZE < 2 ^ 64

theorem fromMemory_spec (hr : Regions h.nodes l) (hpage : align ≤ PAGE_SIZE) (hpos : 0 < align)
    (hs : LIST_NODE_SIZE ≤ size) (hlt : size < 2 ^ 64) (hc : ∀ x, regionCover l x ≤ mem x)
    (hreply : Replies mem h.backingMemory size reply) : Yields (l.length + 1 < fuel ∧ size + 2 * PAGE_SIZE ≤ isizeMax)
      (h.fromMemory fuel size align reply) (Serves h l size align reply) := by
  unfold fromMemory
  simp only
  split_ifs with hpanic
  · -- a size that a `Layout` can hold
    refine .none fun hf => ?_
    have hsize := hf.2
    obtain ⟨-, hle, hlt⟩ := alignUp_spec (a := size) (k := PAGE_SIZE) (by decide)
      (by simp only [isizeMax, PAGE_SIZE] at hsize ⊢; omega)
    rcases hpanic with h0 | hnone
    · simp only [LIST_NODE_SIZE] at hs
      omega
    · unfold Process.pageAligned at hnone
      rw [dif_pos (by omega)] at hnone
      cases hnone
  have hle : size ≤ alignUp size PAGE_SIZE := le_alignUp hlt (by decide) (by decide) (by tauto)
  cases reply with
  | none =>
    exact .some ⟨⟨l, hr, fun hp => absurd rfl hp, fun _ => le_rfl, rfl, fun _ _ hw => ⟨hw, fun _ => rfl⟩⟩,
      fun c hc => by cases hc⟩
  | some addr =>
    obtain ⟨hal, hm, hroom⟩ := hreply addr rfl
    have hs' : LIST_NODE_SIZE ≤ alignUp size PAGE_SIZE := hs.trans hle
    refine ((addFreeRegion_spec hm hr hal hs' fun x => Nat.add_le_add_right (hc x) _).mono
      (fun hf => Nat.lt_of_succ_lt hf.1) fun _ => id).bind ?_
    rintro nodes ⟨l₁, hr₁, hlen, hw₁, hc₁⟩
    have hin : ∀ x, regionCover l₁ x ≤ mem x + hits addr (addr + alignUp size PAGE_SIZE) x := fun x =>
      (hc₁ x).trans_le (Nat.add_le_add_right (hc x) _)
    have hnode : 0 < LIST_NODE_SIZE := by decide
    obtain ⟨-, hb⟩ := hm.region (hnode.trans_le hs') fun x => Nat.le_add_left _ _
    refine ((served_of_fromList hm (h := ⟨nodes, _⟩) hr₁ hpage hpos hs (by omega) hin
      (by rw [wadd_eq hroom]; exact hle.trans (Nat.le_add_left _ _))).mono (fun hf => hlen.trans_lt hf.1)
      fun _ => id).map ?_
    rintro ⟨r, h'⟩ ⟨⟨l', hserved⟩, -⟩
    refine ⟨⟨l', hserved.regions, hserved.aligned, fun x => ?_, ?_, fun hd ha hw => ?_⟩,
      fun c hc => by cases hc; exact ⟨rfl, rfl⟩⟩
    · have := hserved.cover x
      rw [hc₁ x] at this
      simpa [regionCover_cons, regionCover_nil] using this
    · have := hserved.accounted
      simp only [wadd_eq hroom] at this
      simpa [sizes] using this
    · obtain ⟨hw', hx⟩ := hserved.exact hd ha (hw₁ hw)
      refine ⟨hw', fun x => ?_⟩
      rw [hx x, Option.toList_none, nil_append, hc₁ x, Nat.add_comm]
      exact (regionCover_cons (addr, _) l x).symm

theorem heapAllocImpl_spec (hm : Backing mem) (hr : Regions h.nodes l) (hpage : align ≤ PAGE_SIZE)
    (hlt : size < 2 ^ 64) (hc : ∀ x, regionCover l x ≤ mem x) (hback : h.backingMemory ≤ kernelEnd)
    (hreply : Replies mem h.backingMemory (max size LIST_NODE_SIZE) reply) :
    Yields (l.length + 1 < fuel ∧ size + 2 * PAGE_SIZE ≤ isizeMax) (h.heapAllocImpl fuel size align reply)
      (Serves h l (max size LIST_NODE_SIZE) (max align LIST_NODE_ALIGN) reply) := by
  have hs : LIST_NODE_SIZE ≤ max size LIST_NODE_SIZE := le_max_right _ _
  have hlt' : max size LIST_NODE_SIZE < 2 ^ 64 := max_lt hlt (by decide)
  have hpage' : max align LIST_NODE_ALIGN ≤ PAGE_SIZE := max_le hpage (by decide)
  have hpos : 0 < max align LIST_NODE_ALIGN := lt_max_of_lt_right (by decide)
  have hbound : l.length + 1 < fuel ∧ size + 2 * PAGE_SIZE ≤ isizeMax →
      l.length + 1 < fuel ∧ max size LIST_NODE_SIZE + 2 * PAGE_SIZE ≤ isizeMax := by
    simp only [isizeMax, PAGE_SIZE, LIST_NODE_SIZE]
    omega
  simp only [heapAllocImpl]
  generalize max size LIST_NODE_SIZE = n at *
  split_ifs with hge
  · rcases Yields.cases (o := h.fromList fuel n _) (served_of_fromList hm hr hpage' hpos hs (hge.trans hback) hc hge)
      with ⟨hw, hu⟩ | ⟨⟨r, h₁⟩, hu, hserved, hnone⟩
    · rw [hu]
      exact .none fun hf => hw (Nat.lt_of_succ_lt hf.1)
    rw [hu]
    cases r with
    | some p => exact .some ⟨hserved, fun c hc => by cases hc⟩
    | none =>
      obtain ⟨hr₁, hb₁⟩ := hnone rfl
      refine (fromMemory_spec hr₁ hpage' hpos hs hlt' hc (hb₁ ▸ hreply)).mono hbound ?_
      rintro r ⟨⟨l', hserved⟩, hchunk⟩
      exact ⟨⟨l', hserved.regions, hserved.aligned, hserved.cover, hb₁ ▸ hserved.accounted, hserved.exact⟩, hchunk⟩
  · exact (fromMemory_spec hr hpage' hpos hs hlt' hc hreply).mono hbound fun _ => id

end LinkedListAllocator

end

/-! ## The invariant -/

namespace HeapRun

open LinkedListAllocator (given sizes)

/-- The bytes of the live blocks, which have room for a node each. -/
def held (live : List HeapBlock) : List (ℕ × ℕ) := live.map fun b => (b.addr, max b.size LIST_NODE_SIZE)

structure Inv (s : HeapRun) (l : List (ℕ × ℕ)) : Prop where
  regions : Regions s.heap.nodes l
  aligned : ∀ b ∈ s.live, b.align ∣ b.addr ∧ LIST_NODE_ALIGN ∣ b.addr
  cover : ∀ x, regionCover l x + regionCover (held s.live) x ≤ regionCover s.chunks x
  le_one : ∀ x, regionCover s.chunks x ≤ 1
  bounds : ∀ c ∈ s.chunks, 0 < c.1 ∧ c.1 + c.2 ≤ kernelEnd
  accounted : s.heap.backingMemory + sizes (held s.live) = sizes s.chunks

/-- No byte is lost: what is not held is in a region of the list. -/
def Exact (s : HeapRun) (l : List (ℕ × ℕ)) : Prop :=
  Whole (held s.live ++ l) ∧ ∀ x, regionCover (held s.live ++ l) x = regionCover s.chunks x

/-- A request for a multiple of a node, with at most its alignment. -/
def Call.Whole : Call → Prop
  | .alloc size align _ => LIST_NODE_SIZE ∣ max size LIST_NODE_SIZE ∧ max align LIST_NODE_ALIGN ∣ LIST_NODE_SIZE
  | _ => True

variable {s t : HeapRun} {l : List (ℕ × ℕ)} {fuel : ℕ} {chunks : List (ℕ × ℕ)}

theorem inv_start (word : ℕ → ℕ) : (start word).Inv [] where
  regions := ⟨rfl, fun r hr => by cases hr⟩
  aligned := fun b hb => by cases hb
  cover := fun _ => le_rfl
  le_one := fun _ => Nat.zero_le _
  bounds := fun c hc => by cases hc
  accounted := rfl

theorem backing_of_bounds (hone : ∀ x, regionCover chunks x ≤ 1)
    (hb : ∀ c ∈ chunks, 0 < c.1 ∧ c.1 + c.2 ≤ kernelEnd) : Backing (regionCover chunks) := by
  refine ⟨hone, fun x hx => ?_⟩
  obtain ⟨c, hc, hx⟩ := exists_mem_of_cover _ _ hx
  have := hb c hc
  omega

theorem Inv.backing (h : s.Inv l) : Backing (regionCover s.chunks) := backing_of_bounds h.le_one h.bounds

theorem Inv.free_le (h : s.Inv l) (x : ℕ) : regionCover l x ≤ regionCover s.chunks x :=
  (Nat.le_add_right _ _).trans (h.cover x)

theorem sizes_le (hone : ∀ x, regionCover chunks x ≤ 1) (hb : ∀ c ∈ chunks,
    0 < c.1 ∧ c.1 + c.2 ≤ kernelEnd) : sizes chunks ≤ kernelEnd := by
  have hsum := sum_length_le Prod.fst (fun r => r.1 + r.2) (fun c hc => (hb c hc).2) hone
  simpa [sizes] using hsum

section
variable {addr size : ℕ} (hf : s.Fresh addr size) (h : s.Inv l)
include hf h

theorem Fresh.le_one (x : ℕ) : regionCover ((addr, size) :: s.chunks) x ≤ 1 :=
  cover_le_one_of_pairwise _ _ (.cons (fun c hc => hf.2.2.2 c hc) (pairwise_disjoint_of_cover _ _ h.le_one)) x

theorem Fresh.bounds : ∀ c ∈ (addr, size) :: s.chunks, 0 < c.1 ∧ c.1 + c.2 ≤ kernelEnd := by
  intro c hc
  rcases mem_cons.1 hc with rfl | hc
  · exact ⟨hf.2.1, hf.2.2.1⟩
  · exact h.bounds c hc

theorem Fresh.reply : LIST_NODE_ALIGN ∣ addr ∧ Backing (fun x => regionCover s.chunks x + hits addr
    (addr + size) x) ∧ s.heap.backingMemory + size < 2 ^ 64 := by
  refine ⟨Nat.dvd_trans (by decide) hf.1, ?_, ?_⟩
  · have heq : regionCover ((addr, size) :: s.chunks) = fun x =>
        regionCover s.chunks x + hits addr (addr + size) x :=
      funext fun x => (regionCover_cons _ _ x).trans (Nat.add_comm _ _)
    exact heq ▸ backing_of_bounds (hf.le_one h) (hf.bounds h)
  · have hsum := sizes_le (hf.le_one h) (hf.bounds h)
    have hacc := h.accounted
    have hend := kernelEnd_lt
    simp only [sizes, map_cons, sum_cons] at hsum hacc
    omega

end

theorem dvd_max_align (k : ℕ) : 2 ^ k ∣ max (2 ^ k) LIST_NODE_ALIGN ∧ LIST_NODE_ALIGN ∣ max (2 ^ k) LIST_NODE_ALIGN := by
  have h8 : LIST_NODE_ALIGN = 2 ^ 3 := rfl
  rw [h8, ← (pow_right_mono₀ (one_le_two (α := ℕ))).map_max]
  exact ⟨Nat.pow_dvd_pow 2 (le_max_left k 3), Nat.pow_dvd_pow 2 (le_max_right k 3)⟩

theorem sizes_append (l l' : List (ℕ × ℕ)) : sizes (l ++ l') = sizes l + sizes l' := by simp [sizes]

theorem Inv.alloc (h : s.Inv l) {size align : ℕ} {mem : Option ℕ} (hok : s.Env (fuel, .alloc size align mem))
    (hstep : s.step (fuel, .alloc size align mem) = some t) :
    ∃ l', t.Inv l' ∧ (Call.Whole (.alloc size align mem) → s.Exact l → t.Exact l') := by
  obtain ⟨hlt, ⟨k, rfl⟩, hpage, hfresh⟩ := hok
  obtain ⟨⟨p, chunk, heap⟩, hcall, rfl⟩ := Option.map_eq_some_iff.1 hstep
  have hsum := sizes_le h.le_one h.bounds
  have hacc := h.accounted
  obtain ⟨⟨l', hserved⟩, hchunk⟩ := (LinkedListAllocator.heapAllocImpl_spec h.backing h.regions hpage hlt
    h.free_le (by omega) fun addr haddr => (hfresh addr haddr).reply h).2 _ hcall
  simp only at hserved hchunk
  have hheld : held (if p = 0 then s.live else ⟨p, size, 2 ^ k⟩ :: s.live) =
      given p (max size LIST_NODE_SIZE) ++ held s.live := by
    unfold held given
    split_ifs <;> rfl
  obtain ⟨hone, hbounds, hwhole⟩ : (∀ x, regionCover (chunk.toList ++ s.chunks) x ≤ 1) ∧
      (∀ c ∈ chunk.toList ++ s.chunks, 0 < c.1 ∧ c.1 + c.2 ≤ kernelEnd) ∧ Whole chunk.toList := by
    cases chunk with
    | none => exact ⟨h.le_one, h.bounds, fun c hc => by cases hc⟩
    | some c =>
      obtain ⟨haddr, hsize⟩ := hchunk c rfl
      have hf := hfresh c.1 haddr
      rw [← hsize] at hf
      refine ⟨hf.le_one h, hf.bounds h, whole_cons.2 ⟨⟨Nat.dvd_trans (by decide) hf.1, ?_⟩, fun c hc => by cases hc⟩⟩
      rw [hsize]
      exact Nat.dvd_trans (by decide) (Nat.dvd_mul_left PAGE_SIZE _)
  refine ⟨l', ⟨hserved.regions, fun b hb => ?_, fun x => ?_, hone, hbounds, ?_⟩, fun hcw he => ?_⟩
  · simp only at hb
    split_ifs at hb with hp
    · exact h.aligned b hb
    · rcases mem_cons.1 hb with rfl | hb
      · obtain ⟨h1, h2⟩ := dvd_max_align k
        exact ⟨h1.trans (hserved.aligned hp), h2.trans (hserved.aligned hp)⟩
      · exact h.aligned b hb
  · have h1 := hserved.cover x
    have h2 := h.cover x
    rw [hheld, regionCover_append, regionCover_append]
    omega
  · have h1 := hserved.accounted
    rw [hheld, sizes_append, sizes_append]
    simp only
    omega
  · obtain ⟨hw, hx⟩ := he
    rw [Whole, forall_mem_append] at hw
    obtain ⟨hw', hx'⟩ := hserved.exact hcw.1 hcw.2 (forall_mem_append.2 ⟨hwhole, hw.2⟩)
    rw [Whole, forall_mem_append] at hw'
    unfold Exact
    rw [hheld]
    refine ⟨?_, fun x => ?_⟩
    · simp only [Whole, forall_mem_append]
      exact ⟨⟨hw'.1, hw.1⟩, hw'.2⟩
    · have h1 := hx x
      have h2 := hx' x
      simp only [regionCover_append] at h1 h2 ⊢
      omega

variable {i : ℕ} {b : HeapBlock} {live : List HeapBlock}

theorem regionCover_held_eraseIdx (hb : live[i]? = some b)
    (x : ℕ) : regionCover (held (live.eraseIdx i)) x + hits b.addr (b.addr + max b.size LIST_NODE_SIZE) x =
      regionCover (held live) x := by
  have := sum_map_eraseIdx (fun b : HeapBlock => hits b.addr (b.addr + max b.size LIST_NODE_SIZE) x) live i b hb
  simpa [regionCover, cover, held, Function.comp_def] using this

theorem sizes_held_eraseIdx (hb : live[i]? = some b) :
    sizes (held (live.eraseIdx i)) + max b.size LIST_NODE_SIZE = sizes (held live) := by
  have := sum_map_eraseIdx (fun b : HeapBlock => max b.size LIST_NODE_SIZE) live i b hb
  simpa [sizes, held, Function.comp_def] using this

theorem Inv.giveBack (h : s.Inv l) (hb : s.live[i]? = some b) :
    Yields (l.length < fuel) (LinkedListAllocator.addFreeRegion fuel b.addr (max b.size LIST_NODE_SIZE) s.heap.nodes)
      fun m => ∃ l', Regions m l' ∧ (Whole ((b.addr, max b.size LIST_NODE_SIZE) :: l) → Whole l') ∧
        ∀ x, regionCover l' x = regionCover l x + hits b.addr (b.addr + max b.size LIST_NODE_SIZE) x := by
  refine (LinkedListAllocator.addFreeRegion_spec h.backing h.regions (h.aligned b (mem_of_getElem? hb)).2
    (le_max_right _ _) fun x => ?_).mono id fun _ ⟨l', hr', _, h'⟩ => ⟨l', hr', h'⟩
  have h1 := h.cover x
  have h2 := regionCover_held_eraseIdx hb x
  omega

theorem Inv.dealloc (h : s.Inv l) (hstep : s.step (fuel, .dealloc i) = some t) :
    ∃ l', t.Inv l' ∧ (s.Exact l → t.Exact l') := by
  obtain ⟨b, hb, hmap⟩ := Option.bind_eq_some_iff.1 hstep
  obtain ⟨heap, hcall, rfl⟩ := Option.map_eq_some_iff.1 hmap
  obtain ⟨nodes, hadd, rfl⟩ := Option.map_eq_some_iff.1 hcall
  have hmem := mem_of_getElem? hb
  have hcov := regionCover_held_eraseIdx hb
  obtain ⟨l', hr', hw', hc'⟩ := (h.giveBack hb).2 _ hadd
  refine ⟨l', ⟨hr', fun c hc => h.aligned c (mem_of_mem_eraseIdx hc), fun x => ?_, h.le_one, h.bounds, ?_⟩,
    fun he => ?_⟩
  · have h1 := h.cover x
    rw [hc' x, Nat.add_assoc, Nat.add_comm (hits _ _ x), hcov x]
    exact h1
  · have hsum := sizes_le h.le_one h.bounds
    have hacc := h.accounted
    have hend := kernelEnd_lt
    have hsizes := sizes_held_eraseIdx hb
    simp only
    rw [wadd_eq (by omega)]
    omega
  · obtain ⟨hw, hx⟩ := he
    rw [Whole, forall_mem_append] at hw
    refine ⟨forall_mem_append.2 ⟨fun r hr => ?_, hw' (whole_cons.2 ⟨hw.1 _ (mem_map_of_mem hmem), hw.2⟩)⟩,
      fun x => ?_⟩
    · exact hw.1 r ((eraseIdx_sublist ..).map _ |>.subset hr)
    have h1 := hx x
    have h2 := hcov x
    rw [regionCover_append] at h1
    rw [regionCover_append, hc' x]
    simp only
    omega

theorem Inv.header_apart (h : s.Inv l) {r : ℕ × ℕ} (hr : r ∈ l) (hb : b ∈ s.live) :
    r.1 + r.2 ≤ b.addr ∨ b.addr + max b.size LIST_NODE_SIZE ≤ r.1 := by
  have hs := (h.regions.node r hr).2
  have hmax : LIST_NODE_SIZE ≤ max b.size LIST_NODE_SIZE := le_max_right _ _
  have hpos : 0 < LIST_NODE_SIZE := by decide
  by_contra hno
  -- the larger of the two addresses is in both
  have h1 := h.cover (max r.1 b.addr)
  have h2 := h.le_one (max r.1 b.addr)
  have h3 := hits_le_regionCover hr (max r.1 b.addr)
  have h4 := hits_le_regionCover (mem_map_of_mem (f := fun b : HeapBlock =>
    (b.addr, max b.size LIST_NODE_SIZE)) hb) (max r.1 b.addr)
  have h5 : 0 < hits r.1 (r.1 + r.2) (max r.1 b.addr) := hits_pos.2 (by omega)
  have h6 : 0 < hits b.addr (b.addr + max b.size LIST_NODE_SIZE) (max r.1 b.addr) := hits_pos.2 (by omega)
  simp only at h4
  rw [← held] at h4
  omega

theorem Inv.write (h : s.Inv l) {word : ℕ → ℕ} (hok : s.Env (fuel, .write word))
    (hstep : s.step (fuel, .write word) = some t) : t.Inv l := by
  cases hstep
  refine ⟨⟨h.regions.list.congr fun r hr => ?_, h.regions.node⟩, h.aligned, h.cover, h.le_one, h.bounds, h.accounted⟩
  obtain ⟨hal, hs⟩ := h.regions.node r hr
  have hapart := fun b hb => h.header_apart hr (b := b) hb
  simp only [LIST_NODE_SIZE, LIST_NODE_ALIGN] at hs hal hapart
  refine ⟨hok _ hal fun b hb => ?_, hok _ (Nat.dvd_add hal (by decide)) fun b hb => ?_⟩
  · have := hapart b hb
    omega
  · have := hapart b hb
    omega

theorem Inv.step (h : s.Inv l) {i : ℕ × Call} (hok : s.Env i) (hstep : s.step i = some t) :
    ∃ l', t.Inv l' ∧ (i.2.Whole → s.Exact l → t.Exact l') := by
  obtain ⟨fuel, call⟩ := i
  cases call with
  | alloc size align mem => exact h.alloc hok hstep
  | dealloc i =>
    obtain ⟨l', h', he⟩ := h.dealloc hstep
    exact ⟨l', h', fun _ => he⟩
  | write word =>
    refine ⟨l, h.write hok hstep, fun _ he => ?_⟩
    cases hstep
    exact he

theorem Inv.safe (h : s.Inv l) : s.Safe l := by
  have hone : ∀ x, regionCover (l ++ held s.live) x ≤ 1 := fun x => by
    rw [regionCover_append]
    exact (h.cover x).trans (h.le_one x)
  have hpair := pairwise_append.1 (pairwise_disjoint_of_cover _ _ hone)
  have hsub : ∀ b : HeapBlock, b.range ⊆ Set.Ico b.addr (b.addr + max b.size LIST_NODE_SIZE) := fun b =>
    Set.Ico_subset_Ico_right (Nat.add_le_add_left (le_max_left _ _) _)
  have hheld : ∀ b ∈ s.live, (b.addr, max b.size LIST_NODE_SIZE) ∈ held s.live := fun b hb =>
    mem_map_of_mem (f := fun b : HeapBlock => (b.addr, max b.size LIST_NODE_SIZE)) hb
  refine ⟨h.regions.list, fun b hb => (h.aligned b hb).1, fun b hb x hx => ?_, ?_, fun b hb r hr => ?_, hpair.1⟩
  · have hpos := (hits_pos.2 (hsub b hx)).trans_le (hits_le_regionCover (hheld b hb) x)
    obtain ⟨c, hc, hx⟩ := exists_mem_of_cover _ _ (hpos.trans_le ((Nat.le_add_left _ _).trans (h.cover x)))
    exact Set.mem_biUnion hc hx
  · exact (pairwise_map.1 hpair.2.1).imp fun hd => hd.mono (hsub _) (hsub _)
  · exact (hpair.2.2 r hr _ (hheld b hb)).symm.mono_left (hsub b)

/-- A call that the code does not refuse with a panic: a size that a `Layout` can hold, a live block. -/
def Regular (s : HeapRun) : Call → Prop
  | .alloc size _ _ => size + 2 * PAGE_SIZE ≤ isizeMax
  | .dealloc i => i < s.live.length
  | .write _ => True

theorem Inv.step_isSome (h : s.Inv l) {call : Call} (hf : l.length + 1 < fuel) (hok : s.Env (fuel, call))
    (hcall : s.Regular call) : (s.step (fuel, call)).isSome := by
  cases call with
  | alloc size align mem =>
    obtain ⟨hlt, -, hpage, hfresh⟩ := hok
    have hsum := sizes_le h.le_one h.bounds
    have hacc := h.accounted
    rw [HeapRun.step, Option.isSome_map]
    exact (LinkedListAllocator.heapAllocImpl_spec h.backing h.regions hpage hlt h.free_le (by omega)
      fun addr haddr => (hfresh addr haddr).reply h).1 ⟨hf, hcall⟩
  | dealloc i =>
    simp only [HeapRun.step, getElem?_eq_getElem hcall, Option.bind_some, Option.isSome_map,
      LinkedListAllocator.heapDeallocImpl]
    exact (h.giveBack (getElem?_eq_getElem hcall)).1 (Nat.lt_of_succ_lt hf)
  | write word => rfl

/-- **Kernel heap safety**: in every state that calls lead to, the live blocks are aligned, in memory of the
heap, and disjoint from each other and from the regions, which are disjoint themselves; and the next call ends.
-/
theorem exec_safe (word : ℕ → ℕ) (calls : List (ℕ × Call)) (h : Along step Env (start word) calls)
    (hrun : exec step (start word) calls = some s) : ∃ l, s.Safe l ∧ ∀ fuel call,
    l.length + 1 < fuel → s.Env (fuel, call) → s.Regular call → (s.step (fuel, call)).isSome := by
  have hinv : ∃ l, s.Inv l := exec_induction (I := fun u : HeapRun => ∃ l, u.Inv l) (fun u i t ⟨l, hu⟩ hok hstep =>
      (hu.step hok hstep).imp fun _ => And.left) ⟨[], inv_start word⟩ h hrun
  obtain ⟨l, hl⟩ := hinv
  exact ⟨l, hl.safe, fun fuel call hf hok hcall => hl.step_isSome hf hok hcall⟩

def pageCalls : List (ℕ × Call) :=
  [(3, .alloc 20 32 (some 0x1000)), (3, .alloc 5 1 none), (3, .dealloc 1)]

theorem exec_safe_page : ∃ s, exec step (start fun _ => 0) pageCalls = some s ∧ s.live = [⟨0x1018, 5, 1⟩] ∧
    ∃ l, s.Safe l ∧ ∀ fuel call, l.length + 1 < fuel → s.Env (fuel, call) → s.Regular call →
      (s.step (fuel, call)).isSome := by
  have hruns : (match exec step (start fun _ => 0) pageCalls with
      | some s => decide (s.live = [⟨0x1018, 5, 1⟩])
      | none => false) = true := by decide +kernel
  have halong : Along step Env (start fun _ => 0) pageCalls := by
    refine ⟨⟨by decide, ⟨5, rfl⟩, by decide, fun addr haddr => ?_⟩, fun t _ => ⟨⟨by decide, ⟨0, rfl⟩, by decide,
      fun addr haddr => by cases haddr⟩, fun u _ => ⟨trivial, fun _ _ => trivial⟩⟩⟩
    cases haddr
    exact ⟨by decide, by decide, by decide, fun c hc => by cases hc⟩
  split at hruns
  · rename_i s hrun
    exact ⟨s, hrun, of_decide_eq_true hruns, exec_safe _ _ halong hrun⟩
  · cases hruns

theorem Inv.sizes_eq (h : s.Inv l) (he : s.Exact l) :
    sizes l + sizes (held s.live) = sizes s.chunks ∧ s.heap.backingMemory = sizes l := by
  have hacc := h.accounted
  have hsum : sizes (held s.live ++ l) = sizes s.chunks := by
    simpa [sizes] using sum_length_congr Prod.fst (fun r => r.1 + r.2) he.2
  rw [sizes_append] at hsum
  omega

/-- **No memory of the heap is lost** as long as every block is a multiple of a node with at most its alignment: the
regions of the list and the live blocks add up to what was obtained, and the counter to the regions. -/
theorem exec_losesNone (word : ℕ → ℕ) (calls : List (ℕ × Call))
    (h : Along step (fun s i => s.Env i ∧ i.2.Whole) (start word) calls)
    (hrun : exec step (start word) calls = some s) : ∃ l, s.heap.nodes.IsList l ∧
      sizes l + sizes (held s.live) = sizes s.chunks ∧ s.heap.backingMemory = sizes l := by
  obtain ⟨l, hl, he⟩ : ∃ l, s.Inv l ∧ s.Exact l := by
    refine exec_induction (I := fun u : HeapRun => ∃ l, u.Inv l ∧ u.Exact l) ?_
      ⟨[], inv_start word, forall_mem_nil _, fun _ => rfl⟩ h hrun
    rintro u i t ⟨l, hu, he⟩ ⟨hok, hw⟩ hstep
    obtain ⟨l', ht, he'⟩ := hu.step hok hstep
    exact ⟨l', ht, he' hw he⟩
  exact ⟨l, hl.regions.list, hl.sizes_eq he⟩

def nodeCalls : List (ℕ × Call) := [(3, .alloc 16 16 (some 0x1000)), (3, .dealloc 0)]

theorem exec_losesNone_node : ∃ s, exec step (start fun _ => 0) nodeCalls = some s ∧ ∃ l, s.heap.nodes.IsList l ∧
    sizes l + sizes (held s.live) = sizes s.chunks ∧ s.heap.backingMemory = sizes l := by
  refine ⟨_, rfl, exec_losesNone (fun _ => 0) nodeCalls ⟨⟨⟨by decide, ⟨4, rfl⟩, by decide, fun addr haddr => ?_⟩, ?_⟩,
    fun t _ => ⟨⟨trivial, trivial⟩, fun _ _ => trivial⟩⟩ rfl⟩
  · cases haddr
    exact ⟨by decide, by decide, by decide, fun c hc => by cases hc⟩
  · exact ⟨by decide, by decide⟩

/-- Twenty bytes are taken and given back: the four bytes up to the rest of the page are lost. -/
theorem exec_odd : ∃ s, exec step (start fun _ => 0) [(3, .alloc 20 8 (some 0x1000)), (3, .dealloc 0)] = some s ∧
    s.live = [] ∧ s.chunks = [(0x1000, 0x1000)] ∧ s.heap.nodes.IsList [(0x1000, 20), (0x1018, 0xfe8)] ∧
    sizes [(0x1000, 20), (0x1018, 0xfe8)] = 0xffc ∧ s.heap.backingMemory = 0x1000 := by
  refine ⟨_, rfl, rfl, rfl, ?_, rfl, rfl⟩
  simp only [NodeMem.IsList, Seg]
  decide

end HeapRun

end Archis.Mem
