/-
  `map_memory` and `unmap_memory` on the active address space.

  The loop keeps pointers to the tables of the last page, and looks a table up again when its own index changes.
  `mapMemory_exact`: each page of the range leads to its page of memory, every other address outside of the recursive
  slot to where it led before, and `unmap_memory` undoes that.
-/
import Archis.Paging.Writes

namespace Archis.Paging

open Archis.Lib Archis.Lib.Radix Archis.Mem List
open PageDescriptor ( MMIO USER WC)

variable {S : Set ℕ} {s s' : Machine} {p q : List ℕ} {table idx f g i j k : ℕ} {e : UInt64} {level : PageLevel}
  {α : Type}

/-! ## Accesses through a pointer -/

section
variable {E : Fault → Machine → Prop} (h : s.translate table = some f) {Q : Unit → Machine → Prop}
include h

theorem wp_deref {Q : ℕ → Machine → Prop} : wp (deref table) Q E s ↔ Q f s := by
  simp [deref, h]

theorem wp_readEntry {Q : UInt64 → Machine → Prop} : wp (readEntry table idx) Q E s ↔ Q (s.mem f idx) s := by
  simp only [readEntry, wp_bind, wp_deref h, wp_get, wp_pure]

theorem wp_writeEntry : wp (writeEntry table idx e) Q E s ↔ Q () (s.put f idx e) := by
  simp [writeEntry, wp_deref h, Machine.put]

theorem wp_clearTable :
    wp (clearTable table) Q E s ↔ Q () { s with mem := fill s.mem f 0 } := by
  simp [clearTable, wp_deref h]

end

/-! ## Tables -/

/-- What a lookup leaves: the pointer is the address of the table, which is there. -/
def Found (S : Set ℕ) (s : Machine) (path : List ℕ) (addr k : ℕ) (a : ℕ) (s' : Machine) : Prop :=
  a = addr ∧ Writes S s.cr3 s [] s' ∧ (node child s'.mem s.cr3 path).isSome ∧ s.free.length ≤ s'.free.length + k

/-- The call stops only because there are fewer than `k` free pages. -/
def Short (s : Machine) (k : ℕ) (e : Fault) (_ : Machine) : Prop := e = .noMemory ∧ s.free.length < k

/-- **`get_or_alloc_table`** of the active address space. -/
theorem getOrAllocTable_current (hs : Tables S s.cr3 s) (hT : s.translate table = some f)
    (hf : node child s.mem s.cr3 p = some f) (hpath : tablePath level i j k = p ++ [idx])
    (hstarts : Starts S (p ++ [idx])) (hshort : p.length < 3) (hi : i < 512) (hj : j < 512) (hk : k < 512) :
    wp (getOrAllocTable Reach.current table idx level i j k)
      (Found S s (p ++ [idx]) (tableAddr level i j k) 1) (Short s 1) s := by
  simp only [getOrAllocTable, wp_bind, wp_readEntry hT]
  cases hc : child (s.mem f idx) with
  | some page =>
    refine ⟨rfl, .refl, ?_, Nat.le_add_right _ _⟩
    rw [node_concat hf, hc]
    rfl
  | none =>
    simp only [allocTable, allocateFrame, wp_bind, wp_get]
    cases hfree : s.free with
    | nil =>
      simp only [wp_throw]
      exact ⟨rfl, by simp [hfree]⟩
    | cons g free =>
      have hfresh := hs.fresh g (hfree ▸ (.head _))
      have hsite : Site child S 3 s.mem s.cr3 p idx f g (tableEntry g) 0 :=
        ⟨hs.tree, hstarts, hshort, hf, hc, hfresh.2, child_tableEntry hfresh.1, child_zero⟩
      simp only [wp_bind, wp_modify, wp_pure, Reach.current]
      have hT' : ({ s with free } : Machine).translate table = some f := hT
      rw [wp_writeEntry hT']
      -- the new table is reached through the entry that has just been written
      have haddr : (({ s with free } : Machine).put f idx (tableEntry g)).translate (tableAddr level i j k) =
          some g := by
        have hrec : child ((s.put f idx (tableEntry g)).mem s.cr3 RECURSIVE_SLOT) = some s.cr3 :=
          (congrArg child (hs.put_slot hstarts hshort.le hf)).trans hs.recursive
        have hnode := (hs.tree.put_node (i := idx) (e := tableEntry g) hsite.starts' hshort.le hf).1
        refine (translate_tableAddr hrec level hi hj hk).trans ?_
        rw [hpath]
        exact (node_concat hnode).trans (by rw [put_self]; exact child_tableEntry hfresh.1)
      rw [wp_bind, wp_clearTable haddr]
      refine ⟨rfl, Writes.grow .refl hfree hsite, ?_, ?_⟩
      · exact Option.isSome_of_eq_some hsite.grow_node_self
      · rw [hfree]
        exact le_rfl

def path3 (va : ℕ) : List ℕ :=
  let (pml4, pdpt, pd, _) := splitIndices va
  [pml4, pdpt, pd]

def cursorAt (va : ℕ) : Cursor :=
  let (pml4, pdpt, pd, _) := splitIndices va
  ⟨tableAddr .pdpt pml4 0 0, tableAddr .pd pml4 pdpt 0, tableAddr .pt pml4 pdpt pd, pml4, pdpt, pd⟩

variable {a m n va v₀ virtAddr : ℕ} {path t : List ℕ} {addr physAddr v : ℕ} {s₁ s₂ : Machine} {c : Cursor}

theorem Found.trans {path' : List ℕ} {addr' b : ℕ}
    (h₁ : Found S s path addr m a s₁) (h₂ : Found S s₁ path' addr' n b s₂) : Found S s path' addr' (m + n) b s₂ := by
  obtain ⟨-, hw₁, -, hl₁⟩ := h₁
  obtain ⟨rfl, hw₂, hn₂, hl₂⟩ := h₂
  exact ⟨rfl, hw₁.then hw₂, hw₁.same.1 ▸ hn₂, by omega⟩

theorem Found.short {e : Fault} (h₁ : Found S s path addr m a s₁) (h₂ : Short s₁ n e s₂) : Short s (m + n) e s₂ := by
  obtain ⟨-, -, -, hl⟩ := h₁
  obtain ⟨rfl, h⟩ := h₂
  exact ⟨rfl, by omega⟩

theorem Short.mono {e : Fault} (h : Short s m e s') (hmn : m ≤ n) : Short s n e s' :=
  ⟨h.1, h.2.trans_le hmn⟩

theorem Found.translate (hs : Tables S s.cr3 s) (hi : i < 512) (hj : j < 512) (hk : k < 512)
    (h : Found S s (tablePath level i j k) (tableAddr level i j k) m a s') :
    Tables S s'.cr3 s' ∧ ∃ f, s'.translate a = some f ∧ node child s'.mem s'.cr3 (tablePath level i j k) = some f := by
  obtain ⟨rfl, hw, hn, -⟩ := h
  have hs' := hw.next hs
  rw [← hw.same.1] at hn
  obtain ⟨f, hf⟩ := Option.isSome_iff_exists.1 hn
  exact ⟨hs', f, (translate_tableAddr hs'.recursive level hi hj hk).trans hf, hf⟩

/-- **A table is looked up again, or not**, if its index has not changed. -/
theorem refresh_current (hs : Tables S s.cr3 s) (hT : s.translate table = some f)
    (hf : node child s.mem s.cr3 p = some f) (hpath : tablePath level i j k = p ++ [idx])
    (hstarts : Starts S (p ++ [idx])) (hshort : p.length < 3) (hi : i < 512) (hj : j < 512) (hk : k < 512)
    {changed : Bool} {old : ℕ}
    (hold : changed = false → old = tableAddr level i j k ∧ (node child s.mem s.cr3 (tablePath level i j k)).isSome) :
    wp (refresh Reach.current changed old (getOrAllocTable Reach.current table idx level i j k))
      (Found S s (tablePath level i j k) (tableAddr level i j k) 1) (Short s 1) s := by
  unfold refresh
  cases changed with
  | true =>
    rw [hpath]
    exact getOrAllocTable_current hs hT hf hpath hstarts hshort hi hj hk
  | false =>
    obtain ⟨rfl, hn⟩ := hold rfl
    exact ⟨rfl, .refl, hn, Nat.le_add_right _ _⟩

theorem splitIndices_lt (va : ℕ) : (splitIndices va).1 < 512 ∧ (splitIndices va).2.1 < 512 ∧
    (splitIndices va).2.2.1 < 512 ∧ (splitIndices va).2.2.2 < 512 := by
  rw [splitIndices_eq]
  exact ⟨Nat.mod_lt _ (by decide), Nat.mod_lt _ (by decide), Nat.mod_lt _ (by decide), Nat.mod_lt _ (by decide)⟩

/-- The tables of the cursor whose indices are those of the address are the tables for it. -/
structure Usable (s : Machine) (c : Cursor) (va : ℕ) : Prop where
  pdpt : c.pml4Idx = (splitIndices va).1 → c.pdpt = (cursorAt va).pdpt ∧
    (node child s.mem s.cr3 ((path3 va).take 1)).isSome
  pd : c.pdptIdx = (splitIndices va).2.1 → c.pd = (cursorAt va).pd ∧
    (node child s.mem s.cr3 ((path3 va).take 2)).isSome
  pt : c.pdIdx = (splitIndices va).2.2.1 → c.pt = (cursorAt va).pt ∧ (node child s.mem s.cr3 (path3 va)).isSome

def Ready (S : Set ℕ) (s : Machine) (va k : ℕ) (l : List (List ℕ × UInt64)) (c : Cursor) (s' : Machine) : Prop :=
  c = cursorAt va ∧ Writes S s.cr3 s l s' ∧ (node child s'.mem s.cr3 (path3 va)).isSome ∧
    s.free.length ≤ s'.free.length + k

theorem isSome_mono {l : List (List ℕ × UInt64)} (h : Writes S s.cr3 s l s') (hs : Tables S s.cr3 s) (hq : Starts S q)
    (hqn : q.length ≤ 3) (hn : (node child s.mem s.cr3 q).isSome) : (node child s'.mem s.cr3 q).isSome := by
  obtain ⟨f, hf⟩ := Option.isSome_iff_exists.1 hn
  exact Option.isSome_of_eq_some (h.node_mono hs hq hqn hf)

theorem starts_cons (ha : a ∈ S) : Starts S (a :: t) := by
  intro i hi
  cases hi
  exact ha

theorem pageTables_current (hs : Tables S s.cr3 s) (ha : (splitIndices va).1 ∈ S)
    (hc : Usable s c va) : wp (pageTables Reach.current (tableAddr .pml4 0 0 0) va c) (Ready S s va 3 []) (Short s 3) s := by
  obtain ⟨hpdpt, hpd, hpt⟩ := hc
  have hlt := splitIndices_lt va
  unfold pageTables Ready
  simp only [cursorAt, path3] at *
  generalize splitIndices va = x at *
  obtain ⟨a, b, d, t⟩ := x
  obtain ⟨hal, hbl, hdl, -⟩ := hlt
  simp only at *
  have hz : (0 : ℕ) < 512 := by decide
  have hroot := translate_tableAddr hs.recursive .pml4 hz hz hz
  -- a table that was there is still there after the lookups above it
  have hstill : ∀ {path : List ℕ} {addr m x : ℕ} {s₁ : Machine} {q : List ℕ}, Found S s path addr m x s₁ →
      q.length ≤ 2 → (node child s.mem s.cr3 (a :: q)).isSome → (node child s₁.mem s₁.cr3 (a :: q)).isSome := by
    intro path addr m x s₁ q h hq hn
    rw [h.2.1.same.1]
    exact isSome_mono h.2.1 hs (starts_cons ha) (Nat.succ_le_succ hq) hn
  refine wp.seq' (refresh_current (p := []) hs hroot rfl rfl (starts_cons ha) (by decide) hal hz hz
    fun hch => hpdpt (by simpa using hch)) (fun pdpt s₁ h₁ => ?_) fun e _ he => Short.mono he (by decide)
  obtain ⟨hs₁, f₁, hT₁, hf₁⟩ := h₁.translate hs hal hz hz
  refine wp.seq' (refresh_current (p := [a]) hs₁ hT₁ hf₁ rfl (starts_cons ha) (by simp) hal hbl hz fun hch => ?_)
    (fun pd s₂ h₂ => ?_) fun e _ he => (h₁.short he).mono (by decide)
  · obtain ⟨h1, h2⟩ := hpd (by simpa using hch)
    exact ⟨h1, hstill h₁ (by simp) h2⟩
  have h₂' := h₁.trans h₂
  obtain ⟨hs₂, f₂, hT₂, hf₂⟩ := h₂.translate hs₁ hal hbl hz
  refine wp.seq' (refresh_current (p := [a, b]) hs₂ hT₂ hf₂ rfl (starts_cons ha) (by simp) hal hbl hdl fun hch => ?_)
    (fun pt s₃ h₃ => ?_) fun e _ he => (h₂'.short he).mono (by decide)
  · obtain ⟨h1, h2⟩ := hpt (by simpa using hch)
    exact ⟨h1, hstill h₂' (by simp) h2⟩
  have h₃' := h₂'.trans h₃
  obtain ⟨rfl, hw, hn, hl⟩ := h₃'
  obtain ⟨rfl, -⟩ := h₁
  obtain ⟨rfl, -⟩ := h₂
  exact ⟨rfl, hw, hn, hl⟩

/-! ## Pages -/

/-- From one page to the next, an index changes only together with the ones below it. -/
theorem splitIndices_next (h : v = v₀ ∨ v = v₀ + PAGE_SIZE) :
    ((splitIndices v₀).2.2.1 = (splitIndices v).2.2.1 → (splitIndices v₀).2.1 = (splitIndices v).2.1) ∧
      ((splitIndices v₀).2.1 = (splitIndices v).2.1 → (splitIndices v₀).1 = (splitIndices v).1) := by
  simp only [splitIndices_eq, PAGE_SIZE] at *
  rcases h with rfl | rfl
  · exact ⟨fun _ => rfl, fun _ => rfl⟩
  constructor
  · intro h
    omega
  · intro h
    omega

theorem isSome_of_append {r : ℕ} (h : (node child s.mem r (p ++ t)).isSome) :
    (node child s.mem r p).isSome := by
  rw [node_append] at h
  cases hp : node child s.mem r p with
  | none => simp [hp] at h
  | some c => rfl

theorem usable_next (h : v = v₀ ∨ v = v₀ + PAGE_SIZE)
    (hn : (node child s.mem s.cr3 (path3 v₀)).isSome) : Usable s (cursorAt v₀) v := by
  obtain ⟨hb, ha⟩ := splitIndices_next h
  simp only [cursorAt, path3] at *
  have h2 : ∀ {a b d : ℕ}, (node child s.mem s.cr3 [a, b, d]).isSome → (node child s.mem s.cr3 [a, b]).isSome ∧
      (node child s.mem s.cr3 [a]).isSome := fun {a b d} h =>
    ⟨isSome_of_append (p := [a, b]) h, isSome_of_append (p := [a]) h⟩
  constructor
  · intro hc
    simp only [cursorAt, path3] at *
    rw [← hc]
    exact ⟨rfl, (h2 hn).2⟩
  · intro hc
    simp only [cursorAt, path3] at *
    rw [← hc, ← ha hc]
    exact ⟨rfl, (h2 hn).1⟩
  · intro hc
    simp only [cursorAt, path3] at *
    rw [← hc, ← hb hc, ← ha (hb hc)]
    exact ⟨rfl, hn⟩

theorem mapPage_current (hs : Tables S s.cr3 s) (ha : (splitIndices va).1 ∈ S)
    (hc : Usable s c va) : wp (mapPage Reach.current (tableAddr .pml4 0 0 0) va e c)
      (Ready S s va 3 [(indices va, e)]) (Short s 3) s := by
  refine wp.seq' (pageTables_current hs ha hc) (fun c' s₁ h₁ => ?_) fun _ _ he => he
  obtain ⟨rfl, hw, hn, hl⟩ := h₁
  obtain ⟨hal, hbl, hdl, -⟩ := splitIndices_lt va
  obtain ⟨f, hf⟩ := Option.isSome_iff_exists.1 hn
  have hs₁ := hw.next hs
  have hT : s₁.translate (cursorAt va).pt = some f := by
    refine (translate_tableAddr hs₁.recursive .pt hal hbl hdl).trans ?_
    rw [hw.same.1]
    exact hf
  simp only [wp_bind, wp_writeEntry hT, wp_pure]
  have hstarts : Starts S (path3 va) := starts_cons ha
  refine ⟨rfl, .put e hw hstarts rfl hf, ?_, hl⟩
  exact Option.isSome_of_eq_some (((hw.tables hs).node_put hstarts rfl hf hstarts le_rfl).1.trans hf)

/-- The pages `i`, …, `i + n - 1` of a range, with what is written for them. -/
def pageWrites (virtAddr i n : ℕ) (entry : ℕ → UInt64) : List (List ℕ × UInt64) :=
  (range' i n).map fun j => (indices (wadd virtAddr (wmul j PAGE_SIZE)), entry j)

theorem pageWrites_succ (virtAddr i n : ℕ) (entry : ℕ → UInt64) : pageWrites virtAddr i (n + 1) entry =
    [(indices (wadd virtAddr (wmul i PAGE_SIZE)), entry i)] ++ pageWrites virtAddr (i + 1) n entry := rfl

/-- **The loop of `map_memory`.** -/
theorem mapLoop_current {entry : ℕ → UInt64} {i : ℕ} (hs : Tables S s.cr3 s)
    (hend : virtAddr + (i + n) * PAGE_SIZE ≤ 2 ^ 64) (hS : ∀ j < n,
    (splitIndices (virtAddr + (i + j) * PAGE_SIZE)).1 ∈ S) (hn : (node child s.mem s.cr3 (path3 v₀)).isSome)
    (hnext : 0 < n → virtAddr + i * PAGE_SIZE = v₀ ∨ virtAddr + i * PAGE_SIZE = v₀ + PAGE_SIZE) : wp
    (mapLoop Reach.current (tableAddr .pml4 0 0 0) virtAddr physAddr entry i n (cursorAt v₀))
      (fun _ s' => Writes S s.cr3 s (pageWrites virtAddr i n fun j => entry (wadd physAddr (wmul j PAGE_SIZE))) s')
      (Short s (3 * n)) s := by
  induction n generalizing i v₀ s with
  | zero => exact .refl
  | succ n ih =>
    have hva : wadd virtAddr (wmul i PAGE_SIZE) = virtAddr + i * PAGE_SIZE := by
      simp only [PAGE_SIZE] at hend ⊢
      rw [wmul_eq (by omega), wadd_eq (by omega)]
    rw [pageWrites_succ]
    simp only [mapLoop, hva]
    refine wp.seq' (mapPage_current hs (hS 0 (by omega)) (usable_next (hnext (by omega)) hn))
      (fun c s₁ h₁ => ?_) fun _ _ he => Short.mono he (by omega)
    obtain ⟨rfl, hw, hn₁, hl⟩ := h₁
    rw [← hw.same.1] at hn₁
    refine (ih (hw.next hs) (by rw [Nat.add_assoc, Nat.add_comm 1]; exact hend) (fun j hj => ?_) hn₁
      fun _ => .inr (by rw [Nat.add_mul, Nat.one_mul, Nat.add_assoc])).mono (fun _ s₂ => hw.then) fun _ _ he => ⟨he.1, ?_⟩
    · have := hS (j + 1) (by omega)
      rwa [Nat.add_comm j, ← Nat.add_assoc] at this
    · have := he.2
      omega

/-! ## Calls -/

/-- The pages of a range, whose first indices are in `S`. -/
structure Span (S : Set ℕ) (virtAddr n : ℕ) : Prop where
  aligned : virtAddr % PAGE_SIZE = 0
  pos : 0 < n
  le : virtAddr + n * PAGE_SIZE ≤ 2 ^ 64
  slots : ∀ j < n, (splitIndices (virtAddr + j * PAGE_SIZE)).1 ∈ S

theorem firstTables_current (hs : Tables S s.cr3 s) (ha : (splitIndices va).1 ∈ S) :
    wp (firstTables Reach.current (tableAddr .pml4 0 0 0) va) (Ready S s va 3 []) (Short s 3) s := by
  obtain ⟨hal, hbl, hdl, -⟩ := splitIndices_lt va
  have hne : ∀ {x : ℕ}, x < 512 → (512 != x) = true := fun {x} hx => by
    rw [bne_iff_ne]
    omega
  have h := pageTables_current hs ha (c := ⟨0, 0, 0, 512, 512, 512⟩)
    ⟨fun h => absurd h (by simp only; omega), fun h => absurd h (by simp only; omega),
      fun h => absurd h (by simp only; omega)⟩
  simp only [pageTables, hne hal, hne hbl, hne hdl, refresh, if_true, Reach.current] at h
  exact h

/-- **`map_memory` writes the entries of its pages.** -/
theorem mapMemory_writes (hs : Tables S s.cr3 s) {size : ℕ} {flags : UInt8} (hspan : Span S virtAddr n)
    (hphys : physAddr % PAGE_SIZE = 0) (hflags : flags &&& MMIO = 0 ∨ flags &&& WC = 0)
    (hsize : ceilDiv (roundUp size) PAGE_SIZE = n) :
    wp (mapMemory virtAddr physAddr size flags) (fun _ s' => Writes S s.cr3 s (pageWrites virtAddr 0 n fun j =>
      pageEntry s.pge s.pat flags (wadd physAddr (wmul j PAGE_SIZE))) s') (Short s (3 * (n + 1))) s := by
  have h1 : (virtAddr % PAGE_SIZE == 0 && physAddr % PAGE_SIZE == 0) = true := by simp [hspan.aligned, hphys]
  have h2 : decide (0 < n) = true := decide_eq_true hspan.pos
  have h3 : (!(flags &&& MMIO != 0 && flags &&& WC != 0)) = true := by
    rcases hflags with h | h <;> simp [h]
  have hfirst : (splitIndices virtAddr).1 ∈ S := by simpa using hspan.slots 0 hspan.pos
  simp only [mapMemory, mapMemoryWith, wp_bind, wp_get, check, hsize, h1, h2, h3, if_true, wp_pure]
  show wp (firstTables Reach.current (tableAddr .pml4 0 0 0) virtAddr >>= _) _ _ s
  refine wp.seq' (firstTables_current hs hfirst) (fun c s₁ h₁ => ?_) fun _ _ he => he.mono (by omega)
  obtain ⟨rfl, hw, hn, hl⟩ := h₁
  rw [← hw.same.1] at hn
  refine wp.seq' (mapLoop_current (i := 0) (hw.next hs) (by rw [Nat.zero_add]; exact hspan.le)
    (fun j hj => by rw [Nat.zero_add]; exact hspan.slots j hj) hn fun _ => .inl (by rw [Nat.zero_mul, Nat.add_zero]))
    (fun c s₂ => hw.then) fun _ _ he => ⟨he.1, ?_⟩
  have := he.2
  omega

/-- The walk of an address: its four entries, if they are present. -/
def Machine.walk (s : Machine) (va : ℕ) : Option (List UInt64) := entries child s.mem s.cr3 (indices va)

section
variable {l : List (List ℕ × UInt64)} {va : ℕ}

theorem Writes.walk_eq (h : Writes S s.cr3 s l s') (hs : Tables S s.cr3 s) (ha : (splitIndices va).1 ∈ S)
    (hl : ∀ x ∈ l, x.1 ≠ indices va) : s'.walk va = s.walk va := by
  have := (h.entries_eq (q := path3 va) (i := (splitIndices va).2.2.2) hs (starts_cons ha) rfl).1 (written_eq_none hl)
  rw [Machine.walk, h.same.1]
  exact this

theorem Writes.walk_written (h : Writes S s.cr3 s l s') (hs : Tables S s.cr3 s) (ha : (splitIndices va).1 ∈ S)
    (hl : (l.map Prod.fst).Nodup) (he : (indices va, e) ∈ l) :
    ∃ es, entries child s'.mem s.cr3 (path3 va) = some es ∧ s'.walk va = (child e).map fun _ => es ++ [e] := by
  rw [Machine.walk, h.same.1]
  exact (h.entries_eq (q := path3 va) (i := (splitIndices va).2.2.2) hs (starts_cons ha) rfl).2 e
    (written_eq_some hl he)

end

theorem unmapPage_current (hs : Tables S s.cr3 s) (ha : (splitIndices va).1 ∈ S) (hw : (s.walk va).isSome) :
    wp (unmapPage va) (fun _ s' => Writes S s.cr3 s [(indices va, 0)] s') (fun _ _ => False) s := by
  obtain ⟨hal, hbl, hdl, -⟩ := splitIndices_lt va
  have hnode : (node child s.mem s.cr3 (path3 va ++ [(splitIndices va).2.2.2])).isSome := by
    rw [← entries_isSome]
    exact hw
  obtain ⟨f, hf⟩ := Option.isSome_iff_exists.1 (isSome_of_append hnode)
  rw [node_concat hf] at hnode
  have hT : s.translate (tableAddr .pt (splitIndices va).1 (splitIndices va).2.1 (splitIndices va).2.2.1) = some f :=
    (translate_tableAddr hs.recursive .pt hal hbl hdl).trans hf
  have hpresent : (s.mem f (splitIndices va).2.2.2 &&& PTE.P != 0) = true := by
    rw [bne_iff_ne]
    intro h0
    simp [child, h0] at hnode
  simp only [unmapPage, wp_bind, wp_readEntry hT, check, hpresent, if_true, wp_pure, wp_writeEntry hT]
  exact .put 0 .refl (starts_cons ha) rfl hf

/-- **`unmap_memory` clears the entries of its pages.** -/
theorem unmapLoop_current {i : ℕ} (hs : Tables S s.cr3 s) (hend : virtAddr + (i + n) * PAGE_SIZE ≤ 2
    ^ 64) (hS : ∀ j < n, (splitIndices (virtAddr + (i + j) * PAGE_SIZE)).1 ∈ S)
    (hw : ∀ j < n, (s.walk (virtAddr + (i + j) * PAGE_SIZE)).isSome) (hinj : ∀ j < n, ∀ k < n,
    indices (virtAddr + (i + j) * PAGE_SIZE) = indices (virtAddr + (i + k) * PAGE_SIZE) → j = k) :
    wp (unmapLoop virtAddr i n) (fun _ s' => Writes S s.cr3 s (pageWrites virtAddr i n fun _ => 0)
    s') (fun _ _ => False) s := by
  induction n generalizing i s with
  | zero => exact .refl
  | succ n ih =>
    have hva : wadd virtAddr (wmul i PAGE_SIZE) = virtAddr + i * PAGE_SIZE := by
      simp only [PAGE_SIZE] at hend ⊢
      rw [wmul_eq (by omega), wadd_eq (by omega)]
    have hnext : ∀ j, i + 1 + j = i + (j + 1) := fun j => by omega
    rw [pageWrites_succ]
    simp only [unmapLoop, hva]
    refine wp.seq (unmapPage_current hs (hS 0 (by omega)) (hw 0 (by omega))) fun _ s₁ hw₁ => ?_
    refine (ih (hw₁.next hs) (by rw [hnext]; exact hend) (fun j hj => ?_) (fun j hj => ?_) fun j hj k hk hjk => ?_).imp
      fun _ s₂ => hw₁.then
    · rw [hnext]
      exact hS (j + 1) (by omega)
    · -- the other pages are still there
      rw [hnext, hw₁.walk_eq hs (hS (j + 1) (by omega)) fun x hx => ?_]
      · exact hw (j + 1) (by omega)
      · rw [mem_singleton.1 hx]
        intro heq
        have := hinj 0 (by omega) (j + 1) (by omega) heq
        omega
    · rw [hnext, hnext] at hjk
      have := hinj (j + 1) (by omega) (k + 1) (by omega) hjk
      omega

/-! ## Ranges -/

/-- The addresses that the processor accepts, without those of the recursive slot. -/
def Ordinary (va : ℕ) : Prop := va < 2 ^ 47 ∨ 2 ^ 64 - 2 ^ 47 ≤ va ∧ va < 2 ^ 64 - 2 ^ 39

/-- A range of `n` pages in one half of the address space, outside of the recursive slot. -/
def InHalf (virtAddr n : ℕ) : Prop :=
  virtAddr + n * PAGE_SIZE ≤ 2 ^ 47 ∨ 2 ^ 64 - 2 ^ 47 ≤ virtAddr ∧ virtAddr + n * PAGE_SIZE ≤ 2 ^ 64 - 2 ^ 39

def ordinarySlots : Set ℕ := {i | i ≠ RECURSIVE_SLOT}

theorem Ordinary.slot (h : Ordinary va) : (splitIndices va).1 ∈ ordinarySlots := by
  rw [splitIndices_eq]
  simp only [ordinarySlots, Set.mem_ofPred_eq, RECURSIVE_SLOT]
  rcases h with h | h <;> omega

/-- **The indices of an ordinary address are those of its page alone.** -/
theorem Ordinary.indices_eq_iff {vb : ℕ} (ha : Ordinary va) (hb : Ordinary vb) :
    indices va = indices vb ↔ va / PAGE_SIZE = vb / PAGE_SIZE := by
  simp only [indices, splitIndices_eq, List.cons.injEq, and_true, PAGE_SIZE]
  constructor
  · rintro ⟨h1, h2, h3, h4⟩
    rcases ha with ha | ha <;> rcases hb with hb | hb <;> omega
  · intro h
    refine ⟨?_, ?_, ?_, ?_⟩ <;> omega

section
variable {virtAddr n : ℕ}

section
variable (h : InHalf virtAddr n)
include h

theorem InHalf.ordinary {j : ℕ} (hj : j < n) : Ordinary (virtAddr + j * PAGE_SIZE) := by
  simp only [InHalf, PAGE_SIZE, Ordinary] at h ⊢
  omega

theorem InHalf.span (hn : 0 < n) (hv : virtAddr % PAGE_SIZE = 0) : Span ordinarySlots virtAddr n where
  aligned := hv
  pos := hn
  le := by
    rcases h with h | h <;> omega
  slots _ hj := (h.ordinary hj).slot

theorem InHalf.indices_eq_iff (hv : virtAddr % PAGE_SIZE = 0) {va : ℕ} (ha : Ordinary va)
    {j : ℕ} (hj : j < n) : indices (virtAddr + j * PAGE_SIZE) = indices va ↔
      va / PAGE_SIZE = virtAddr / PAGE_SIZE + j := by
  rw [(h.ordinary hj).indices_eq_iff ha]
  simp only [PAGE_SIZE] at hv ⊢
  omega

theorem InHalf.page_addr {j : ℕ} (hj : j < n) : wadd virtAddr (wmul j PAGE_SIZE) = virtAddr + j * PAGE_SIZE := by
  simp only [InHalf, PAGE_SIZE] at h ⊢
  rw [wmul_eq (by omega), wadd_eq (by omega)]

theorem InHalf.mem_pageWrites {entry : ℕ → UInt64} {x : List ℕ × UInt64} :
    x ∈ pageWrites virtAddr 0 n entry ↔ ∃ j < n, x = (indices (virtAddr + j * PAGE_SIZE), entry j) := by
  simp only [pageWrites, mem_map, mem_range'_1, zero_le, zero_add, true_and]
  constructor
  · rintro ⟨j, hj, rfl⟩
    exact ⟨j, hj, by rw [h.page_addr hj]⟩
  · rintro ⟨j, hj, rfl⟩
    exact ⟨j, hj, by rw [h.page_addr hj]⟩

theorem InHalf.indices_inj (hv : virtAddr % PAGE_SIZE = 0) {j k : ℕ} (hj : j < n) (hk : k < n)
    (heq : indices (virtAddr + j * PAGE_SIZE) = indices (virtAddr + k * PAGE_SIZE)) : j = k := by
  have := (h.indices_eq_iff hv (h.ordinary hk) hj).1 heq
  simp only [PAGE_SIZE] at hv this
  omega

theorem InHalf.nodup_pageWrites (hv : virtAddr % PAGE_SIZE = 0) (entry : ℕ → UInt64) :
    ((pageWrites virtAddr 0 n entry).map Prod.fst).Nodup := by
  rw [pageWrites, map_map]
  refine Nodup.map_on (fun j hj k hk hjk => ?_) nodup_range'
  rw [mem_range'_1, zero_add] at hj hk
  simp only [Function.comp_apply, h.page_addr hj.2, h.page_addr hk.2] at hjk
  exact h.indices_inj hv hj.2 hk.2 hjk

end

/-- **`unmap_memory` of a range whose pages are all there.** -/
theorem unmapMemory_writes {s : Machine} (hs : Tables ordinarySlots s.cr3 s) (h : InHalf virtAddr n) (hn : 0 < n)
    (hv : virtAddr % PAGE_SIZE = 0) (hw : ∀ j < n, (s.walk (virtAddr + j * PAGE_SIZE)).isSome) :
    wp (unmapMemory virtAddr (n * PAGE_SIZE))
      (fun _ s' => Writes ordinarySlots s.cr3 s (pageWrites virtAddr 0 n fun _ => 0) s') (fun _ _ => False) s := by
  have hspan := h.span hn hv
  have h1 : (virtAddr % PAGE_SIZE == 0 && n * PAGE_SIZE % PAGE_SIZE == 0) = true := by simp [hv]
  have h2 : decide (0 < n) = true := decide_eq_true hn
  have hcount : ceilDiv (n * PAGE_SIZE) PAGE_SIZE = n := by
    refine ceilDiv_mul ?_
    simp only [InHalf, PAGE_SIZE] at h ⊢
    omega
  simp only [unmapMemory, wp_bind, check, h1, hcount, h2, if_true, wp_pure]
  refine unmapLoop_current hs (by rw [Nat.zero_add]; exact hspan.le) ?_ ?_ ?_ <;> simp only [Nat.zero_add]
  · exact hspan.slots
  · exact hw
  · exact fun j hj k hk => h.indices_inj hv hj hk

end

/-! ## Exactness -/

/-- The walk ends at the page of `pa`, in an entry with this user bit; the entries before it are old or open to
user mode. -/
def MapsTo (s s' : Machine) (va pa : ℕ) (user : Bool) : Prop :=
  ∃ uppers leaf, s'.walk va = some (uppers ++ [leaf]) ∧ child leaf = some (pa / PAGE_SIZE) ∧ isUser leaf = user ∧
    ∀ e ∈ uppers, isUser e = true ∨ e ∈ trail child s.mem s.cr3 (path3 va)

def InRange (virtAddr n va : ℕ) : Prop := ∃ j < n, va / PAGE_SIZE = virtAddr / PAGE_SIZE + j

/-- What `map_memory` of `n` pages does to the address space. -/
structure Mapped (s : Machine) (virtAddr physAddr n : ℕ) (flags : UInt8) (s' : Machine) : Prop where
  tables : Tables ordinarySlots s'.cr3 s'
  maps : ∀ va, Ordinary va → ∀ j < n, va / PAGE_SIZE = virtAddr / PAGE_SIZE + j →
    MapsTo s s' va ((physAddr + j * PAGE_SIZE) % 2 ^ 52) (flags &&& USER != 0)
  others : ∀ va, Ordinary va → ¬ InRange virtAddr n va → s'.walk va = s.walk va

/-- What `unmap_memory` of `n` pages does to the address space. -/
structure Unmapped (s : Machine) (virtAddr n : ℕ) (s' : Machine) : Prop where
  tables : Tables ordinarySlots s'.cr3 s'
  gone : ∀ va, Ordinary va → InRange virtAddr n va → s'.walk va = none
  others : ∀ va, Ordinary va → ¬ InRange virtAddr n va → s'.walk va = s.walk va

section
variable {s s' : Machine} {virtAddr physAddr n : ℕ} {flags : UInt8}

section
variable (h : InHalf virtAddr n) (hv : virtAddr % PAGE_SIZE = 0) (hs : Tables ordinarySlots s.cr3 s)
  {entry : ℕ → UInt64}
include h hv hs

theorem InHalf.walk_eq (hw : Writes ordinarySlots s.cr3 s (pageWrites virtAddr 0 n entry) s')
    {va : ℕ} (ha : Ordinary va) (hout : ¬ InRange virtAddr n va) : s'.walk va = s.walk va := by
  refine hw.walk_eq hs ha.slot fun x hx heq => ?_
  obtain ⟨j, hj, rfl⟩ := h.mem_pageWrites.1 hx
  exact hout ⟨j, hj, (h.indices_eq_iff hv ha hj).1 heq⟩

theorem InHalf.walk_written (hw : Writes ordinarySlots s.cr3 s
    (pageWrites virtAddr 0 n entry) s') {va : ℕ} (ha : Ordinary va) {j : ℕ} (hj : j < n)
    (hpage : va / PAGE_SIZE = virtAddr / PAGE_SIZE + j) : ∃ es, entries child s'.mem s.cr3
    (path3 va) = some es ∧ s'.walk va = (child (entry j)).map fun _ => es ++ [entry j] := by
  refine hw.walk_written hs ha.slot (h.nodup_pageWrites hv entry) (h.mem_pageWrites.2 ⟨j, hj, ?_⟩)
  rw [(h.indices_eq_iff hv ha hj).2 hpage]

theorem InHalf.mapped (hw : Writes ordinarySlots s.cr3 s (pageWrites virtAddr 0 n fun j =>
      pageEntry s.pge s.pat flags (wadd physAddr (wmul j PAGE_SIZE))) s') :
    Mapped s virtAddr physAddr n flags s' where
  tables := hw.next hs
  maps va ha j hj hpage := by
    obtain ⟨es, hes, hwalk⟩ := h.walk_written hv hs hw ha hj hpage
    obtain ⟨hchild, huser⟩ := child_pageEntry s.pge s.pat flags (wadd physAddr (wmul j PAGE_SIZE))
    -- the address of the page is taken modulo 2 ^ 64, its entry keeps 52 bits
    have hmod : wadd physAddr (wmul j PAGE_SIZE) % 2 ^ 52 = (physAddr + j * PAGE_SIZE) % 2 ^ 52 := by
      simp only [wadd, wmul]
      omega
    rw [hchild] at hwalk
    exact ⟨es, _, hwalk, by rw [hchild, hmod], huser, hw.old_or_user hs (starts_cons ha.slot) le_rfl hes⟩
  others va ha hout := h.walk_eq hv hs hw ha hout

theorem InHalf.unmapped
    (hw : Writes ordinarySlots s.cr3 s (pageWrites virtAddr 0 n fun _ => 0) s') : Unmapped s virtAddr n s' where
  tables := hw.next hs
  gone va ha hin := by
    obtain ⟨j, hj, hpage⟩ := hin
    obtain ⟨es, -, hwalk⟩ := h.walk_written hv hs hw ha hj hpage
    exact hwalk
  others va ha hout := h.walk_eq hv hs hw ha hout

end

theorem InHalf.count {size : ℕ} (hn : n = (size + PAGE_SIZE - 1) / PAGE_SIZE) (h : InHalf virtAddr n) :
    ceilDiv (roundUp size) PAGE_SIZE = n := by
  have hsmall : size + 2 * PAGE_SIZE ≤ 2 ^ 64 := by
    simp only [InHalf, PAGE_SIZE] at h hn ⊢
    omega
  obtain ⟨hle, hlt⟩ := le_roundUp (n := size) (by omega)
  have hdvd := dvd_roundUp size
  rw [ceilDiv_page (by omega), hn]
  simp only [PAGE_SIZE] at *
  omega

/-- **Page mapping is exact**: each page of the range leads to its page of memory, every other ordinary address
to where it led before, and `unmap_memory` takes away exactly these pages; it stops only for want of a page for a
table. -/
theorem mapMemory_exact (hs : Tables ordinarySlots s.cr3 s) {size : ℕ} (hv : virtAddr % PAGE_SIZE = 0)
    (hp : physAddr % PAGE_SIZE = 0) (hsize : 0 < size) (hn : n = (size + PAGE_SIZE - 1) / PAGE_SIZE)
    (hhalf : InHalf virtAddr n) (hflags : flags &&& MMIO = 0 ∨ flags &&& WC = 0) :
    wp (mapMemory virtAddr physAddr size flags)
      (fun _ s' => Mapped s virtAddr physAddr n flags s' ∧
        wp (unmapMemory virtAddr (n * PAGE_SIZE)) (fun _ s'' => Unmapped s' virtAddr n s'') (fun _ _ => False) s')
      (Short s (3 * (n + 1))) s := by
  have hpos : 0 < n := by
    simp only [PAGE_SIZE] at hn
    omega
  refine (mapMemory_writes hs (hhalf.span hpos hv) hp hflags (hhalf.count hn)).imp fun _ s' hw => ?_
  have hm := hhalf.mapped hv hs hw
  refine ⟨hm, (unmapMemory_writes hm.tables hhalf hpos hv fun j hj => ?_).imp
    fun _ s'' hw' => hhalf.unmapped hv hm.tables hw'⟩
  obtain ⟨es, leaf, hwalk, -⟩ := hm.maps _ (hhalf.ordinary hj) j hj (by simp only [PAGE_SIZE]; omega)
  rw [hwalk, Option.isSome_some]

end

/-- An address space with no table but its PML4, and nine free pages. -/
def bareSpace : Machine where
  cr3 := 1
  mem f i := if f = 1 ∧ i = RECURSIVE_SLOT then 0x1000 ||| PTE.PWT ||| PTE.RW ||| PTE.P else 0
  free := [2, 3, 4, 5, 6, 7, 8, 9, 10]
  pge := true
  pat := true

theorem bareSpace_node {p : List ℕ} (hp : Starts ordinarySlots p) (h : node child bareSpace.mem 1 p = some f) :
    p = [] ∧ f = 1 := by
  cases p with
  | nil => exact ⟨rfl, (Option.some.inj h).symm⟩
  | cons i t =>
    have hi : i ≠ RECURSIVE_SLOT := hp i rfl
    simp [node, bareSpace, hi, child_zero] at h

theorem bareSpace_tables : Tables ordinarySlots bareSpace.cr3 bareSpace where
  recursive := by decide
  slot := fun h => h rfl
  tree p q f hp hq _ _ hpf hqf := by rw [(bareSpace_node hp hpf).1, (bareSpace_node hq hqf).1]
  fresh g hg := by
    refine ⟨?_, fun p hp _ hpg => ?_⟩
    · revert g
      decide
    · rw [(bareSpace_node hp hpg).2] at hg
      revert hg
      decide
  nodup := by decide

theorem mapMemory_exact_boundary : wp (mapMemory 0x1ff000 0x8000 0x1001 USER)
    (fun _ s' => Mapped bareSpace 0x1ff000 0x8000 2 USER s' ∧
      wp (unmapMemory 0x1ff000 (2 * PAGE_SIZE)) (fun _ s'' => Unmapped s' 0x1ff000 2 s'') (fun _ _ => False) s')
    (fun _ _ => False) bareSpace := by
  have hhalf : InHalf 0x1ff000 2 := .inl (by decide)
  have hs := bareSpace_tables
  have hfree : bareSpace.free.length = 9 := rfl
  -- with the machine out of sight, the call is not run to see what it is
  generalize bareSpace = s at hs hfree ⊢
  refine (mapMemory_exact hs (by decide) (by decide) (by decide) (by decide) hhalf (.inl (by decide))).mono
    (fun _ _ h => h) fun _ _ he => ?_
  have := he.2
  omega

/-- A new table appears in the recursive slot; a write-combining device register panics, and so does
`unmap_memory` with a size that `map_memory` rounds up. -/
theorem mapMemory_limits : Tables ordinarySlots bareSpace.cr3 bareSpace ∧ bareSpace.walk (tableAddr .pt 0 0 0) = none
    ∧ wp (mapMemory 0 0x8000 PAGE_SIZE 0) (fun _ s' => (s'.walk (tableAddr .pt 0 0 0)).isSome) (fun _ _ => False)
    bareSpace ∧ wp (mapMemory 0 0x8000 PAGE_SIZE ( MMIO ||| WC)) (fun _ _ => False) (fun e _ => e = .panic) bareSpace ∧
    wp (mapMemory 0 0x8000 1 0) (fun _ s' => wp (unmapMemory 0 1) (fun _ _ => False) (fun e _ => e = .panic) s')
    (fun _ _ => False) bareSpace := by
  refine ⟨bareSpace_tables, ?_, ?_, ?_, ?_⟩ <;> decide +kernel

end Archis.Paging
