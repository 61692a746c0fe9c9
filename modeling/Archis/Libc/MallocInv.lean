/-
  What holds of the allocator's memory.

  `Inv h l live hand`: the free list is `l`, the blocks that the program holds have their headers at `live`, and the
  regions `hand` are taken out of both while a call works on them.  Writes to the data of live blocks keep it
  (`Inv.frame`).
-/
import Archis.Lib.Tiling
import Archis.Libc.Malloc

namespace Archis.Libc

open Archis.Lib
open List hiding Disjoint

/-! ## Intervals -/

def spans (l : List (ℕ × ℕ)) (x : ℕ) : ℕ := cover Prod.fst Prod.snd l x

section
variable {l l' : List (ℕ × ℕ)} {a b c d x : ℕ} {r : ℕ × ℕ}

@[simp] theorem spans_nil : spans [] x = 0 := rfl

@[simp] theorem spans_cons : spans (r :: l) x = hits r.1 r.2 x + spans l x := cover_cons _ _ r l x

@[simp] theorem spans_append : spans (l ++ l') x = spans l x + spans l' x := cover_append _ _ l l' x

theorem hits_le_spans (h : r ∈ l) (x : ℕ) : hits r.1 r.2 x ≤ spans l x := hits_le_cover _ _ h x

theorem spans_perm (h : l.Perm l') : spans l x = spans l' x := (h.map _).sum_eq

theorem eq_of_common {f : ℕ × ℕ → ℕ × ℕ} (h : ∀ x, spans (l.map f) x ≤ 1) {c d : ℕ × ℕ} (hc : c ∈ l) (hd : d ∈ l)
    (hxc : (f c).1 ≤ x ∧ x < (f c).2) (hxd : (f d).1 ≤ x ∧ x < (f d).2) : c = d := by
  have hcover : ∀ x, cover (fun c => (f c).1) (fun c => (f c).2) l x ≤ 1 := fun x => by
    have := h x
    rwa [spans, cover, map_map] at this
  by_contra hne
  have hpair := pairwise_disjoint_of_cover _ _ hcover
  have hsymm : Std.Symm fun c d : ℕ × ℕ => Disjoint (Set.Ico (f c).1 (f c).2) (Set.Ico (f d).1 (f d).2) :=
    ⟨fun _ _ h => h.symm⟩
  exact Set.disjoint_left.1 (hpair.forall hc hd hne) hxc hxd

end

/-- The bytes of a free block: its address, and its size with the free bit. -/
def freeSpan (x : ℕ × ℕ) : ℕ × ℕ := (x.1, x.1 + x.2 + 15)

theorem spaced_of_spans {l : List (ℕ × ℕ)} (hshape : ∀ y ∈ l, y.2 % 16 = 1)
    (hle : ∀ x, spans (l.map freeSpan) x ≤ 1) : Spaced l := by
  have hcover : ∀ x, cover (fun y => (freeSpan y).1) (fun y => (freeSpan y).2) l x ≤ 1 := fun x => by
    have := hle x
    rwa [spans, cover, map_map] at this
  refine (pairwise_disjoint_of_cover _ _ hcover).imp_of_mem fun {y z} hy hz hd => ?_
  have h1 := hshape y hy
  have h2 := hshape z hz
  simp only [freeSpan] at hd
  by_contra hno
  rcases le_total y.1 z.1 with hle | hle
  · exact Set.disjoint_left.1 hd (show z.1 ∈ Set.Ico y.1 (y.1 + y.2 + 15) from ⟨hle, by omega⟩) ⟨le_rfl, by omega⟩
  · exact Set.disjoint_left.1 hd (show y.1 ∈ Set.Ico y.1 (y.1 + y.2 + 15) from ⟨le_rfl, by omega⟩) ⟨hle, by omega⟩

def liveSpan (x : ℕ × ℕ) : ℕ × ℕ := (x.1, x.1 + x.2 + 16)

def chunkSpan (c : ℕ × ℕ) : ℕ × ℕ := (c.1, c.1 + c.2)

def dataSpan (c : ℕ × ℕ) : ℕ × ℕ := (c.1 + 16, c.1 + c.2)

/-! ## Chunks -/

def ChunkSeg (word : ℕ → ℕ) : ℕ → List (ℕ × ℕ) → Prop
  | p, [] => p = 0
  | p, (c, n) :: l => p = c ∧ word (c + 8) = n - 16 ∧ ChunkSeg word (word c) l

theorem ChunkSeg.congr {mem mem' : ℕ → UInt8} {l : List (ℕ × ℕ)} {p : ℕ} (h : ChunkSeg (wordAt mem) p l)
    (hmem : ∀ c ∈ l, ∀ x, c.1 ≤ x → x < c.1 + 16 → mem' x = mem x) : ChunkSeg (wordAt mem') p l := by
  induction l generalizing p with
  | nil =>
    have h0 : p = 0 := h
    exact h0
  | cons c l ih =>
    obtain ⟨h1, h2, h3⟩ := h
    have hc := hmem c (.head _)
    refine ⟨h1, (wordAt_congr fun x _ _ => hc x (by omega) (by omega)).trans h2, ?_⟩
    rw [wordAt_congr fun x hlo _ => hc x hlo (by omega)]
    exact ih h3 fun x hx => hmem x (.tail _ hx)

structure Chunks (given : List (ℕ × ℕ)) : Prop where
  page : ∀ c ∈ given, PAGE_SZ ∣ c.1 ∧ PAGE_SZ ∣ c.2
  bounds : ∀ c ∈ given, 0 < c.1 ∧ 0 < c.2 ∧ c.1 + c.2 ≤ USER_END
  disjoint : ∀ x, spans (given.map chunkSpan) x ≤ 1

theorem spans_data_le (given : List (ℕ × ℕ)) (x : ℕ) : spans (given.map dataSpan) x ≤ spans (given.map chunkSpan) x := by
  induction given with
  | nil => exact le_rfl
  | cons c given ih =>
    simp only [map_cons, spans_cons]
    have : hits (dataSpan c).1 (dataSpan c).2 x ≤ hits (chunkSpan c).1 (chunkSpan c).2 x := by
      unfold hits dataSpan chunkSpan
      split_ifs <;> omega
    omega

theorem spans_data_header {given : List (ℕ × ℕ)} {c : ℕ × ℕ} (hc : c ∈ given) (x : ℕ) :
    spans (given.map dataSpan) x + hits c.1 (min (c.1 + 16) (c.1 + c.2)) x ≤ spans (given.map chunkSpan) x := by
  induction given with
  | nil => cases hc
  | cons d given ih =>
    simp only [map_cons, spans_cons]
    rcases mem_cons.1 hc with rfl | hc
    · have := spans_data_le given x
      have : hits (dataSpan c).1 (dataSpan c).2 x + hits c.1 (min (c.1 + 16) (c.1 + c.2)) x ≤
          hits (chunkSpan c).1 (chunkSpan c).2 x := by
        unfold hits dataSpan chunkSpan
        split_ifs <;> omega
      omega
    · have := ih hc
      have : hits (dataSpan d).1 (dataSpan d).2 x ≤ hits (chunkSpan d).1 (chunkSpan d).2 x := by
        unfold hits dataSpan chunkSpan
        split_ifs <;> omega
      omega

namespace Chunks

variable {given : List (ℕ × ℕ)} {x a b : ℕ}

theorem data_le_one (h : Chunks given) (x : ℕ) : spans (given.map dataSpan) x ≤ 1 :=
  (spans_data_le given x).trans (h.disjoint x)

theorem size (h : Chunks given) {c : ℕ × ℕ} (hc : c ∈ given) : PAGE_SZ ≤ c.2 :=
  Nat.le_of_dvd (h.bounds c hc).2.1 (h.page c hc).2

theorem header (h : Chunks given) {c : ℕ × ℕ} (hc : c ∈ given) (hlo : c.1 ≤ x) (hhi : x < c.1 + 16) :
    spans (given.map dataSpan) x = 0 := by
  have h1 := spans_data_header hc x
  have h2 := h.disjoint x
  have hsize := h.size hc
  simp only [PAGE_SZ] at hsize
  have h3 : 0 < hits c.1 (min (c.1 + 16) (c.1 + c.2)) x := hits_pos.2 ⟨hlo, by omega⟩
  omega

theorem mem_of_data (hx : 0 < spans (given.map dataSpan) x) : ∃ c ∈ given, c.1 + 16 ≤ x ∧ x < c.1 + c.2 := by
  obtain ⟨r, hr, hlo, hhi⟩ := exists_mem_of_cover _ _ hx
  obtain ⟨c, hc, rfl⟩ := mem_map.1 hr
  exact ⟨c, hc, hlo, hhi⟩

/-- **A region of data lies in one chunk.** -/
theorem in_one (h : Chunks given) (hab : a < b) (hin : ∀ x, a ≤ x → x < b → 0 < spans (given.map dataSpan) x) :
    ∃ c ∈ given, c.1 + 16 ≤ a ∧ b ≤ c.1 + c.2 := by
  obtain ⟨c, hc, hlo, hhi⟩ := mem_of_data (hin a le_rfl hab)
  refine ⟨c, hc, hlo, ?_⟩
  -- otherwise the first byte behind the chunk is in another one, whose header is before it
  by_contra hend
  obtain ⟨d, hd, hdlo, hdhi⟩ := mem_of_data (hin (c.1 + c.2) (by omega) (by omega))
  have hne : d.1 + d.2 ≠ c.1 + c.2 := by omega
  by_cases hbefore : d.1 ≤ c.1 + c.2 - 1
  · by_cases hsame : d.1 + 16 ≤ c.1 + c.2 - 1
    · obtain rfl := eq_of_common h.disjoint (x := c.1 + c.2 - 1) hc hd ⟨by simp only [chunkSpan]; omega,
        by simp only [chunkSpan]; omega⟩ ⟨by simp only [chunkSpan]; omega, by simp only [chunkSpan]; omega⟩
      exact hne rfl
    · have := h.header hd hbefore (by omega)
      have := hin (c.1 + c.2 - 1) (by omega) (by omega)
      omega
  · omega

end Chunks

/-! ## The invariant -/

namespace Arena

structure Inv (h : Arena) (l live hand : List (ℕ × ℕ)) : Prop where
  list : h.freeList.IsList l
  chunkList : ChunkSeg h.word h.gChunks h.given
  chunks : Chunks h.given
  /-- The free bit is part of the size. -/
  freeShape : ∀ x ∈ l, x.1 % 16 = 0 ∧ x.2 % 16 = 1
  liveShape : ∀ x ∈ live, x.1 % 16 = 0 ∧ x.2 % 16 = 0 ∧ h.word x.1 = x.2
  covered : ∀ x, spans (l.map freeSpan) x + spans (live.map liveSpan) x + spans hand x ≤
    spans (h.given.map dataSpan) x

namespace Inv

variable {h h' : Arena} {l l₁ l₂ live live' hand hand' : List (ℕ × ℕ)} {a b n x : ℕ}

theorem le_one (hi : Inv h l live hand) (x : ℕ) :
    spans (l.map freeSpan) x + spans (live.map liveSpan) x + spans hand x ≤ 1 :=
  (hi.covered x).trans (hi.chunks.data_le_one x)

theorem rehand (hi : Inv h l live hand) (hle : ∀ x, spans hand' x ≤ spans hand x) : Inv h l live hand' :=
  ⟨hi.list, hi.chunkList, hi.chunks, hi.freeShape, hi.liveShape, fun x => by
    have := hi.covered x
    have := hle x
    omega⟩

theorem perm (hi : Inv h l live hand) (hp : live.Perm live') : Inv h l live' hand :=
  ⟨hi.list, hi.chunkList, hi.chunks, hi.freeShape, fun x hx => hi.liveShape x (hp.symm.subset hx), fun x => by
    rw [← spans_perm (hp.map liveSpan)]
    exact hi.covered x⟩

theorem unlive (hi : Inv h l ((a, n) :: live) hand) : Inv h l live ((a, a + n + 16) :: hand) :=
  ⟨hi.list, hi.chunkList, hi.chunks, hi.freeShape, fun x hx => hi.liveShape x (.tail _ hx), fun x => by
    have := hi.covered x
    simp only [map_cons, spans_cons, liveSpan] at this ⊢
    omega⟩

theorem alive (hi : Inv h l live ((a, a + n + 16) :: hand)) (ha : a % 16 = 0) (hn : n % 16 = 0)
    (hw : h.word a = n) : Inv h l ((a, n) :: live) hand :=
  ⟨hi.list, hi.chunkList, hi.chunks, hi.freeShape, fun x hx => by
    rcases mem_cons.1 hx with rfl | hx
    · exact ⟨ha, hn, hw⟩
    · exact hi.liveShape x hx, fun x => by
    have := hi.covered x
    simp only [map_cons, spans_cons, liveSpan] at this ⊢
    omega⟩

theorem bounds_of_data (hi : Inv h l live hand) (hab : a < b) (hin : ∀ x, hits a b x ≤ spans (h.given.map dataSpan) x) :
    ∃ c ∈ h.given, c.1 + 16 ≤ a ∧ b ≤ c.1 + c.2 :=
  hi.chunks.in_one hab fun x hlo hhi => (hits_pos.2 ⟨hlo, hhi⟩).trans_le (hin x)

theorem hand_bounds (hi : Inv h l live ((a, b) :: hand)) (hab : a < b) : ∃ c ∈ h.given, c.1 + 16 ≤ a ∧ b ≤ c.1 + c.2 := by
  refine hi.bounds_of_data hab fun x => ?_
  have := hi.covered x
  simp only [spans_cons] at this
  omega

variable {y : ℕ × ℕ}

theorem free_bounds (hi : Inv h l live hand) (hy : y ∈ l) :
    ∃ c ∈ h.given, c.1 + 16 ≤ y.1 ∧ y.1 + y.2 + 15 ≤ c.1 + c.2 := by
  have hpos := (hi.freeShape y hy).2
  refine hi.bounds_of_data (a := y.1) (b := y.1 + y.2 + 15) (by omega) fun x => ?_
  have := hi.covered x
  have hle : hits y.1 (y.1 + y.2 + 15) x ≤ spans (l.map freeSpan) x :=
    hits_le_spans (r := freeSpan y) (mem_map_of_mem hy) x
  omega

theorem live_bounds (hi : Inv h l live hand) (hy : y ∈ live) :
    ∃ c ∈ h.given, c.1 + 16 ≤ y.1 ∧ y.1 + y.2 + 16 ≤ c.1 + c.2 := by
  refine hi.bounds_of_data (a := y.1) (b := y.1 + y.2 + 16) (by omega) fun x => ?_
  have := hi.covered x
  have hle : hits y.1 (y.1 + y.2 + 16) x ≤ spans (live.map liveSpan) x :=
    hits_le_spans (r := liveSpan y) (mem_map_of_mem hy) x
  omega

theorem free_pos (hy : y ∈ l) (hlo : y.1 ≤ x) (hhi : x < y.1 + y.2 + 15) : 0 < spans (l.map freeSpan) x :=
  (hits_pos.2 ⟨hlo, hhi⟩).trans_le (hits_le_spans (r := freeSpan y) (mem_map_of_mem hy) x)

theorem header_pos (hi : Inv h l live hand) (hy : y ∈ l) (hlo : y.1 ≤ x) (hhi : x < y.1 + 16) :
    0 < spans (l.map freeSpan) x := by
  have := (hi.freeShape y hy).2
  exact free_pos hy hlo (by omega)

theorem live_pos (hy : y ∈ live) (hlo : y.1 ≤ x) (hhi : x < y.1 + y.2 + 16) : 0 < spans (live.map liveSpan) x :=
  (hits_pos.2 ⟨hlo, hhi⟩).trans_le (hits_le_spans (r := liveSpan y) (mem_map_of_mem hy) x)

theorem spaced (hi : Inv h l live hand) : Spaced l :=
  spaced_of_spans (fun y hy => (hi.freeShape y hy).2) fun x => by
    have := hi.le_one x
    omega

/-- **The frame.**  Writes to regions in hand and to the data of live blocks. -/
theorem frame (hi : Inv h l live hand) {mem : ℕ → UInt8} (hmem : ∀ x, mem x ≠ h.mem x → 0 < spans hand x ∨ ∃ y ∈ live,
    y.1 + 16 ≤ x ∧ x < y.1 + y.2 + 16) : Inv { h with mem } l live hand := by
  -- such a byte is neither in a free block nor in the header of a chunk
  have hkept : ∀ x, mem x ≠ h.mem x → spans (l.map freeSpan) x = 0 ∧ 0 < spans (h.given.map dataSpan) x := by
    intro x hx
    have hone := hi.le_one x
    have hdata := hi.covered x
    rcases hmem x hx with hhand | ⟨y, hy, hlo, hhi⟩
    · omega
    · have := live_pos hy (Nat.le_of_add_right_le hlo) hhi
      omega
  refine ⟨?_, ?_, hi.chunks, hi.freeShape, fun y hy => ?_, hi.covered⟩
  · refine ListMem.IsSeg.congr (m := h.freeList) hi.list fun y hy x hlo hhi => ?_
    by_contra hx
    have := (hkept x hx).1
    have := hi.header_pos hy hlo hhi
    omega
  · refine hi.chunkList.congr fun c hc x hlo hhi => ?_
    by_contra hx
    have := (hkept x hx).2
    have := hi.chunks.header hc hlo hhi
    omega
  · obtain ⟨h1, h2, h3⟩ := hi.liveShape y hy
    refine ⟨h1, h2, (wordAt_congr fun x hlo hhi => ?_).trans h3⟩
    by_contra hx
    have hone := hi.le_one x
    rcases hmem x hx with hhand | ⟨z, hz, hzlo, hzhi⟩
    · have := live_pos hy hlo (by omega)
      omega
    have hle : ∀ x, spans (live.map liveSpan) x ≤ 1 := fun x => by
      have := hi.le_one x
      omega
    obtain rfl := eq_of_common hle (x := x) hy hz ⟨hlo, by simp only [liveSpan]; omega⟩
      ⟨by simp only [liveSpan]; omega, hzhi⟩
    omega

theorem setWord {v : ℕ} (hi : Inv h l live ((a, b) :: hand)) (hlo : a ≤ x) (hhi : x + 8 ≤ b) :
    Inv (h.setWord x v) l live ((a, b) :: hand) := by
  refine hi.frame fun y hy => .inl ?_
  have hin : x ≤ y ∧ y < x + 8 := by
    by_contra hno
    exact hy (setWord_of_disjoint (by omega))
  exact (hits_pos.2 ⟨by omega, by omega⟩).trans_le (hits_le_spans (r := (a, b)) (.head _) y)

end Inv

/-! ## Changes of the free list -/

/-- The bytes of the live blocks and of the regions in hand are as before. -/
def Keeps (h h' : Arena) (live hand : List (ℕ × ℕ)) : Prop :=
  ∀ x, 0 < spans (live.map liveSpan) x + spans hand x → h'.mem x = h.mem x

section
variable {h h' h'' : Arena} {l l₁ l₂ live live' hand hand' : List (ℕ × ℕ)} {a b n p fuel x : ℕ}

theorem Keeps.trans (h₁ : Keeps h h' live hand) (h₂ : Keeps h' h'' live hand) : Keeps h h'' live hand :=
  fun x hx => (h₂ x hx).trans (h₁ x hx)

theorem Keeps.mono (hk : Keeps h h' live hand)
    (hle : ∀ x, spans (live'.map liveSpan) x + spans hand' x ≤ spans (live.map liveSpan) x + spans hand x) :
    Keeps h h' live' hand' := fun x hx => hk x (hx.trans_le (hle x))

theorem Keeps.tail {r : ℕ × ℕ} (hk : Keeps h h' live (r :: hand)) : Keeps h h' live hand :=
  hk.mono fun x => by
    rw [spans_cons]
    omega

theorem Inv.keeps (hi : Inv h' l live hand)
    (ht : ∀ x, h'.mem x ≠ h.mem x → ∃ y ∈ l, y.1 ≤ x ∧ x < y.1 + 16) : Keeps h h' live hand := by
  intro x hx
  by_contra hne
  obtain ⟨y, hy, hlo, hhi⟩ := ht x hne
  have hfree := hi.header_pos hy hlo hhi
  have := hi.le_one x
  omega

theorem mem_lastAddr {l : List (ℕ × ℕ)} (h : lastAddr l ≠ 0) : ∃ y ∈ l, y.1 = lastAddr l := by
  rcases eq_nil_or_concat' l with rfl | ⟨l', y, rfl⟩
  · exact absurd rfl h
  · exact ⟨y, by simp, (lastAddr_concat y).symm⟩

theorem setLink_touch (hx : (h.setLink (lastAddr l₁) b).mem x ≠ h.mem x) : ∃ y ∈ l₁, y.1 ≤ x ∧ x < y.1 + 16 := by
  have hne : lastAddr l₁ ≠ 0 := by
    intro h0
    exact hx (ListMem.setLink_mem (m := h.freeList) (.inl h0))
  obtain ⟨y, hy, hya⟩ := mem_lastAddr hne
  refine ⟨y, hy, ?_⟩
  by_contra hno
  exact hx (ListMem.setLink_mem (m := h.freeList) (.inr (by omega)))

theorem Inv.headers (hi : Inv h l live hand) (ht : ∀ x, h'.mem x ≠ h.mem x → ∃ y ∈ l, y.1 ≤ x ∧
    x < y.1 + 16) : ChunkSeg h'.word h.gChunks h.given ∧
      ∀ y ∈ live, y.1 % 16 = 0 ∧ y.2 % 16 = 0 ∧ h'.word y.1 = y.2 := by
  have hkept : ∀ x, spans (l.map freeSpan) x = 0 → h'.mem x = h.mem x := by
    intro x h0
    by_contra hne
    obtain ⟨y, hy, hlo, hhi⟩ := ht x hne
    have := hi.header_pos hy hlo hhi
    omega
  constructor
  · refine hi.chunkList.congr fun c hc x hlo hhi => hkept x ?_
    have := hi.covered x
    have := hi.chunks.header hc hlo hhi
    omega
  · intro y hy
    obtain ⟨h1, h2, h3⟩ := hi.liveShape y hy
    refine ⟨h1, h2, (wordAt_congr fun x hlo hhi => hkept x ?_).trans h3⟩
    have := hi.le_one x
    have := Inv.live_pos hy hlo (by omega)
    omega

/-- **A free block is taken in hand.** -/
theorem Inv.take (hi : Inv h (l₁ ++ (a, n) :: l₂) live hand) (h₁ : h.freeList.IsSeg h.gFreeList l₁ a)
    (h₂ : h.freeList.IsSeg a ((a, n) :: l₂) 0) :
    Inv (h.setLink (lastAddr l₁) (h.word (a + 8))) (l₁ ++ l₂) live ((a, a + n + 15) :: hand) ∧
      Keeps h (h.setLink (lastAddr l₁) (h.word (a + 8))) live ((a, a + n + 15) :: hand) := by
  have hinv : Inv (h.setLink (lastAddr l₁) (h.word (a + 8))) (l₁ ++ l₂) live ((a, a + n + 15) :: hand) := by
    obtain ⟨hchunks, hlive⟩ := hi.headers fun x (hx : (h.setLink (lastAddr l₁) (h.word (a + 8))).mem x ≠ _) =>
      (setLink_touch hx).imp fun y hy => ⟨mem_append_left _ hy.1, hy.2⟩
    refine ⟨ListMem.isList_unlink h₁ h₂ hi.spaced, hchunks, hi.chunks, fun y hy => hi.freeShape y ?_, hlive, fun x => ?_⟩
    · simp only [mem_append, mem_cons] at hy ⊢
      tauto
    · have := hi.covered x
      simp only [map_append, map_cons, spans_append, spans_cons, freeSpan] at this ⊢
      show _ ≤ spans (h.given.map dataSpan) x
      omega
  refine ⟨hinv, hinv.keeps fun x hx => ?_⟩
  obtain ⟨y, hy, hr⟩ := setLink_touch hx
  exact ⟨y, mem_append_left _ hy, hr⟩

theorem Inv.link_lt (hi : Inv h (l₁ ++ l₂) live hand) (h₂ : h.freeList.IsSeg p l₂ 0) : p < 2 ^ 64 := by
  cases l₂ with
  | nil =>
    have h0 : p = 0 := h₂
    omega
  | cons y l₂ =>
    obtain ⟨c, hc, hlo, hhi⟩ := hi.free_bounds (y := y) (by simp)
    have hbound := hi.chunks.bounds c hc
    have hy : p = y.1 := h₂.1
    simp only [USER_END] at hbound
    omega

/-- **A region in hand becomes a free block.** -/
theorem Inv.insert (hi : Inv h l live ((a, a + n + 15) :: hand)) (ha : a % 16 = 0) (hn : n % 16 = 1)
    (hw : h.word a = n) (hs : h.freeListInsert fuel a = some h') :
    ∃ l₁ l₂, l = l₁ ++ l₂ ∧ Inv h' (l₁ ++ (a, n) :: l₂) live hand ∧ Keeps h h' live hand := by
  obtain ⟨p, hwalk, rfl⟩ := Option.map_eq_some_iff.1 hs
  obtain ⟨l₁, l₂, rfl, rfl, h₁, h₂, -, -⟩ := hi.list.walk hwalk
  obtain ⟨c, hc, hlo, hhi⟩ := hi.hand_bounds (by omega)
  have hbound := hi.chunks.bounds c hc
  simp only [USER_END] at hbound
  have hlink := hi.link_lt h₂
  generalize hr : h.freeList.link (lastAddr l₁) = r at h₁ h₂ hlink
  have hr' : h.link (lastAddr l₁) = r := hr
  rw [hr']
  -- the link of the block is written first
  have hi₁ : Inv (h.setWord (a + 8) r) (l₁ ++ l₂) live ((a, a + n + 15) :: hand) := hi.setWord (by omega) (by omega)
  have hheader : ∀ y ∈ l₁ ++ l₂, ∀ x, y.1 ≤ x → x < y.1 + 16 → (h.setWord (a + 8) r).mem x = h.mem x := by
    intro y hy x hylo hyhi
    refine setWord_of_disjoint ?_
    have hfree := hi.header_pos hy hylo hyhi
    have hone := hi.le_one x
    simp only [spans_cons] at hone
    by_contra hno
    have : 0 < hits a (a + n + 15) x := hits_pos.2 ⟨by omega, by omega⟩
    omega
  have hshape : ∀ y ∈ l₁ ++ (a, n) :: l₂, y.1 % 16 = 0 ∧ y.2 % 16 = 1 := fun y hy => by
    rcases mem_append.1 hy with hy | hy
    · exact hi.freeShape y (mem_append_left _ hy)
    · rcases mem_cons.1 hy with rfl | hy
      · exact ⟨ha, hn⟩
      · exact hi.freeShape y (mem_append_right _ hy)
  have hspaced : Spaced (l₁ ++ (a, n) :: l₂) := spaced_of_spans (fun y hy => (hshape y hy).2) fun x => by
    have := hi.le_one x
    simp only [map_append, map_cons, spans_append, spans_cons, freeSpan] at this ⊢
    omega
  have hlist := ListMem.isList_link (m := (h.setWord (a + 8) r).freeList) (n := n) (r := r)
    (ListMem.IsSeg.congr (m := h.freeList) h₁ fun y hy => hheader y (mem_append_left _ hy))
    (ListMem.IsSeg.congr (m := h.freeList) h₂ fun y hy => hheader y (mem_append_right _ hy)) (a := a)
    (by omega) (by omega) ((wordAt_setWord_of_ne (.inl le_rfl)).trans hw) (wordAt_setWord_self hlink) hspaced
  obtain ⟨hchunks, hlive⟩ := hi₁.headers fun x (hx : ((h.setWord (a + 8) r).setLink (lastAddr l₁) a).mem x ≠ _) =>
    (setLink_touch hx).imp fun y hy => ⟨mem_append_left _ hy.1, hy.2⟩
  have hinv : Inv ((h.setWord (a + 8) r).setLink (lastAddr l₁) a) (l₁ ++ (a, n) :: l₂) live hand := by
    refine ⟨hlist, hchunks, hi.chunks, hshape, hlive, fun x => ?_⟩
    have := hi.covered x
    simp only [map_append, map_cons, spans_append, spans_cons, freeSpan] at this ⊢
    show _ ≤ spans (h.given.map dataSpan) x
    omega
  refine ⟨l₁, l₂, rfl, hinv, hinv.keeps fun x hx => ?_⟩
  by_cases hlast : ((h.setWord (a + 8) r).setLink (lastAddr l₁) a).mem x = (h.setWord (a + 8) r).mem x
  · refine ⟨(a, n), by simp, ?_⟩
    rw [hlast] at hx
    by_contra hno
    simp only at hno
    exact hx (setWord_of_disjoint (by omega))
  · obtain ⟨y, hy, hr⟩ := setLink_touch hlast
    exact ⟨y, mem_append_left _ hy, hr⟩

/-- **Two adjacent free blocks become one.** -/
theorem Inv.merge {k : ℕ} (hi : Inv h (l₁ ++ (a, n) :: (b, k) :: l₂) live hand) (hb : b = a + n + 15)
    (h₁ : h.freeList.IsSeg h.gFreeList l₁ a) (h₂ : h.freeList.IsSeg a ((a, n) :: (b, k) :: l₂) 0) :
    Inv ((h.setWord a (n + k + 15)).setWord (a + 8) (h.word (b + 8))) (l₁ ++ (a, n + k + 15) :: l₂) live hand ∧
      Keeps h ((h.setWord a (n + k + 15)).setWord (a + 8) (h.word (b + 8))) live hand := by
  obtain ⟨-, ha0, -, hcur, hb0, -, hrest⟩ := h₂
  obtain ⟨c, hc, hlo, hhi⟩ := hi.free_bounds (y := (b, k)) (by simp)
  have hbound := hi.chunks.bounds c hc
  simp only [USER_END] at hbound hlo hhi
  obtain ⟨h', hh⟩ : ∃ h', (h.setWord a (n + k + 15)).setWord (a + 8) (h.word (b + 8)) = h' := ⟨_, rfl⟩
  have htouch : ∀ x, h'.mem x ≠ h.mem x → a ≤ x ∧ x < a + 16 := by
    intro x hx
    by_contra hno
    rw [← hh] at hx
    exact hx ((setWord_of_disjoint (by omega)).trans (setWord_of_disjoint (by omega)))
  have hword : h'.word a = n + k + 15 := by
    rw [← hh]
    exact (wordAt_setWord_of_ne (.inl le_rfl)).trans (wordAt_setWord_self (by omega))
  have hnext : h'.word (a + 8) = h.word (b + 8) := by
    rw [← hh]
    exact wordAt_setWord_self wordAt_lt
  have hhead : h'.gFreeList = h.gFreeList ∧ h'.gChunks = h.gChunks ∧ h'.given = h.given := hh ▸ ⟨rfl, rfl, rfl⟩
  rw [hh]
  have hmem : (a, n) ∈ l₁ ++ (a, n) :: (b, k) :: l₂ := by simp
  obtain ⟨hchunks, hlive⟩ := hi.headers fun x hx => ⟨(a, n), hmem, htouch x hx⟩
  -- the headers of the other blocks are apart
  have hspaced := hi.spaced
  have hother : ∀ y ∈ l₁ ++ l₂, ∀ x, y.1 ≤ x → x < y.1 + 16 → h'.mem x = h.mem x := by
    intro y hy x hylo hyhi
    by_contra hx
    have hx := htouch x hx
    have hap : y.1 + 16 ≤ a ∨ a + 16 ≤ y.1 := by
      rcases mem_append.1 hy with hy | hy
      · exact (pairwise_append.1 hspaced).2.2 y hy (a, n) (by simp)
      · exact ((pairwise_cons.1 (pairwise_append.1 hspaced).2.1).1 y (by simp [hy])).symm
    omega
  have hinv : Inv h' (l₁ ++ (a, n + k + 15) :: l₂) live hand := by
    refine ⟨?_, ?_, ?_, fun y hy => ?_, hlive, fun x => ?_⟩
    · have hseg : h'.freeList.IsSeg a ((a, n + k + 15) :: l₂) 0 := by
        refine ⟨rfl, ha0, hword, ?_⟩
        rw [show wordAt h'.freeList.mem (a + 8) = h.word (b + 8) from hnext]
        exact ListMem.IsSeg.congr (m := h.freeList) hrest fun y hy => hother y (mem_append_right _ hy)
      refine Seg.append (q := a) ?_ hseg
      show Seg _ h'.gFreeList l₁ a
      rw [hhead.1]
      exact ListMem.IsSeg.congr (m := h.freeList) h₁ fun y hy => hother y (mem_append_left _ hy)
    · rw [hhead.2.1, hhead.2.2]
      exact hchunks
    · rw [hhead.2.2]
      exact hi.chunks
    · have h1 := hi.freeShape (a, n) (by simp)
      have h2 := hi.freeShape (b, k) (by simp)
      rcases mem_append.1 hy with hy | hy
      · exact hi.freeShape y (mem_append_left _ hy)
      · rcases mem_cons.1 hy with rfl | hy
        · simp only at h1 h2 ⊢
          omega
        · exact hi.freeShape y (by simp [hy])
    · have := hi.covered x
      rw [hhead.2.2]
      simp only [map_append, map_cons, spans_append, spans_cons, freeSpan] at this ⊢
      rw [hits_split (a := a) (m := b) (b := a + (n + k + 15) + 15) (by omega) (by omega),
        show a + (n + k + 15) + 15 = b + k + 15 by omega]
      rw [show a + n + 15 = b from hb.symm] at this
      omega
  exact ⟨hinv, hinv.keeps fun x hx => ⟨(a, n + k + 15), by simp, htouch x hx⟩⟩

/-- **A new chunk**, whose data is in hand. -/
theorem Inv.chunk {ptr total : ℕ} (hi : Inv h l live hand) (hf : h.Fresh ptr total) (ht : PAGE_SZ ∣ total) :
    Inv { (h.setWord ptr h.gChunks).setWord (ptr + 8) (total - 16) with
        gChunks := ptr
        given := (ptr, total) :: h.given } l live ((ptr + 16, ptr + total) :: hand) ∧
      ∀ x, 0 < spans (h.given.map dataSpan) x →
        ((h.setWord ptr h.gChunks).setWord (ptr + 8) (total - 16)).mem x = h.mem x := by
  obtain ⟨hpage, hpos, htotal, hend, hdisj⟩ := hf
  have hsize : PAGE_SZ ≤ total := Nat.le_of_dvd htotal ht
  simp only [PAGE_SZ, USER_END] at hsize hend
  obtain ⟨h', hh⟩ : ∃ h', (h.setWord ptr h.gChunks).setWord (ptr + 8) (total - 16) = h' := ⟨_, rfl⟩
  have htouch : ∀ x, h'.mem x ≠ h.mem x → ptr ≤ x ∧ x < ptr + 16 := by
    intro x hx
    by_contra hno
    rw [← hh] at hx
    exact hx ((setWord_of_disjoint (by omega)).trans (setWord_of_disjoint (by omega)))
  -- the other chunks are as they were
  have hold : ∀ c ∈ h.given, ∀ x, c.1 ≤ x → x < c.1 + c.2 → h'.mem x = h.mem x := by
    intro c hc x hlo hhi
    by_contra hx
    have := htouch x hx
    have := hdisj c hc
    omega
  have hdata : ∀ x, 0 < spans (h.given.map dataSpan) x → h'.mem x = h.mem x := by
    intro x hx
    obtain ⟨c, hc, hlo, hhi⟩ := Chunks.mem_of_data hx
    exact hold c hc x (by omega) hhi
  have hgchunks : h.gChunks < 2 ^ 64 := by
    have hlist := hi.chunkList
    have hbounds := hi.chunks.bounds
    revert hlist hbounds
    cases h.given with
    | nil =>
      rintro (h0 : h.gChunks = 0) -
      omega
    | cons c given =>
      rintro ⟨h0, -⟩ hbounds
      have := hbounds c (.head _)
      simp only [USER_END] at this
      omega
  have hfirst : h'.word ptr = h.gChunks := by
    rw [← hh]
    exact (wordAt_setWord_of_ne (.inl le_rfl)).trans (wordAt_setWord_self hgchunks)
  have hlen : h'.word (ptr + 8) = total - 16 := by
    rw [← hh]
    exact wordAt_setWord_self (by omega)
  rw [hh]
  refine ⟨⟨?_, ⟨rfl, hlen, ?_⟩, ⟨fun c hc => ?_, fun c hc => ?_, fun x => ?_⟩, hi.freeShape,
    fun y hy => ?_, fun x => ?_⟩, hdata⟩
  · show Seg _ h'.gFreeList l 0
    rw [show h'.gFreeList = h.gFreeList from hh ▸ rfl]
    refine ListMem.IsSeg.congr (m := h.freeList) hi.list fun y hy x hlo hhi => hdata x ?_
    have := hi.covered x
    have := hi.header_pos hy hlo hhi
    omega
  · show ChunkSeg _ (h'.word ptr) _
    rw [hfirst]
    refine hi.chunkList.congr fun c hc x hlo hhi => hold c hc x hlo ?_
    have hpg := hi.chunks.size hc
    simp only [PAGE_SZ] at hpg
    omega
  · rcases mem_cons.1 hc with rfl | hc
    · exact ⟨hpage, ht⟩
    · exact hi.chunks.page c hc
  · rcases mem_cons.1 hc with rfl | hc
    · exact ⟨hpos, htotal, hend⟩
    · exact hi.chunks.bounds c hc
  · simp only [map_cons, spans_cons]
    have hone := hi.chunks.disjoint x
    by_cases hx : 0 < spans (h.given.map chunkSpan) x
    · obtain ⟨r, hr, hlo, hhi⟩ := exists_mem_of_cover _ _ hx
      obtain ⟨c, hc, rfl⟩ := mem_map.1 hr
      have := hdisj c hc
      have : ¬ 0 < hits (chunkSpan (ptr, total)).1 (chunkSpan (ptr, total)).2 x := by
        rw [hits_pos]
        simp only [chunkSpan] at hlo hhi ⊢
        omega
      omega
    · have := hits_le_one (chunkSpan (ptr, total)).1 (chunkSpan (ptr, total)).2 x
      omega
  · obtain ⟨h1, h2, h3⟩ := hi.liveShape y hy
    refine ⟨h1, h2, (wordAt_congr fun x hlo hhi => hdata x ?_).trans h3⟩
    have := hi.covered x
    have := Inv.live_pos hy hlo (by omega)
    omega
  · have := hi.covered x
    simp only [map_cons, spans_cons, dataSpan] at this ⊢
    omega

end

end Arena

end Archis.Libc
