/-
  What the calls of the allocator do to a sound heap.

  Each lemma says which blocks there are afterwards, and that the bytes of the other live blocks are as before
  (`Keeps`):
    * `splitBlock_spec`, `takeFit_spec`, `newChunk_spec`, `carve_spec`: the parts;
    * `malloc_spec`, `free_spec`, `realloc_spec`, `alignedAlloc_spec`: the calls.
-/
import Archis.Libc.MallocInv

namespace Archis.Libc.Arena

open Archis.Lib List
open Option (bind_eq_some_iff map_eq_some_iff)

section
variable {h h' : Arena} {l l₁ l₂ live hand : List (ℕ × ℕ)} {a b n p size old fuel x : ℕ}

/-! ## Arithmetic -/

theorem roundUp_eq {n align : ℕ} (h0 : 0 < align) (h : n + align ≤ 2 ^ 64) :
    roundUp n align = (n + align - 1) / align * align := by
  have hsum : wsub (wadd n align) 1 = n + align - 1 := by
    unfold wsub wadd
    omega
  rw [roundUp, hsum]

theorem roundUp_align {n : ℕ} (h : n + 16 ≤ 2 ^ 64) : n ≤ roundUp n ALIGN ∧ roundUp n ALIGN < n + 16 ∧
    roundUp n ALIGN % 16 = 0 := by
  have heq : roundUp n ALIGN = (n + 16 - 1) / 16 * 16 := roundUp_eq (by decide) h
  rw [heq]
  omega

theorem dvd_roundUp (n align : ℕ) : align ∣ roundUp n align := Nat.dvd_mul_left ..

theorem freeBit_eq (h : size % 16 = 0) : freeBit size = size + 1 := by
  unfold freeBit
  omega

theorem blkData_eq (h : a + 16 < 2 ^ 64) : blkData a = a + 16 := wadd_eq h

theorem dataBlk_eq (h : a + 16 < 2 ^ 64) : dataBlk (a + 16) = a := by
  have heq : dataBlk (a + 16) = a + 16 - 16 := wsub_eq (Nat.le_add_left _ _) h
  rw [heq, Nat.add_sub_cancel]

theorem Inv.hand_lt (hi : Inv h l live ((a, b) :: hand)) (hab : a < b) : 0 < a ∧ b ≤ 2 ^ 47 := by
  obtain ⟨c, hc, hlo, hhi⟩ := hi.hand_bounds hab
  have := hi.chunks.bounds c hc
  simp only [USER_END] at this
  omega

theorem live_head_pos (hlo : a ≤ x) (hhi : x < a + n + 16) : 0 < spans (((a, n) :: live).map liveSpan) x :=
  Inv.live_pos (.head _) hlo hhi

theorem Inv.cut {c : ℕ} (hi : Inv h l live ((a, c) :: hand)) (hab : a ≤ b) (hbc : b ≤ c) :
    Inv h l live ((b, c) :: (a, b) :: hand) :=
  hi.rehand fun x => by
    simp only [spans_cons]
    rw [hits_split (a := a) hab hbc]
    omega

theorem Inv.keeps_setWord {v : ℕ} (hi : Inv h l live ((a, b) :: hand)) (hlo : a ≤ x) (hhi : x + 8 ≤ b) :
    Keeps h (h.setWord x v) live hand := by
  intro y hy
  refine setWord_of_disjoint ?_
  have hone := hi.le_one y
  simp only [spans_cons] at hone
  by_contra hno
  have : 0 < hits a b y := hits_pos.2 ⟨by omega, by omega⟩
  omega

/-! ## Free blocks -/

/-- **The header of a free block is written to a region in hand.** -/
theorem addFree_spec (hi : Inv h l live ((b, b + size + 16) :: hand)) (hb : b % 16 = 0) (hs : size % 16 = 0)
    (hadd : h.addFree fuel b size = some h') :
    ∃ l₁ l₂, Inv h' (l₁ ++ (b, size + 1) :: l₂) live hand ∧ Keeps h h' live hand := by
  obtain ⟨-, hlt⟩ := hi.hand_lt (by omega)
  have hi₁ : Inv (h.setWord b (freeBit size)) l live ((b, b + (size + 1) + 15) :: hand) :=
    hi.setWord (by omega) (by omega)
  have hi₂ : Inv ((h.setWord b (freeBit size)).setWord (b + 8) 0) l live ((b, b + (size + 1) + 15) :: hand) :=
    hi₁.setWord (by omega) (by omega)
  have hw : ((h.setWord b (freeBit size)).setWord (b + 8) 0).word b = size + 1 := by
    rw [← freeBit_eq hs]
    refine (wordAt_setWord_of_ne (.inl le_rfl)).trans (wordAt_setWord_self ?_)
    rw [freeBit_eq hs]
    omega
  obtain ⟨l₁, l₂, -, hinv, hkeeps⟩ := hi₂.insert hb (by omega) hw hadd
  exact ⟨l₁, l₂, hinv, ((hi.keeps_setWord le_rfl (by omega)).trans
    (hi₁.keeps_setWord (by omega) (by omega))).trans hkeeps⟩

theorem Keeps.cons {y : ℕ × ℕ} (hk : Keeps h h' (y :: live) hand) : Keeps h h' live hand :=
  hk.mono fun x => by
    rw [map_cons, spans_cons]
    omega

/-- **A block in hand is split.** -/
theorem splitBlock_spec (hi : Inv h l live ((a, a + old + 16) :: hand)) (ha : a % 16 = 0) (ho : old % 16 = 0)
    (hs : size % 16 = 0) (hle : size ≤ old) (hold : h.blkSize a = old) (hsplit : h.splitBlock fuel a size = some h') :
    ∃ l' k, Inv h' l' live ((a, a + k + 16) :: hand) ∧ Keeps h h' live hand ∧ size ≤ k ∧ k % 16 = 0 ∧
      h'.blkSize a = k ∧ (h.word a = old → h'.word a = k) ∧
      ∀ x, a + 8 ≤ x → x < a + size + 16 → h'.mem x = h.mem x := by
  obtain ⟨-, hlt⟩ := hi.hand_lt (by omega)
  unfold splitBlock at hsplit
  simp only [hold] at hsplit
  rw [wsub_eq hle (by omega)] at hsplit
  split_ifs at hsplit with hmin
  · obtain rfl := Option.some.inj hsplit
    exact ⟨l, old, hi, fun _ _ => rfl, hle, ho, hold, id, fun _ _ _ => rfl⟩
  obtain ⟨h₁, hadd, rfl⟩ := map_eq_some_iff.1 hsplit
  simp only [MIN_SPLIT] at hmin
  rw [blkData_eq (by omega), wadd_eq (by omega), wsub_eq (by simp only [BLK_HDR_SZ]; omega) (by omega)] at hadd
  simp only [BLK_HDR_SZ] at hadd
  have hi₁ := hi.cut (b := a + 16 + size) (by omega) (by omega)
  rw [show a + old + 16 = a + 16 + size + (old - size - 16) + 16 by omega] at hi₁
  obtain ⟨l₁, l₂, hinv, hkeeps⟩ := addFree_spec hi₁ (by omega) (by omega) hadd
  rw [show a + 16 + size = a + size + 16 by omega] at hinv hkeeps
  have hw : (h₁.setWord a size).word a = size := wordAt_setWord_self (by omega)
  refine ⟨_, size, hinv.setWord (by omega) (by omega), hkeeps.tail.trans (hinv.keeps_setWord (by omega) (by omega)),
    le_rfl, hs, by rw [blkSize, hw]; omega, fun _ => hw, fun x hlo hhi => ?_⟩
  refine (setWord_of_disjoint (by omega)).trans (hkeeps x ?_)
  have : 0 < hits a (a + size + 16) x := hits_pos.2 ⟨by omega, hhi⟩
  simp only [spans_cons]
  omega

theorem Inv.walked {stop : ℕ → Bool} (hi : Inv h l live hand) (hw : h.freeList.walk stop fuel 0 = some p)
    (hb : h.link p ≠ 0) : ∃ l₁ n l₂, l = l₁ ++ (h.link p, n) :: l₂ ∧ p = lastAddr l₁ ∧ stop (h.link p) = true ∧
      h.freeList.IsSeg h.gFreeList l₁ (h.link p) ∧ h.freeList.IsSeg (h.link p) ((h.link p, n) :: l₂) 0 ∧
      h.word (h.link p) = n := by
  obtain ⟨l₁, l₂, rfl, rfl, h₁, h₂, hstop, -⟩ := hi.list.walk hw
  cases l₂ with
  | nil => exact absurd h₂ hb
  | cons y l₂ =>
    obtain ⟨b, n⟩ := y
    have hcur : h.link (lastAddr l₁) = b := h₂.1
    rw [hcur] at hb ⊢
    exact ⟨l₁, n, l₂, rfl, rfl, hstop _ rfl, hcur ▸ h₁, hcur ▸ h₂, h₂.2.2.1⟩

theorem Inv.found (hi : Inv h l live hand) (hb : (b, n) ∈ l)
    (hw : h.freeList.walk (fun cur => cur = b) fuel 0 = some p) : h.link p = b := by
  obtain ⟨l₁, l₂, rfl, rfl, -, h₂, hstop, hbefore⟩ := hi.list.walk hw
  cases l₂ with
  | nil =>
    rw [append_nil] at hb
    exact absurd (hbefore _ hb) (by simp)
  | cons y l₂ => exact h₂.1.trans (of_decide_eq_true (hstop y rfl))

theorem Keeps.word (hk : Keeps h h' live ((a, b) :: hand)) (hab : a + 8 ≤ b) : h'.word a = h.word a := by
  refine wordAt_congr fun x hlo hhi => hk x ?_
  have : 0 < hits a b x := hits_pos.2 ⟨hlo, by omega⟩
  simp only [spans_cons]
  omega

/-- **A block is taken out of the free list**, with its size. -/
theorem Inv.unlink {stop : ℕ → Bool} (hi : Inv h l live hand) (hw : h.freeList.walk stop fuel 0 = some p)
    (hb : h.link p ≠ 0) : ∃ l' old, stop (h.link p) = true ∧ h.blkSize (h.link p) = old ∧
      (h.setLink p (h.word (h.link p + 8))).blkSize (h.link p) = old ∧ h.link p % 16 = 0 ∧ old % 16 = 0 ∧
      Inv (h.setLink p (h.word (h.link p + 8))) l' live ((h.link p, h.link p + old + 16) :: hand) ∧
      Keeps h (h.setLink p (h.word (h.link p + 8))) live ((h.link p, h.link p + old + 16) :: hand) := by
  obtain ⟨l₁, n, l₂, rfl, rfl, hstop, h₁, h₂, hn⟩ := hi.walked hw hb
  obtain ⟨hal, hshape⟩ := hi.freeShape (h.link (lastAddr l₁), n) (by simp)
  simp only at hal hshape
  obtain ⟨hinv, hkeeps⟩ := hi.take h₁ h₂
  rw [show h.link (lastAddr l₁) + n + 15 = h.link (lastAddr l₁) + (n - 1) + 16 by omega] at hinv hkeeps
  have hsize : h.word (h.link (lastAddr l₁)) / 2 * 2 = n - 1 := by omega
  exact ⟨l₁ ++ l₂, n - 1, hstop, hsize, by rwa [blkSize, hkeeps.word (by omega)], hal, by omega, hinv, hkeeps⟩

/-- **The first block that is large enough.** -/
theorem takeFit_spec {r : Option ℕ} (hi : Inv h l live []) (hs : size % 16 = 0)
    (ht : h.takeFit fuel size = some (r, h')) : (r = none → h' = h) ∧ ∀ p, r = some p → ∃ l' a k,
    p = a + 16 ∧ size ≤ k ∧ Inv h' l' ((a, k) :: live) [] ∧ Keeps h h' live [] := by
  obtain ⟨q, hw, ht⟩ := bind_eq_some_iff.1 ht
  dsimp only at ht
  split_ifs at ht with hb
  · cases ht
    exact ⟨fun _ => rfl, nofun⟩
  obtain ⟨h₂, hsplit, heq⟩ := map_eq_some_iff.1 ht
  cases heq
  refine ⟨nofun, fun p hp => ?_⟩
  obtain ⟨l₁, old, hfit, hold, hold₁, hal, ho, hi₁, hk₁⟩ := hi.unlink hw hb
  generalize h.link q = b at *
  obtain ⟨-, hlt⟩ := hi₁.hand_lt (by omega)
  have hfit : size ≤ h.blkSize b := of_decide_eq_true hfit
  obtain ⟨l', k, hi₂, hk₂, hle, hk16, hsize, -⟩ := splitBlock_spec hi₁ hal ho hs (hold ▸ hfit) hold₁ hsplit
  obtain ⟨-, hlt₂⟩ := hi₂.hand_lt (by omega)
  rw [hsize]
  rw [blkData_eq (by omega)] at hp
  have hi₃ : Inv (h₂.setWord b k) l' live [(b, b + k + 16)] :=
    hi₂.setWord (by omega) (by omega)
  exact ⟨l', b, k, (Option.some.inj hp).symm, hle, hi₃.alive hal hk16 (wordAt_setWord_self (by omega)),
    hk₁.tail.trans (hk₂.trans (hi₂.keeps_setWord (by omega) (by omega)))⟩

variable {reply : Option ℕ} {e : ℕ}

/-- **A new chunk is a free block.** -/
theorem newChunk_spec {minData : ℕ} {ok : Bool} (hi : Inv h l live [])
    (hc : h.newChunk fuel minData reply = some (ok, h')) : ∃ l', Inv h' l' live [] ∧ Keeps h h' live [] := by
  unfold newChunk at hc
  cases reply with
  | none =>
    cases hc
    exact ⟨l, hi, fun _ _ => rfl⟩
  | some ptr =>
    dsimp only at hc
    split_ifs at hc with hf
    obtain ⟨h₂, hadd, heq⟩ := map_eq_some_iff.1 hc
    cases heq
    have hpage : PAGE_SZ ∣ chunkTotal minData := dvd_roundUp ..
    have hsize : PAGE_SZ ≤ chunkTotal minData := Nat.le_of_dvd hf.2.2.1 hpage
    have hend := hf.2.2.2.1
    have hptr := hf.1
    generalize chunkTotal minData = total at *
    simp only [PAGE_SZ, USER_END, CHUNK_HDR_SZ, BLK_HDR_SZ] at *
    rw [wsub_eq (by omega) (by omega), wsub_eq (by omega) (by omega)] at hadd
    obtain ⟨hi₁, hdata⟩ := hi.chunk hf hpage
    rw [show ptr + total = ptr + 16 + (total - 16 - 16) + 16 by omega] at hi₁
    obtain ⟨l₁, l₂, hi₂, hk₂⟩ := addFree_spec hi₁ (by omega) (by omega) hadd
    refine ⟨_, hi₂, fun x hx => (hk₂ x hx).trans (hdata x ?_)⟩
    have := hi.covered x
    simp only [spans_nil] at this hx
    omega

theorem malloc_spec (hi : Inv h l live []) (hn : n + 16 ≤ 2 ^ 64) (hm : h.malloc fuel n reply = some
    (p, h')) : (p = 0 ∧ ∃ l', Inv h' l' live [] ∧ Keeps h h' live []) ∨ ∃ l' a k, p = a + 16 ∧
    n ≤ k ∧ Inv h' l' ((a, k) :: live) [] ∧ Keeps h h' live [] := by
  unfold malloc at hm
  split_ifs at hm with h0
  · cases hm
    exact .inl ⟨rfl, l, hi, fun _ _ => rfl⟩
  obtain ⟨hle, -, h16⟩ := roundUp_align hn
  generalize roundUp n ALIGN = size at *
  obtain ⟨⟨r, h₁⟩, hfit, hrest⟩ := bind_eq_some_iff.1 hm
  clear hm
  obtain ⟨hnone, hsome⟩ := takeFit_spec hi h16 hfit
  cases r with
  | some q =>
    cases hrest
    obtain ⟨l', a, k, hp, hk, hinv, hkeeps⟩ := hsome p rfl
    exact .inr ⟨l', a, k, hp, hle.trans hk, hinv, hkeeps⟩
  | none =>
    obtain rfl := hnone rfl
    obtain ⟨⟨ok, h₂⟩, hchunk, hlast⟩ := bind_eq_some_iff.1 hrest
    obtain ⟨l₂, hi₂, hk₂⟩ := newChunk_spec hi hchunk
    cases ok with
    | false =>
      cases hlast
      exact .inl ⟨rfl, l₂, hi₂, hk₂⟩
    | true =>
      obtain ⟨⟨r, h₃⟩, hfit₃, heq⟩ := bind_eq_some_iff.1 hlast
      cases heq
      obtain ⟨hnone₃, hsome₃⟩ := takeFit_spec hi₂ h16 hfit₃
      cases r with
      | none =>
        obtain rfl := hnone₃ rfl
        exact .inl ⟨rfl, l₂, hi₂, hk₂⟩
      | some q =>
        obtain ⟨l', a, k, hp, hk, hinv, hkeeps⟩ := hsome₃ q rfl
        exact .inr ⟨l', a, k, hp, hle.trans hk, hinv, hk₂.trans hkeeps⟩

/-! ## Freeing -/

theorem Inv.blkSize_free (hi : Inv h (l₁ ++ (b, n) :: l₂) live hand) : h.blkSize b = n - 1 ∧ n % 16 = 1 ∧
    0 < b ∧ b % 16 = 0 ∧ b + n + 15 ≤ 2 ^ 47 := by
  have hmem : (b, n) ∈ l₁ ++ (b, n) :: l₂ := by simp
  obtain ⟨hb, hn⟩ := hi.freeShape _ hmem
  obtain ⟨c, hc, hlo, hhi⟩ := hi.free_bounds hmem
  have hbound := hi.chunks.bounds c hc
  obtain ⟨-, -, -, hword, -⟩ := ListMem.isSeg_split hi.list
  simp only [USER_END] at *
  refine ⟨?_, hn, by omega, hb, by omega⟩
  rw [blkSize, show h.word b = n from hword]
  omega

theorem Inv.coalesced {k : ℕ} (hi : Inv h (l₁ ++ (a, n) :: (b, k) :: l₂) live hand)
    (hadj : wadd (blkData a) (h.blkSize a) = b) :
    Inv ((h.setWord a (freeBit (wadd (wadd (h.blkSize a) BLK_HDR_SZ) (h.blkSize b)))).setWord (a + 8) (h.word (b + 8)))
        (l₁ ++ (a, n + k + 15) :: l₂) live hand ∧
      Keeps h ((h.setWord a (freeBit (wadd (wadd (h.blkSize a) BLK_HDR_SZ) (h.blkSize b)))).setWord (a + 8)
        (h.word (b + 8))) live hand := by
  obtain ⟨h₁, h₂⟩ := ListMem.isSeg_split hi.list
  obtain ⟨hsa, hna, ha0, -, hlta⟩ := hi.blkSize_free
  have hi₂ : Inv h ((l₁ ++ [(a, n)]) ++ (b, k) :: l₂) live hand := by simpa using hi
  obtain ⟨hsb, hnb, hb0, -, hltb⟩ := hi₂.blkSize_free
  rw [hsa, blkData_eq (by omega), wadd_eq (by omega)] at hadj
  have hsum : freeBit (wadd (wadd (h.blkSize a) BLK_HDR_SZ) (h.blkSize b)) = n + k + 15 := by
    simp only [hsa, hsb, BLK_HDR_SZ, freeBit]
    rw [wadd_eq (a := n - 1) (by omega), wadd_eq (by omega)]
    omega
  rw [hsum]
  exact hi.merge (by omega) h₁ h₂

theorem coalesce_spec (hi : Inv h (l₁ ++ (b, n) :: l₂) live hand) :
    ∃ k l₂', Inv (h.coalesce b) (l₁ ++ (b, k) :: l₂') live hand ∧ Keeps h (h.coalesce b) live hand := by
  unfold coalesce
  dsimp only
  split_ifs with hadj
  · obtain ⟨-, -, -, -, hnext⟩ := ListMem.isSeg_split hi.list
    cases l₂ with
    | nil => exact absurd hnext hadj.1
    | cons y l₂ =>
      obtain ⟨c, k⟩ := y
      have hc : h.word (b + 8) = c := hnext.1
      rw [hc] at hadj ⊢
      exact ⟨_, _, hi.coalesced hadj.2.symm⟩
  · exact ⟨n, l₂, hi, fun _ _ => rfl⟩

theorem coalesceBack_spec (hi : Inv h (l₁ ++ (b, n) :: l₂) live hand)
    (hw : h.freeList.walk (fun cur => cur = b) fuel 0 = some p) :
    ∃ l', Inv (h.coalesceBack p b) l' live hand ∧ Keeps h (h.coalesceBack p b) live hand := by
  have hlink : h.link p = b := hi.found (n := n) (by simp) hw
  have hb0 : 0 < b := hi.blkSize_free.2.2.1
  obtain ⟨k₁, m, k₂, heq, rfl, -⟩ := hi.walked hw (by omega)
  rw [hlink] at heq
  unfold coalesceBack
  split_ifs with hadj
  · rcases eq_nil_or_concat' k₁ with rfl | ⟨k, y, rfl⟩
    · exact absurd rfl hadj.1
    · obtain ⟨a, m'⟩ := y
      rw [lastAddr_concat] at hadj ⊢
      rw [heq, append_assoc, singleton_append] at hi
      exact ⟨_, hi.coalesced hadj.2⟩
  · exact ⟨_, hi, fun _ _ => rfl⟩

theorem free_spec (hi : Inv h l ((a, n) :: live) []) (hf : h.free fuel (a + 16) = some h') :
    ∃ l', Inv h' l' live [] ∧ Keeps h h' live [] := by
  obtain ⟨ha, hn, hword⟩ := hi.liveShape (a, n) (.head _)
  have hi₀ := hi.unlive
  obtain ⟨ha0, hlt⟩ := hi₀.hand_lt (by omega)
  simp only at ha hn hword
  unfold Arena.free at hf
  rw [if_neg (by omega), dataBlk_eq (by omega)] at hf
  obtain ⟨h₁, hadd, hf⟩ := bind_eq_some_iff.1 hf
  obtain ⟨p, hwalk, hf⟩ := bind_eq_some_iff.1 hf
  cases hf
  rw [hword] at hadd
  obtain ⟨k₁, k₂, hi₁, hk₁⟩ := addFree_spec hi₀ ha hn hadd
  obtain ⟨m, k₃, hi₂, hk₂⟩ := coalesce_spec hi₁
  obtain ⟨l', hi₃, hk₃⟩ := coalesceBack_spec hi₂ hwalk
  exact ⟨l', hi₃, hk₁.trans (hk₂.trans hk₃)⟩

/-! ## Changing the size -/

theorem trim_spec (hi : Inv h l live [(a, a + old + 16)]) (ha : a % 16 = 0) (ho : old % 16 = 0) (hs : size % 16 = 0)
    (hle : size ≤ old) (hword : h.word a = old)
    (ht : (if wsub (h.blkSize a) size ≥ MIN_SPLIT then h.splitBlock fuel a size else some h) = some h') :
    ∃ l' k, size ≤ k ∧ Inv h' l' ((a, k) :: live) [] ∧ Keeps h h' live [] ∧
      ∀ x, a + 16 ≤ x → x < a + size + 16 → h'.mem x = h.mem x := by
  split_ifs at ht
  · obtain ⟨l', k, hi', hk, hsk, hk16, -, hw, hdata⟩ :=
      splitBlock_spec hi ha ho hs hle (by rw [blkSize, hword]; omega) ht
    exact ⟨l', k, hsk, hi'.alive ha hk16 (hw hword), hk, fun x hlo hhi => hdata x (by omega) hhi⟩
  · obtain rfl := Option.some.inj ht
    exact ⟨l, old, hle, hi.alive ha ho hword, fun _ _ => rfl, fun _ _ _ => rfl⟩

/-- **A block takes in the free one behind it.** -/
theorem growInPlace_spec (hi : Inv h l ((a, old) :: live) []) (hs : size % 16 = 0) (hnext : (a + old + 16, n) ∈ l)
    (hfit : size ≤ old + 16 + h.blkSize (a + old + 16)) (hlt : old < size) (hg : h.growInPlace fuel a size = some h') :
    ∃ l' k, size ≤ k ∧ Inv h' l' ((a, k) :: live) [] ∧ Keeps h h' live [] ∧
      ∀ x, a + 16 ≤ x → x < a + old + 16 → h'.mem x = h.mem x := by
  obtain ⟨ha, ho, hword⟩ := hi.liveShape (a, old) (.head _)
  simp only at ha ho hword
  obtain ⟨-, hend⟩ := hi.unlive.hand_lt (by omega)
  have hsize : h.blkSize a = old := by rw [blkSize, hword]; omega
  unfold growInPlace at hg
  simp only [hsize, blkData_eq (show a + 16 < 2 ^ 64 by omega), BLK_HDR_SZ] at hg
  rw [wadd_eq (by omega), show a + 16 + old = a + old + 16 by omega] at hg
  obtain ⟨h₁, hrem, htrim⟩ := bind_eq_some_iff.1 hg
  obtain ⟨p, hwalk, rfl⟩ := map_eq_some_iff.1 hrem
  clear hg hrem
  have hlink := hi.found hnext hwalk
  have hne : h.link p ≠ 0 := by omega
  obtain ⟨l₁, m, -, hm, hm₁, -, hm16, hi₁, hk₁⟩ := hi.unlink hwalk hne
  simp only [if_neg hne] at htrim
  rw [hlink] at hm hm₁ hi₁ hk₁
  rw [hm] at hfit
  generalize hh₁ : h.setLink p (h.word (a + old + 16 + 8)) = h₁ at *
  have hi₂ : Inv h₁ l₁ live [(a, a + (old + 16 + m) + 16)] := by
    refine hi₁.unlive.rehand fun x => ?_
    simp only [spans_cons, spans_nil]
    rw [hits_split (a := a) (m := a + old + 16) (by omega) (by omega),
      show a + (old + 16 + m) + 16 = a + old + 16 + m + 16 by omega]
    omega
  obtain ⟨-, hend₂⟩ := hi₂.hand_lt (by omega)
  rw [hm₁, wadd_eq (a := old) (by omega), wadd_eq (by omega)] at htrim
  have hi₃ : Inv (h₁.setWord a (old + 16 + m)) l₁ live [(a, a + (old + 16 + m) + 16)] :=
    hi₂.setWord (by omega) (by omega)
  obtain ⟨l', k, hle, hi', hk, hdata⟩ :=
    trim_spec hi₃ ha (by omega) hs hfit (wordAt_setWord_self (by omega)) htrim
  refine ⟨l', k, hle, hi', hk₁.cons.tail.trans ((hi₂.keeps_setWord le_rfl (by omega)).trans hk), fun x hlo hhi => ?_⟩
  refine (hdata x hlo (by omega)).trans ((setWord_of_disjoint (by omega)).trans (hk₁ x ?_))
  exact Nat.add_pos_left (live_head_pos (by omega) hhi) _

def listed (h : Arena) (fuel b : ℕ) : Bool :=
  (h.freeList.walk (fun cur => cur = b) fuel 0).any fun p => h.link p = b

theorem Inv.mem_of_listed (hi : Inv h l live hand) (hb : b ≠ 0) (hl : h.listed fuel b = true) : ∃ n, (b, n) ∈ l := by
  obtain ⟨p, hw, hlink⟩ := (Option.any_eq_true _ _).1 hl
  have hlink : h.link p = b := of_decide_eq_true hlink
  obtain ⟨l₁, n, l₂, rfl, -⟩ := hi.walked hw (by omega)
  exact ⟨n, by simp [hlink]⟩

/-- If `realloc` is going to take the bytes behind a block for a free block, then there is one. -/
def growOk (h : Arena) (fuel ptr size : ℕ) : Bool :=
  let b := dataBlk ptr
  roundUp size ALIGN ≤ h.blkSize b || (h.findChunk b fuel h.gChunks).all fun chunk =>
    !h.canGrow b chunk (roundUp size ALIGN) || h.listed fuel (wadd (blkData b) (h.blkSize b))

theorem Inv.store_live {d : List UInt8} (hi : Inv h l ((a, n) :: live) []) (hlo : a + 16 ≤ x)
    (hhi : x + d.length ≤ a + n + 16) :
    Inv { h with mem := store h.mem x d } l ((a, n) :: live) [] ∧ Keeps h { h with mem := store h.mem x d } live [] := by
  refine ⟨hi.frame fun y hy => .inr ⟨(a, n), (.head _), ?_⟩, fun y hy => ?_⟩
  · by_contra hno
    simp only at hno
    exact hy (store_of_disjoint (by omega))
  refine store_of_disjoint ?_
  have hone := hi.le_one y
  simp only [map_cons, spans_cons, spans_nil] at hone hy
  by_contra hno
  have : 0 < hits (liveSpan (a, n)).1 (liveSpan (a, n)).2 y := hits_pos.2 (by simp only [liveSpan]; omega)
  omega

theorem move_spec {c k : ℕ} (hi : Inv h l ((c, k) :: (a, old) :: live) []) (hle : old ≤ k)
    (hf : Arena.free { h with mem := store h.mem (c + 16) (load h.mem (a + 16) old) } fuel (a + 16) = some h') :
    ∃ l', Inv h' l' ((c, k) :: live) [] ∧ Keeps h h' live [] ∧ ∀ i < old, h'.mem (c + 16 + i) = h.mem (a + 16 + i) := by
  obtain ⟨hi₁, hk₁⟩ := hi.store_live (d := load h.mem (a + 16) old) le_rfl (by rw [length_load]; omega)
  obtain ⟨l', hi', hk⟩ := free_spec (hi₁.perm (Perm.swap ..)) hf
  refine ⟨l', hi', hk₁.cons.trans hk.cons, fun i hlt => ?_⟩
  have hcopy : load (store h.mem (c + 16) (load h.mem (a + 16) old)) (c + 16) old = load h.mem (a + 16) old := by
    have := load_store_self h.mem (c + 16) (load h.mem (a + 16) old)
    rwa [length_load] at this
  have hbyte := congrArg (·[i]?) hcopy
  simp only [getElem?_load hlt] at hbyte
  refine (hk _ ?_).trans (Option.some.inj hbyte)
  exact Nat.add_pos_left (live_head_pos (by omega) (by omega)) _

/-- **`realloc`** of a live block: freed, refused, or resized with its bytes kept. -/
theorem realloc_spec (hi : Inv h l ((a, old) :: live) []) (hn : n + 16 ≤ 2 ^ 64)
    (hok : h.growOk fuel (a + 16) n = true) (hr : h.realloc fuel (a + 16) n reply = some (p, h')) :
    (p = 0 ∧ n = 0 ∧ ∃ l', Inv h' l' live [] ∧ Keeps h h' live []) ∨
    (p = 0 ∧ n ≠ 0 ∧ ∃ l', Inv h' l' ((a, old) :: live) [] ∧ Keeps h h' ((a, old) :: live) []) ∨
      ∃ l' c k, p = c + 16 ∧ n ≠ 0 ∧ n ≤ k ∧ Inv h' l' ((c, k) :: live) [] ∧ Keeps h h' live [] ∧
        ∀ i < min old n, h'.mem (c + 16 + i) = h.mem (a + 16 + i) := by
  obtain ⟨ha, ho, hword⟩ := hi.liveShape (a, old) (.head _)
  simp only at ha ho hword
  obtain ⟨-, hend⟩ := hi.unlive.hand_lt (by omega)
  have hsize : h.blkSize a = old := by rw [blkSize, hword]; omega
  obtain ⟨hle, hlt, h16⟩ := roundUp_align hn
  have hround : roundUp n ALIGN + 16 ≤ 2 ^ 64 := by omega
  unfold realloc at hr
  unfold growOk at hok
  simp only [dataBlk_eq (show a + 16 < 2 ^ 64 by omega), blkData_eq (show a + 16 < 2 ^ 64 by omega), hsize,
    show a + 16 ≠ 0 by omega, if_false] at hr hok
  generalize roundUp n ALIGN = size at *
  by_cases h0 : n = 0
  · rw [if_pos h0] at hr
    obtain ⟨h₁, hf, heq⟩ := map_eq_some_iff.1 hr
    cases heq
    exact .inl ⟨rfl, h0, free_spec hi hf⟩
  rw [if_neg h0] at hr
  split_ifs at hr with hshrink hmin
  · -- the header gets the new size, so there is nothing to split
    obtain ⟨h₁, hsplit, heq⟩ := map_eq_some_iff.1 hr
    cases heq
    have hi₁ : Inv (h.setWord a size) l live [(a, a + old + 16)] :=
      hi.unlive.setWord (by omega) (by omega)
    have hw₁ : (h.setWord a size).word a = size := wordAt_setWord_self (by omega)
    have hi₂ : Inv (h.setWord a size) l live [(a, a + size + 16)] := hi₁.rehand fun x => by
      simp only [spans_cons, spans_nil, hits]
      split_ifs <;> omega
    obtain ⟨l', k, hi', hk, hsk, hk16, -, hw, hdata⟩ :=
      splitBlock_spec hi₂ ha h16 h16 le_rfl (by rw [blkSize, hw₁]; omega) hsplit
    exact .inr (.inr ⟨l', a, k, rfl, h0, hle.trans hsk, hi'.alive ha hk16 (hw hw₁),
      (hi.unlive.keeps_setWord (by omega) (by omega)).trans hk,
      fun i hlt => (hdata _ (by omega) (by omega)).trans (setWord_of_disjoint (by omega))⟩)
  · cases hr
    exact .inr (.inr ⟨l, a, old, rfl, h0, hle.trans hshrink, hi, fun _ _ => rfl, fun _ _ => rfl⟩)
  · obtain ⟨chunk, hchunk, hr⟩ := bind_eq_some_iff.1 hr
    rw [hchunk] at hok
    simp only [hshrink, decide_false, Bool.false_or, Option.all_some, Bool.or_eq_true, Bool.not_eq_true'] at hok
    split_ifs at hr with hgrow
    · obtain ⟨h₁, hg, heq⟩ := map_eq_some_iff.1 hr
      cases heq
      rw [wadd_eq (by omega), show a + 16 + old = a + old + 16 by omega] at hok
      obtain ⟨m, hnext⟩ := hi.mem_of_listed (by omega) (hok.resolve_left (by simp [hgrow]))
      have hfit : size ≤ old + 16 + h.blkSize (a + old + 16) := by
        have hsum := of_decide_eq_true ((Bool.and_eq_true _ _).mp hgrow).2
        obtain ⟨k₁, k₂, rfl⟩ := append_of_mem hnext
        obtain ⟨hm, -, -, -, hm₂⟩ := hi.blkSize_free
        simp only [hsize, blkData_eq (show a + 16 < 2 ^ 64 by omega), BLK_HDR_SZ] at hsum
        rwa [wadd_eq (a := a + 16) (by omega), wadd_eq (a := old) (by omega), show a + 16 + old = a + old + 16 by omega,
          wadd_eq (by omega)] at hsum
      obtain ⟨l', k, hsk, hi', hk, hdata⟩ := growInPlace_spec hi h16 hnext hfit (by omega) hg
      exact .inr (.inr ⟨l', a, k, rfl, h0, hle.trans hsk, hi', hk, fun i hlt => hdata _ (by omega) (by omega)⟩)
    · obtain ⟨⟨q, h₁⟩, hm, hr⟩ := bind_eq_some_iff.1 hr
      rcases malloc_spec hi hround hm with ⟨rfl, hsame⟩ | ⟨l₁, c, k, rfl, hsk, hi₁, hk₁⟩
      · cases hr
        exact .inr (.inl ⟨rfl, h0, hsame⟩)
      dsimp only at hr
      rw [if_neg (by omega)] at hr
      obtain ⟨h₂, hf, heq⟩ := map_eq_some_iff.1 hr
      cases heq
      obtain ⟨l', hi', hk', hcopy⟩ := move_spec hi₁ (by omega) hf
      exact .inr (.inr ⟨l', c, k, rfl, h0, hle.trans hsk, hi', hk₁.cons.trans hk', fun i hlt =>
        (hcopy i (by omega)).trans (hk₁ _ (Nat.add_pos_left (live_head_pos (by omega) (by omega)) _))⟩)

/-! ## Aligned blocks -/

theorem alignedData_spec (hb : b ≤ 2 ^ 47) (he : e ≤ 63) (h4 : 4 < e) :
    2 ^ e ∣ alignedData (2 ^ e) b ∧ b + 32 ≤ alignedData (2 ^ e) b ∧ alignedData (2 ^ e) b ≤ 2 ^ 63 ∧
      alignedData (2 ^ e) b % 16 = 0 := by
  have hpos : 0 < 2 ^ e := Nat.two_pow_pos e
  have hle : 2 ^ e ≤ 2 ^ 63 := Nat.pow_le_pow_right (by omega) he
  have h16 : 16 ∣ 2 ^ e := Nat.pow_dvd_pow 2 (m := 4) (by omega)
  have hdata : alignedData (2 ^ e) b = (b + 32 + 2 ^ e - 1) / 2 ^ e * 2 ^ e := by
    unfold alignedData
    rw [blkData_eq (by omega), wadd_eq (by simp only [BLK_HDR_SZ]; omega), BLK_HDR_SZ]
    exact roundUp_eq hpos (by omega)
  have hdvd : 2 ^ e ∣ alignedData (2 ^ e) b := ⟨_, hdata.trans (Nat.mul_comm _ _)⟩
  refine ⟨hdvd, ?_, ?_, Nat.mod_eq_zero_of_dvd (h16.trans hdvd)⟩
  · have := Nat.lt_div_mul_add (a := b + 32 + 2 ^ e - 1) hpos
    omega
  -- the multiple of the alignment below `2 ^ 63 + 2 ^ e`
  obtain ⟨m, hm⟩ : 2 ^ e ∣ 2 ^ 63 := Nat.pow_dvd_pow 2 he
  rw [hdata, hm, Nat.mul_comm (2 ^ e) m]
  refine Nat.mul_le_mul_right _ (Nat.lt_succ_iff.1 ((Nat.div_lt_iff_lt_mul hpos).2 ?_))
  rw [Nat.succ_mul, Nat.mul_comm m, ← hm]
  omega

theorem carveLead_spec (hi : Inv h l live ((b, b + 16 + x) :: hand)) (hb : b % 16 = 0) (hx : x % 16 = 0)
    (hc : h.carveLead fuel b x = some h') : ∃ l', Inv h' l' live hand ∧ Keeps h h' live hand := by
  obtain ⟨-, hend⟩ := hi.hand_lt (by omega)
  unfold carveLead at hc
  split_ifs at hc with hmin
  · simp only [MIN_SPLIT, BLK_HDR_SZ] at hmin hc
    rw [wsub_eq (by omega) (by omega)] at hc
    -- 16 bytes in front of the aligned block are lost
    have hi₁ : Inv h l live ((b, b + (x - 16) + 16) :: hand) := hi.rehand fun y => by
      simp only [spans_cons, hits]
      split_ifs <;> omega
    obtain ⟨l₁, l₂, hi', hk⟩ := addFree_spec hi₁ hb (by omega) hc
    exact ⟨_, hi', hk⟩
  · obtain rfl := Option.some.inj hc
    exact ⟨l, hi.rehand fun y => by simp only [spans_cons]; omega, fun _ _ => rfl⟩

theorem carveTrail_spec (hi : Inv h l live [(a, a + old + 16)]) (ha : a % 16 = 0) (ho : old % 16 = 0)
    (hs : size % 16 = 0) (hle : size ≤ old) (hc : h.carveTrail fuel (a + 16) (a + 16 + old) size = some h') :
    ∃ l' k, size ≤ k ∧ Inv h' l' ((a, k) :: live) [] ∧ Keeps h h' live [] := by
  obtain ⟨-, hend⟩ := hi.hand_lt (by omega)
  unfold carveTrail at hc
  simp only [BLK_HDR_SZ, MIN_SPLIT, wsub_eq (show 16 ≤ a + 16 by omega) (by omega), Nat.add_sub_cancel] at hc
  rw [wsub_eq (a := a + 16 + old) (by omega) (by omega), Nat.add_sub_cancel_left, wsub_eq (a := old) hle (by omega)] at hc
  split_ifs at hc with hmin
  · obtain ⟨h₁, hadd, rfl⟩ := map_eq_some_iff.1 hc
    rw [wadd_eq (by omega), wsub_eq (by omega) (by omega)] at hadd
    have hi₁ := (hi.setWord (v := size) le_rfl (by omega)).cut (b := a + 16 + size) (by omega) (by omega)
    rw [show a + old + 16 = a + 16 + size + (old - size - 16) + 16 by omega] at hi₁
    obtain ⟨l₁, l₂, hi₂, hk₂⟩ := addFree_spec hi₁ (by omega) (by omega) hadd
    rw [show a + 16 + size = a + size + 16 by omega] at hi₂ hk₂
    have hi₃ := hi₂.setWord (x := a + 8) (v := 0) (by omega) (by omega)
    have hw : (h₁.setWord (a + 8) 0).word a = size :=
      (wordAt_setWord_of_ne (by omega)).trans ((hk₂.word (by omega)).trans (wordAt_setWord_self (by omega)))
    exact ⟨_, size, le_rfl, hi₃.alive ha hs hw, ((hi.keeps_setWord le_rfl (by omega)).trans hk₂.tail).trans
      (hi₂.keeps_setWord (by omega) (by omega))⟩
  · obtain rfl := Option.some.inj hc
    have hi₁ := hi.setWord (v := old) le_rfl (by omega)
    have hi₂ := hi₁.setWord (x := a + 8) (v := 0) (by omega) (by omega)
    have hw : ((h.setWord a old).setWord (a + 8) 0).word a = old :=
      (wordAt_setWord_of_ne (by omega)).trans (wordAt_setWord_self (by omega))
    exact ⟨l, old, hle, hi₂.alive ha ho hw, (hi.keeps_setWord le_rfl (by omega)).trans
      (hi₁.keeps_setWord (by omega) (by omega))⟩

/-- **An aligned block is cut out of a region in hand.** -/
theorem carve_spec (hi : Inv h l live [(b, b + old + 16)]) (hb : b % 16 = 0) (ho : old % 16 = 0)
    (hs : size % 16 = 0) (hold : h.blkSize b = old) (he : e ≤ 63) (h4 : 4 < e)
    (hfit : alignedData (2 ^ e) b + size ≤ b + old + 16) (hc : h.carve fuel (2 ^ e) b size = some h') :
    ∃ l' a k, alignedData (2 ^ e) b = a + 16 ∧ size ≤ k ∧ Inv h' l' ((a, k) :: live) [] ∧ Keeps h h' live [] := by
  obtain ⟨-, hend⟩ := hi.hand_lt (by omega)
  obtain ⟨-, hlo, -, h16⟩ := alignedData_spec (b := b) (by omega) he h4
  obtain ⟨h₁, hlead, htrail⟩ := bind_eq_some_iff.1 hc
  simp only [blkEnd, hold, blkData_eq (show b + 16 < 2 ^ 64 by omega), BLK_HDR_SZ] at hlead htrail
  generalize alignedData (2 ^ e) b = aligned at *
  obtain ⟨a, rfl⟩ : ∃ a, aligned = a + 16 := ⟨aligned - 16, by omega⟩
  rw [wsub_eq (a := a + 16) (by omega) (by omega), Nat.add_sub_cancel, wsub_eq (by omega) (by omega)] at hlead
  rw [wadd_eq (by omega), show b + 16 + old = a + 16 + (b + old - a) by omega] at htrail
  have hi₁ : Inv h l live [(b, b + 16 + (a - (b + 16))), (a, a + (b + old - a) + 16)] := by
    refine (hi.cut (b := a) (by omega) (by omega)).rehand fun x => ?_
    simp only [spans_cons, spans_nil]
    rw [show b + 16 + (a - (b + 16)) = a by omega, show a + (b + old - a) + 16 = b + old + 16 by omega]
    omega
  obtain ⟨l₁, hi₂, hk₂⟩ := carveLead_spec hi₁ hb (by omega) hlead
  obtain ⟨l', k, hle, hi₃, hk₃⟩ := carveTrail_spec hi₂ (by omega) (by omega) hs (by omega) htrail
  exact ⟨l', a, k, rfl, hle, hi₃, hk₂.tail.trans hk₃⟩

/-- **The first block with room for an aligned one.** -/
theorem takeAligned_spec {r : Option ℕ} (hi : Inv h l live []) (hs : size % 16 = 0) (hmax : size + 16 ≤ 2 ^ 63)
    (he : e ≤ 63) (h4 : 4 < e) (ht : h.takeAligned fuel (2 ^ e) size = some (r, h')) :
    (r = none → h' = h) ∧ ∀ p, r = some p →
      ∃ l' a k, p = a + 16 ∧ 2 ^ e ∣ p ∧ size ≤ k ∧ Inv h' l' ((a, k) :: live) [] ∧ Keeps h h' live [] := by
  obtain ⟨q, hw, ht⟩ := bind_eq_some_iff.1 ht
  dsimp only at ht
  split_ifs at ht with hb
  · cases ht
    exact ⟨fun _ => rfl, nofun⟩
  obtain ⟨h₂, hcarve, heq⟩ := map_eq_some_iff.1 ht
  cases heq
  refine ⟨nofun, fun p hp => ?_⟩
  obtain ⟨l₁, old, hfit, hold, hold₁, hal, ho, hi₁, hk₁⟩ := hi.unlink hw hb
  generalize h.link q = b at *
  obtain ⟨-, hlt⟩ := hi₁.hand_lt (by omega)
  obtain ⟨hdvd, -, hmax₂, -⟩ := alignedData_spec (b := b) (by omega) he h4
  have hfit : wadd (alignedData (2 ^ e) b) size ≤ h.blkEnd b := of_decide_eq_true hfit
  rw [blkEnd, hold, blkData_eq (by omega), wadd_eq (by omega), wadd_eq (by omega)] at hfit
  obtain ⟨l', a, k, ha, hle, hi₂, hk₂⟩ := carve_spec hi₁ hal ho hs hold₁ he h4 (by omega) hcarve
  obtain rfl := Option.some.inj hp
  exact ⟨l', a, k, ha, hdvd, hle, hi₂, hk₁.tail.trans hk₂⟩

theorem alignedLoop_spec (he : e ≤ 63) (h4 : 4 < e) : ∀ {replies : List (Option ℕ)} {n : ℕ} {h : Arena}
    {l : List (ℕ × ℕ)}, Inv h l live [] → n + 16 ≤ 2 ^ 63 → alignedLoop fuel (2 ^ e) replies n h = some (p, h') →
    (p = 0 ∧ ∃ l', Inv h' l' live [] ∧ Keeps h h' live []) ∨
      ∃ l' a k, p = a + 16 ∧ 2 ^ e ∣ p ∧ n ≤ k ∧ Inv h' l' ((a, k) :: live) [] ∧ Keeps h h' live []
  | replies, n, h, l, hi, hn, hr => by
    unfold alignedLoop at hr
    obtain ⟨hle, hlt, h16⟩ := roundUp_align (n := n) (by omega)
    generalize roundUp n ALIGN = size at *
    obtain ⟨⟨r, h₁⟩, htake, hrest⟩ := bind_eq_some_iff.1 hr
    clear hr
    obtain ⟨hnone, hsome⟩ := takeAligned_spec hi h16 (by omega) he h4 htake
    cases r with
    | some q =>
      cases hrest
      obtain ⟨l', a, k, hp, hdvd, hk, hinv, hkeeps⟩ := hsome p rfl
      exact .inr ⟨l', a, k, hp, hdvd, hle.trans hk, hinv, hkeeps⟩
    | none =>
      obtain rfl := hnone rfl
      cases replies with
      | nil => cases hrest
      | cons reply replies =>
        obtain ⟨⟨ok, h₂⟩, hchunk, hlast⟩ := bind_eq_some_iff.1 hrest
        obtain ⟨l₂, hi₂, hk₂⟩ := newChunk_spec hi hchunk
        cases ok with
        | false =>
          cases hlast
          exact .inl ⟨rfl, l₂, hi₂, hk₂⟩
        | true =>
          rcases alignedLoop_spec he h4 hi₂ (by omega) hlast with ⟨rfl, l', hi', hk'⟩ | ⟨l', a, k, hp, hdvd, hk, hi', hk'⟩
          · exact .inl ⟨rfl, l', hi', hk₂.trans hk'⟩
          · exact .inr ⟨l', a, k, hp, hdvd, hle.trans hk, hi', hk₂.trans hk'⟩

theorem alignedAlloc_spec {replies : List (Option ℕ)} (hi : Inv h l live []) (he : e ≤ 63)
    (hn : n + 16 ≤ 2 ^ 63) (ha : h.alignedAlloc fuel (2 ^ e) n replies = some (p, h')) :
    (p = 0 ∧ ∃ l', Inv h' l' live [] ∧ Keeps h h' live []) ∨
      ∃ l' a k, p = a + 16 ∧ 2 ^ e ∣ p ∧ n ≤ k ∧ Inv h' l' ((a, k) :: live) [] ∧ Keeps h h' live [] := by
  unfold alignedAlloc at ha
  split_ifs at ha with hbad hsmall
  · cases ha
    exact .inl ⟨rfl, l, hi, fun _ _ => rfl⟩
  · have h4 : e ≤ 4 := by
      by_contra hno
      have : 2 ^ 5 ≤ 2 ^ e := Nat.pow_le_pow_right (by omega) (by omega)
      simp only [ALIGN] at hsmall
      omega
    rcases malloc_spec hi (by omega) ha with hnull | ⟨l', a, k, rfl, hk, hi', hk'⟩
    · exact .inl hnull
    have h16 : 16 ∣ a + 16 := by
      have := (hi'.liveShape (a, k) (.head _)).1
      simp only at this
      omega
    exact .inr ⟨l', a, k, rfl, (Nat.pow_dvd_pow 2 h4).trans h16, hk, hi', hk'⟩
  · refine alignedLoop_spec he ?_ hi hn ha
    by_contra hno
    have : 2 ^ e ≤ 2 ^ 4 := Nat.pow_le_pow_right (by omega) (by omega)
    simp only [ALIGN] at hsmall
    omega

end

end Archis.Libc.Arena
