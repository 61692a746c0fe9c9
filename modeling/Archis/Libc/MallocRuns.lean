/-
  Programs that use the allocator.

  `Integrity`: the blocks are apart from each other and from all headers, inside the chunks, aligned, and have the bytes
  that the program expects.  Calls keep it if they are `Fine`: `realloc` takes the 16 bytes behind a block for a header,
  but they may be data that a shrunk block has left, or a header from before `aligned_alloc` has cut the block.
-/
import Archis.Lib.Run
import Archis.Libc.MallocCalls

namespace Archis.Libc

open Archis.Lib Arena
open List hiding Disjoint

/-! ## Calls -/

/-- A block that the program holds. -/
structure Held where
  ptr : ℕ
  size : ℕ
  align : ℕ
  /-- The size in the header. -/
  room : ℕ
  /-- The bytes that the program expects. -/
  data : List UInt8
deriving DecidableEq

def Held.block (b : Held) : ℕ × ℕ := (b.ptr - 16, b.room)

structure Heap where
  arena : Arena
  held : List Held

/-- The calls, with the replies of the kernel; the pointers are `NULL` or blocks that the program holds. -/
inductive Call
  | malloc (size : ℕ) (reply : Option ℕ)
  | calloc (nmemb size : ℕ) (reply : Option ℕ)
  | realloc (i : Option ℕ) (size : ℕ) (reply : Option ℕ)
  /-- The alignment is `2 ^ e`. -/
  | alignedAlloc (e size : ℕ) (replies : List (Option ℕ))
  | free (i : Option ℕ)
  /-- The program writes to a block. -/
  | write (i offset : ℕ) (bytes : List UInt8)

namespace Heap

def give (s : Heap) (h : Arena) (p size align : ℕ) (data : List UInt8) : Heap :=
  if p = 0 then { s with arena := h }
  else ⟨h, ⟨p, size, align, h.blkSize (dataBlk p), data⟩ :: s.held⟩

def step (fuel : ℕ) (s : Heap) : Call → Option Heap
  | .malloc n reply => (s.arena.malloc fuel n reply).map fun r => s.give r.2 r.1 n 16 (load r.2.mem r.1 n)
  | .calloc m n reply =>
    (s.arena.calloc fuel m n reply).map fun r => s.give r.2 r.1 (m * n) 16 (replicate (m * n) 0)
  | .realloc none n reply => (s.arena.realloc fuel 0 n reply).map fun r => s.give r.2 r.1 n 16 (load r.2.mem r.1 n)
  | .realloc (some i) n reply =>
    s.held[i]?.bind fun b => (s.arena.realloc fuel b.ptr n reply).map fun r =>
      if r.1 = 0 ∧ n ≠ 0 then { s with arena := r.2 }
      else give ⟨r.2, s.held.eraseIdx i⟩ r.2 r.1 n 16 (b.data.take n ++ load r.2.mem (r.1 + b.size) (n - b.size))
  | .alignedAlloc e n replies =>
    (s.arena.alignedAlloc fuel (2 ^ e) n replies).map fun r => s.give r.2 r.1 n (2 ^ e) (load r.2.mem r.1 n)
  | .free none => (s.arena.free fuel 0).map fun h => { s with arena := h }
  | .free (some i) => s.held[i]?.bind fun b => (s.arena.free fuel b.ptr).map fun h => ⟨h, s.held.eraseIdx i⟩
  | .write i off d =>
    s.held[i]?.bind fun b =>
      if off + d.length ≤ b.size then
        some ⟨{ s.arena with mem := store s.arena.mem (b.ptr + off) d }, s.held.set i { b with data := splice b.data off d }⟩
      else none

end Heap

/-- The sizes and alignments that a program may ask for. -/
def Call.Asks : Call → Prop
  | .malloc n _ => n < 2 ^ 40
  | .calloc m n _ => m < 2 ^ 40 ∧ n < 2 ^ 40
  | .realloc _ n _ => n < 2 ^ 40
  | .alignedAlloc e n _ => e < 64 ∧ n < 2 ^ 40
  | .free _ => True
  | .write _ _ _ => True

instance : DecidablePred Call.Asks
  | .malloc n _ => inferInstanceAs (Decidable (n < 2 ^ 40))
  | .calloc m n _ => inferInstanceAs (Decidable (m < 2 ^ 40 ∧ n < 2 ^ 40))
  | .realloc _ n _ => inferInstanceAs (Decidable (n < 2 ^ 40))
  | .alignedAlloc e n _ => inferInstanceAs (Decidable (e < 64 ∧ n < 2 ^ 40))
  | .free _ => inferInstanceAs (Decidable True)
  | .write _ _ _ => inferInstanceAs (Decidable True)

/-- `realloc` finds a free block where it looks for one, and the product of `calloc` can be rounded up. -/
def Heap.Fine (fuel : ℕ) (s : Heap) : Call → Prop
  | .calloc m n _ => m * n + 16 ≤ 2 ^ 64 ∨ 2 ^ 64 ≤ m * n
  | .realloc (some i) n _ => ∀ b ∈ s.held[i]?, s.arena.growOk fuel b.ptr n = true
  | _ => True

instance (fuel : ℕ) (s : Heap) : DecidablePred (s.Fine fuel)
  | .malloc _ _ => inferInstanceAs (Decidable True)
  | .calloc m n _ => inferInstanceAs (Decidable (m * n + 16 ≤ 2 ^ 64 ∨ 2 ^ 64 ≤ m * n))
  | .realloc none _ _ => inferInstanceAs (Decidable True)
  | .realloc (some i) n _ => inferInstanceAs (Decidable (∀ b ∈ s.held[i]?, s.arena.growOk fuel b.ptr n = true))
  | .alignedAlloc _ _ _ => inferInstanceAs (Decidable True)
  | .free _ => inferInstanceAs (Decidable True)
  | .write _ _ _ => inferInstanceAs (Decidable True)

/-! ## Integrity -/

def Held.bytes (b : Held) : Set ℕ := Set.Ico b.ptr (b.ptr + b.size)

structure Heap.Integrity (s : Heap) : Prop where
  disjoint : s.held.Pairwise fun b c => Disjoint b.bytes c.bytes
  /-- The free blocks, with their headers. -/
  free : ∃ l, s.arena.freeList.IsList l ∧ ∀ b ∈ s.held, ∀ y ∈ l, Disjoint b.bytes (Set.Ico y.1 (y.1 + y.2 + 15))
  headers : ∀ b ∈ s.held, ∀ c ∈ s.held, Disjoint b.bytes (Set.Ico (c.ptr - 16) c.ptr)
  chunkHeaders : ∀ b ∈ s.held, ∀ c ∈ s.arena.given, Disjoint b.bytes (Set.Ico c.1 (c.1 + 16))
  inside : ∀ b ∈ s.held, ∃ c ∈ s.arena.given, c.1 ≤ b.ptr ∧ b.ptr + b.size ≤ c.1 + c.2
  aligned : ∀ b ∈ s.held, 16 ∣ b.ptr ∧ b.align ∣ b.ptr
  contents : ∀ b ∈ s.held, load s.arena.mem b.ptr b.size = b.data

/-- A block has room for what was asked for, and the expected bytes. -/
structure Held.Fits (mem : ℕ → UInt8) (b : Held) : Prop where
  header : 16 ≤ b.ptr
  room : b.size ≤ b.room
  align : b.align ∣ b.ptr
  data : load mem b.ptr b.size = b.data

/-- What the calls keep. -/
def Good (h : Arena) (held : List Held) : Prop :=
  ∃ l, Inv h l (held.map Held.block) [] ∧ ∀ b ∈ held, b.Fits h.mem

section
variable {s t : Heap} {h h' : Arena} {l live : List (ℕ × ℕ)} {held : List Held} {b : Held} {a k n p fuel i : ℕ}

theorem Held.Fits.keep (hf : b.Fits h.mem) (hk : Keeps h h' live []) (hb : b.block ∈ live) : b.Fits h'.mem := by
  refine ⟨hf.header, hf.room, hf.align, (load_congr fun i hi => ?_).trans hf.data⟩
  have hroom := hf.room
  have hptr := hf.header
  refine hk _ ?_
  have := Inv.live_pos hb (x := b.ptr + i) (by simp only [Held.block]; omega) (by simp only [Held.block]; omega)
  omega

theorem Good.keep (hg : ∀ b ∈ held, b.Fits h.mem) (hi : Inv h' l (held.map Held.block) [])
    (hk : Keeps h h' (held.map Held.block) []) : Good h' held :=
  ⟨l, hi, fun b hb => (hg b hb).keep hk (mem_map_of_mem hb)⟩

theorem Arena.Inv.blkSize_live (hi : Inv h l ((a, k) :: live) []) : h.blkSize (dataBlk (a + 16)) = k := by
  obtain ⟨-, hend⟩ := hi.unlive.hand_lt (by omega)
  obtain ⟨-, hk, hw⟩ := hi.liveShape (a, k) (.head _)
  simp only at hk hw
  rw [dataBlk_eq (by omega), blkSize, hw]
  omega

theorem Good.give {align : ℕ} {data : List UInt8} (hg : ∀ b ∈ s.held, b.Fits h.mem)
    (hi : Inv h' l ((a, k) :: s.held.map Held.block) []) (hk : Keeps h h' (s.held.map Held.block) []) (hn : n ≤ k)
    (ha : align ∣ a + 16) (hd : load h'.mem (a + 16) n = data) :
    Good (s.give h' (a + 16) n align data).arena (s.give h' (a + 16) n align data).held := by
  rw [Heap.give, if_neg (by omega), hi.blkSize_live]
  refine ⟨l, by simpa [Held.block] using hi, fun b hb => ?_⟩
  rcases mem_cons.1 hb with rfl | hb
  · exact ⟨Nat.le_add_left .., hn, ha, hd⟩
  · exact (hg b hb).keep hk (mem_map_of_mem hb)

theorem Good.pick (hg : Good h held) (hb : held[i]? = some b) :
    ∃ l, Inv h l (b.block :: (held.eraseIdx i).map Held.block) [] ∧ b.Fits h.mem ∧
      ∀ c ∈ held.eraseIdx i, c.Fits h.mem := by
  obtain ⟨l, hi, hfits⟩ := hg
  obtain ⟨hlt, rfl⟩ := List.getElem?_eq_some_iff.1 hb
  have hp : held.Perm (held[i] :: held.eraseIdx i) := (getElem_cons_eraseIdx_perm hlt).symm
  exact ⟨l, by simpa using hi.perm (hp.map Held.block), hfits _ (getElem_mem hlt),
    fun c hc => hfits c (mem_of_mem_eraseIdx hc)⟩

theorem Good.perm {held' : List Held} (hg : Good h held) (hp : held.Perm held') : Good h held' := by
  obtain ⟨l, hi, hfits⟩ := hg
  exact ⟨l, hi.perm (hp.map _), fun b hb => hfits b (hp.symm.subset hb)⟩

/-! ## Steps -/

variable {reply : Option ℕ} {r : ℕ × Arena}

section
variable (hg : Good s.arena s.held)
include hg

theorem malloc_good (hn : n + 16 ≤ 2 ^ 64) (hm : s.arena.malloc fuel n reply = some r) :
    Good (s.give r.2 r.1 n 16 (load r.2.mem r.1 n)).arena (s.give r.2 r.1 n 16 (load r.2.mem r.1 n)).held := by
  obtain ⟨l, hi, hfits⟩ := hg
  obtain ⟨p, h'⟩ := r
  rcases malloc_spec hi hn hm with ⟨rfl, l', hi', hk⟩ | ⟨l', a, k, rfl, hnk, hi', hk⟩
  · exact Good.keep hfits hi' hk
  · have ha := (hi'.liveShape (a, k) (.head _)).1
    exact Good.give hfits hi' hk hnk (by simp only at ha; omega) rfl

theorem calloc_good {m : ℕ} (hmn : m * n + 16 ≤ 2 ^ 64 ∨ 2 ^ 64 ≤ m * n) (hm : s.arena.calloc fuel m n reply = some r) :
    Good (s.give r.2 r.1 (m * n) 16 (replicate (m * n) 0)).arena
      (s.give r.2 r.1 (m * n) 16 (replicate (m * n) 0)).held := by
  obtain ⟨l, hi, hfits⟩ := hg
  unfold calloc at hm
  split_ifs at hm with hover
  · cases hm
    exact ⟨l, hi, hfits⟩
  have hlt : m * n < 2 ^ 64 := by
    rcases Nat.eq_zero_or_pos m with rfl | hpos
    · simp
    · have hle : n ≤ (2 ^ 64 - 1) / m := not_lt.1 fun hlt => hover ⟨hpos.ne', hlt⟩
      have := (Nat.le_div_iff_mul_le hpos).1 hle
      rw [Nat.mul_comm] at this
      omega
  simp only [wmul_eq hlt] at hm
  obtain ⟨⟨p, h₁⟩, hmal, hr⟩ := Option.bind_eq_some_iff.1 hm
  cases hr
  rcases malloc_spec hi (by omega) hmal with ⟨rfl, l', hi', hk⟩ | ⟨l', a, k, rfl, hnk, hi', hk⟩
  · exact Good.keep hfits hi' hk
  have ha := (hi'.liveShape (a, k) (.head _)).1
  simp only [show a + 16 ≠ 0 by omega, if_false]
  obtain ⟨hi₂, hk₂⟩ := hi'.store_live (d := replicate (m * n) 0) le_rfl (by rw [length_replicate]; omega)
  refine Good.give hfits hi₂ (hk.trans hk₂) hnk (by simp only at ha; omega) ?_
  have := load_store_self h₁.mem (a + 16) (replicate (m * n) 0)
  rwa [length_replicate] at this

theorem realloc_good (hb : s.held[i]? = some b) (hn : n + 16 ≤ 2 ^ 64) (hok : s.arena.growOk fuel b.ptr n = true)
    (hr : s.arena.realloc fuel b.ptr n reply = some r) (ht : (if r.1 = 0 ∧ n ≠ 0 then { s with arena := r.2 }
      else Heap.give ⟨r.2, s.held.eraseIdx i⟩ r.2 r.1 n 16
        (b.data.take n ++ load r.2.mem (r.1 + b.size) (n - b.size))) = t) : Good t.arena t.held := by
  obtain ⟨l, hi, hfit, hfits⟩ := hg.pick hb
  obtain ⟨p, h'⟩ := r
  have hptr : b.ptr = b.ptr - 16 + 16 := by
    have := hfit.header
    omega
  rw [hptr] at hr hok
  rcases realloc_spec hi hn hok hr with ⟨rfl, rfl, l', hi', hk⟩ | ⟨rfl, hn0, l', hi', hk⟩ |
    ⟨l', c, k, rfl, -, hnk, hi', hk, hcopy⟩
  · subst ht
    simp only [ne_eq, not_true_eq_false, and_false, if_false]
    exact Good.keep hfits hi' hk
  · rw [if_pos ⟨rfl, hn0⟩] at ht
    subst ht
    obtain ⟨hlt, rfl⟩ := List.getElem?_eq_some_iff.1 hb
    have hall : ∀ c ∈ s.held[i] :: s.held.eraseIdx i, c.Fits s.arena.mem := forall_mem_cons.2 ⟨hfit, hfits⟩
    exact (Good.keep hall hi' hk).perm (getElem_cons_eraseIdx_perm hlt)
  · rw [if_neg (by simp)] at ht
    subst ht
    have hc := (hi'.liveShape (c, k) (.head _)).1
    refine Good.give (s := ⟨h', s.held.eraseIdx i⟩) hfits hi' hk hnk (by simp only at hc; omega) ?_
    -- the bytes up to the smaller size are copied or left
    have hkept : b.data.take n = load h'.mem (c + 16) (min n b.size) := by
      rw [← hfit.data, take_load]
      refine map_congr_left fun j hj => ?_
      have hlt := lt_min_iff.1 (mem_range.1 hj)
      have hroom := hfit.room
      rw [hcopy j (lt_min (hlt.2.trans_le hroom) hlt.1), ← hptr]
    rw [hkept]
    rcases le_total n b.size with hle | hle
    · rw [Nat.sub_eq_zero_of_le hle, min_eq_left hle]
      simp [load]
    · rw [min_eq_right hle, load_append_load, Nat.add_sub_cancel' hle]

theorem free_good (hb : s.held[i]? = some b) (hf : s.arena.free fuel b.ptr = some h') :
    Good h' (s.held.eraseIdx i) := by
  obtain ⟨l, hi, hfit, hfits⟩ := hg.pick hb
  have hptr : b.ptr = b.ptr - 16 + 16 := by
    have := hfit.header
    omega
  rw [hptr] at hf
  obtain ⟨l', hi', hk⟩ := free_spec hi hf
  exact Good.keep hfits hi' hk

theorem alignedAlloc_good {e : ℕ} {replies : List (Option ℕ)} (he : e ≤ 63)
    (hn : n + 16 ≤ 2 ^ 63) (ha : s.arena.alignedAlloc fuel (2 ^ e) n replies = some r) :
    Good (s.give r.2 r.1 n (2 ^ e) (load r.2.mem r.1 n)).arena (s.give r.2 r.1 n (2 ^ e) (load r.2.mem r.1 n)).held := by
  obtain ⟨l, hi, hfits⟩ := hg
  obtain ⟨p, h'⟩ := r
  rcases alignedAlloc_spec hi he hn ha with ⟨rfl, l', hi', hk⟩ | ⟨l', a, k, rfl, hdvd, hnk, hi', hk⟩
  · exact Good.keep hfits hi' hk
  · exact Good.give hfits hi' hk hnk hdvd rfl

theorem write_good {off : ℕ} {d : List UInt8} (hb : s.held[i]? = some b)
    (hoff : off + d.length ≤ b.size) : Good { s.arena with mem := store s.arena.mem (b.ptr + off) d }
      (s.held.set i { b with data := splice b.data off d }) := by
  obtain ⟨l, hi, hfit, hfits⟩ := hg.pick hb
  have hptr := hfit.header
  have hroom := hfit.room
  obtain ⟨hi', hk⟩ := Inv.store_live (x := b.ptr + off) (a := b.ptr - 16) (n := b.room) (d := d) hi (by omega) (by omega)
  have hnew : Good { s.arena with mem := store s.arena.mem (b.ptr + off) d }
      ({ b with data := splice b.data off d } :: s.held.eraseIdx i) := by
    refine ⟨l, hi', fun c hc => ?_⟩
    rcases mem_cons.1 hc with rfl | hc
    · refine ⟨hptr, hroom, hfit.align, ?_⟩
      rw [← hfit.data]
      show load (store s.arena.mem (b.ptr + off) d) b.ptr b.size = _
      have hlen : (splice (load s.arena.mem b.ptr b.size) off d).length = b.size := by
        rw [length_splice (by rwa [length_load]), length_load]
      rw [← store_splice_load hoff]
      nth_rewrite 2 [← hlen]
      exact load_store_self ..
    · exact (hfits c hc).keep hk (mem_map_of_mem hc)
  obtain ⟨hlt, -⟩ := List.getElem?_eq_some_iff.1 hb
  refine hnew.perm ?_
  have := getElem_cons_eraseIdx_perm (l := s.held.set i { b with data := splice b.data off d }) (n := i)
    (by rwa [length_set])
  rwa [getElem_set_self, eraseIdx_set_eq] at this

theorem step_good {c : Call} (hasks : c.Asks) (hfine : s.Fine fuel c)
    (hstep : Heap.step fuel s c = some t) : Good t.arena t.held := by
  cases c with
  | malloc n reply =>
    obtain ⟨r, hm, rfl⟩ := Option.map_eq_some_iff.1 hstep
    simp only [Call.Asks] at hasks
    exact malloc_good hg (by omega) hm
  | calloc m n reply =>
    obtain ⟨r, hm, rfl⟩ := Option.map_eq_some_iff.1 hstep
    exact calloc_good hg hfine hm
  | realloc i n reply =>
    simp only [Call.Asks] at hasks
    cases i with
    | none =>
      obtain ⟨r, hm, rfl⟩ := Option.map_eq_some_iff.1 hstep
      rw [realloc, if_pos rfl] at hm
      exact malloc_good hg (by omega) hm
    | some i =>
      obtain ⟨b, hb, hr⟩ := Option.bind_eq_some_iff.1 hstep
      obtain ⟨r, hm, ht⟩ := Option.map_eq_some_iff.1 hr
      exact realloc_good hg hb (by omega) (hfine b hb) hm ht
  | alignedAlloc e n replies =>
    obtain ⟨r, hm, rfl⟩ := Option.map_eq_some_iff.1 hstep
    simp only [Call.Asks] at hasks
    exact alignedAlloc_good hg (by omega) (by omega) hm
  | free i =>
    cases i with
    | none =>
      rw [Heap.step, Arena.free, if_pos rfl] at hstep
      cases hstep
      exact hg
    | some i =>
      obtain ⟨b, hb, hr⟩ := Option.bind_eq_some_iff.1 hstep
      obtain ⟨h', hf, rfl⟩ := Option.map_eq_some_iff.1 hr
      exact free_good hg hb hf
  | write i off d =>
    obtain ⟨b, hb, hr⟩ := Option.bind_eq_some_iff.1 hstep
    dsimp only at hr
    split_ifs at hr with hoff
    cases hr
    exact write_good hg hb hoff

/-! ## Runs -/

theorem Good.integrity : s.Integrity := by
  obtain ⟨l, hi, hfits⟩ := hg
  have hsub : ∀ b ∈ s.held, ∀ x ∈ b.bytes, 0 < hits (liveSpan b.block).1 (liveSpan b.block).2 x := fun b hb x hx => by
    have h1 := (hfits b hb).header
    have h2 := (hfits b hb).room
    obtain ⟨hlo, hhi⟩ := hx
    exact hits_pos.2 ⟨by simp only [liveSpan, Held.block]; omega, by simp only [liveSpan, Held.block]; omega⟩
  have hlive : ∀ b ∈ s.held, ∀ x ∈ b.bytes, 0 < spans ((s.held.map Held.block).map liveSpan) x := fun b hb x hx =>
    (hsub b hb x hx).trans_le (hits_le_spans (r := liveSpan b.block) (mem_map_of_mem (mem_map_of_mem hb)) x)
  refine ⟨?_, ⟨l, hi.list, fun b hb y hy => Set.disjoint_left.2 fun x hx hx' => ?_⟩, fun b hb c hc => Set.disjoint_left.2 fun x hx hx' => ?_,
    fun b hb c hc => Set.disjoint_left.2 fun x hx hx' => ?_, fun b hb => ?_, fun b hb => ?_, fun b hb => (hfits b hb).data⟩
  · have hone : ∀ x, cover (fun b : Held => (liveSpan b.block).1) (fun b => (liveSpan b.block).2) s.held x ≤ 1 := fun x => by
      have := hi.le_one x
      simp only [spans, cover, map_map, Function.comp_def] at this ⊢
      omega
    refine (pairwise_disjoint_of_cover _ _ hone).imp_of_mem fun {b c} hb hc hd => ?_
    exact hd.mono (fun x hx => hits_pos.1 (hsub b hb x hx)) fun x hx => hits_pos.1 (hsub c hc x hx)
  · have := hlive b hb x hx
    have := Inv.free_pos hy hx'.1 hx'.2
    have := hi.le_one x
    omega
  · -- the block of `x` is that of `c`, whose bytes are behind its header
    have hone : ∀ x, spans ((s.held.map Held.block).map liveSpan) x ≤ 1 := fun x => by
      have := hi.le_one x
      omega
    have hblock : b.block = c.block := eq_of_common hone (x := x) (mem_map_of_mem hb) (mem_map_of_mem hc)
      (hits_pos.1 (hsub b hb x hx)) ⟨hx'.1, by have := hx'.2; simp only [liveSpan, Held.block]; omega⟩
    have hptr : b.ptr - 16 = c.ptr - 16 := congrArg Prod.fst hblock
    have h1 := (hfits b hb).header
    have h2 := (hfits c hc).header
    have h3 := hx.1
    have h4 := hx'.2
    omega
  · have := hlive b hb x hx
    have := hi.chunks.header hc hx'.1 hx'.2
    have := hi.covered x
    omega
  · have h1 := (hfits b hb).header
    have h2 := (hfits b hb).room
    obtain ⟨c, hc, hlo, hhi⟩ := hi.live_bounds (mem_map_of_mem hb)
    simp only [Held.block] at hlo hhi
    exact ⟨c, hc, by omega, by omega⟩
  · have h1 := (hfits b hb).header
    have h2 := (hi.liveShape _ (mem_map_of_mem hb)).1
    simp only [Held.block] at h2
    exact ⟨by omega, (hfits b hb).align⟩

end

def Heap.init (mem : ℕ → UInt8) : Heap := ⟨⟨mem, 0, 0, []⟩, []⟩

theorem good_init (mem : ℕ → UInt8) : Good (Heap.init mem).arena (Heap.init mem).held :=
  ⟨[], ⟨rfl, rfl, ⟨nofun, nofun, fun _ => Nat.zero_le _⟩, nofun, nofun, fun _ => Nat.zero_le _⟩, nofun⟩

/-- **Runs keep the integrity of the heap.** -/
theorem exec_integrity (fuel : ℕ) (mem : ℕ → UInt8) (calls : List Call) (t : Heap)
    (hok : Along (Heap.step fuel) (fun s c => c.Asks ∧ s.Fine fuel c) (Heap.init mem) calls)
    (hrun : exec (Heap.step fuel) (Heap.init mem) calls = some t) : t.Integrity :=
  Good.integrity (exec_induction (I := fun s => Good s.arena s.held)
    (fun _ _ _ hg hc hs => step_good hg hc.1 hc.2 hs) (good_init mem) hok hrun)

/-- A block is allocated, grown over the free one behind it, and freed; two more are allocated meanwhile. -/
def tameCalls : List Call :=
  [.malloc 16 (some 4096), .write 0 3 [7, 7], .realloc (some 0) 100 none, .alignedAlloc 6 40 [], .calloc 3 5 none,
    .free (some 2), .free none]

theorem exec_integrity_tame : ∃ t, Along (Heap.step 9) (fun s c => c.Asks ∧ s.Fine 9 c) (Heap.init fun _ => 0) tameCalls ∧
    exec (Heap.step 9) (Heap.init fun _ => 0) tameCalls = some t ∧ t.Integrity ∧
      t.held.map (fun b => (b.ptr, b.size)) = [(4352, 15), (4288, 40)] := by
  have hok : Along (Heap.step 9) (fun s c => c.Asks ∧ s.Fine 9 c) (Heap.init fun _ => 0) tameCalls := by decide +kernel
  have hrun : (exec (Heap.step 9) (Heap.init fun _ => 0) tameCalls).any
      (fun t => t.held.map (fun b => (b.ptr, b.size)) = [(4352, 15), (4288, 40)]) = true := by
    decide +kernel
  obtain ⟨t, ht, hheld⟩ := (Option.any_eq_true _ _).1 hrun
  exact ⟨t, hok, ht, exec_integrity 9 _ _ t hok ht, of_decide_eq_true hheld⟩

def absorbCalls : List Call := [.malloc 16 (some 4096), .alignedAlloc 5 16 [], .realloc (some 1) 100 none]

/-- **`realloc` grows a block over another one**: the header in the 32 bytes that `aligned_alloc` wastes still
says that they are free, with what the aligned block has got. -/
theorem realloc_absorbs : ∃ t, exec (Heap.step 9) (Heap.init fun _ => 0) absorbCalls = some t ∧
    (∀ c ∈ absorbCalls, c.Asks) ∧ ¬ t.Integrity := by
  have hrun : (exec (Heap.step 9) (Heap.init fun _ => 0) absorbCalls).any
      (fun t => t.held.map (fun b => (b.ptr, b.size)) = [(4128, 100), (4192, 16)]) = true := by
    decide +kernel
  obtain ⟨t, ht, hheld⟩ := (Option.any_eq_true _ _).1 hrun
  refine ⟨t, ht, by decide, fun hint => ?_⟩
  have hheld : t.held.map (fun b => (b.ptr, b.size)) = [(4128, 100), (4192, 16)] := of_decide_eq_true hheld
  have hpair : (t.held.map fun b => (b.ptr, b.size)).Pairwise
      fun b c => Disjoint (Set.Ico b.1 (b.1 + b.2)) (Set.Ico c.1 (c.1 + c.2)) := pairwise_map.2 hint.disjoint
  rw [hheld] at hpair
  -- the first byte of the aligned block
  exact Set.disjoint_left.1 ((pairwise_cons.1 hpair).1 (4192, 16) (by simp)) (show 4192 ∈ Set.Ico 4128 4228 by simp)
    (by simp)

end

end Archis.Libc
