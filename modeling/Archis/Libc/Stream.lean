/-
  Reading through a `FILE` (`userspace/libc/stdio.c`).

  A file that nobody modifies is read through a buffer of 256 bytes and a character that was pushed back; `pick` says
  how much each read of the kernel gives.  `exec_view`: the calls return what a reader with a position in the file should
  see, unless `fread` overlooks the character that was pushed back.
-/
import Archis.Lib.Run
import Archis.Lib.Numeral

namespace Archis.Libc.Stdio

open Archis.Lib
open List hiding set

/-! ## Streams -/

structure File where
  bytes : List UInt8
  /-- its size is an `ssize_t` -/
  size_lt : bytes.length < 2 ^ 63

def BUFSIZ : ℕ := 256

/-- An open stream, with the state of its handle in the kernel. -/
structure Io where
  /-- the first `rlen` bytes of the buffer -/
  rbuf : List UInt8
  rpos : ℕ
  ungetcCh : Option UInt8
  /-- the offset of the handle -/
  offset : ℕ
  /-- how often the kernel was asked -/
  reads : ℕ

inductive Whence where
  | set
  | cur
  | fromEnd
  deriving DecidableEq

section
variable (f : File) (pick : ℕ → ℕ) (io : Io)

/-- The kernel gives one byte at least, if there is one. -/
def sysRead (len : ℕ) : List UInt8 × Io :=
  let avail := f.bytes.drop io.offset
  let most := min len avail.length
  let n := if most = 0 then 0 else max 1 (min (pick io.reads) most)
  (avail.take n, { io with offset := io.offset + n, reads := io.reads + 1 })

def refill : Bool × Io :=
  let (b, io) := sysRead f pick io BUFSIZ
  if b = [] then (false, io) else (true, { io with rbuf := b, rpos := 0 })

/-- `stream->rbuf[stream->rpos++]` -/
def takeByte : Option UInt8 × Io := (some (io.rbuf.getD io.rpos 0), { io with rpos := io.rpos + 1 })

/-- none for `EOF` -/
def fgetc : Option UInt8 × Io :=
  match io.ungetcCh with
  | some c => (some c, { io with ungetcCh := none })
  | none =>
    if io.rpos < io.rbuf.length then takeByte io
    else
      match refill f pick io with
      | (false, io) => (none, io)
      | (true, io) => takeByte io

def ungetc (c : UInt8) (io : Io) : Io := { io with ungetcCh := some c }

/-- The loop of `fgets`: the bytes that it puts into the buffer. -/
def fgetsLoop : ℕ → Io → List UInt8 × Io
  | 0, io => ([], io)
  | k + 1, io =>
    match fgetc f pick io with
    | (none, io) => ([], io)
    | (some c, io) =>
      if c = chr '\n' then ([c], io)
      else
        let (l, io) := fgetsLoop k io
        (c :: l, io)

/-- The line without its NUL, or none for `NULL`. -/
def fgets (n : ℤ) (io : Io) : Option (List UInt8) × Io :=
  if n ≤ 0 then (none, io)
  else
    let (l, io) := fgetsLoop f pick (n - 1).toNat io
    if l = [] ∧ 1 < n then (none, io) else (some l, io)

/-- The loop of `fread`, with the number of bytes that are still wanted. -/
def freadLoop : ℕ → ℕ → Io → List UInt8 × Io
  | 0, _, io => ([], io)
  | fuel + 1, left, io =>
    if left = 0 then ([], io)
    else
      let (b, io) := sysRead f pick io left
      if b = [] then ([], io)
      else
        let (t, io) := freadLoop fuel (left - b.length) io
        (b ++ t, io)

/-- `fread(ptr, 1, n, stream)`: the bytes that are stored at `ptr`. -/
def fread (n : ℕ) (io : Io) : List UInt8 × Io :=
  if n = 0 then ([], io)
  else
    let take := if io.rpos < io.rbuf.length then min (io.rbuf.length - io.rpos) n else 0
    let first := (io.rbuf.drop io.rpos).take take
    let (rest, io) := freadLoop f pick n (n - take) { io with rpos := io.rpos + take }
    (first ++ rest, io)

def ftell : ℤ :=
  io.offset - ((io.rbuf.length - io.rpos : ℕ) + if io.ungetcCh.isSome then 1 else 0)

def fseek (offset : BitVec 64) (whence : Whence) (io : Io) : Bool × Io :=
  let target := match whence with
    | .set => offset.toInt
    | .cur => toInt64 (ftell io + offset.toInt)
    | .fromEnd => toInt64 (f.bytes.length + offset.toInt)
  -- `sys_seek` refuses a negative offset, and so does `fseek` if `ftell` has failed
  if target < 0 ∨ (whence = .cur ∧ ftell io < 0) then (false, io)
  else (true, { io with rbuf := [], rpos := 0, ungetcCh := none, offset := target.toNat })

end

/-! ## Calls -/

inductive Call where
  | fgetc
  | ungetc (c : UInt8)
  | fgets (n : ℤ)
  | fread (n : ℕ)
  | fseek (offset : BitVec 64) (whence : Whence)
  | ftell

inductive Reply where
  | char (c : Option UInt8)
  | line (s : Option (List UInt8))
  | bytes (l : List UInt8)
  | seek (ok : Bool)
  | tell (pos : ℤ)

def Call.run (f : File) (pick : ℕ → ℕ) (io : Io) : Call → Reply × Io
  | .fgetc => (.char (Stdio.fgetc f pick io).1, (Stdio.fgetc f pick io).2)
  | .ungetc c => (.char (some c), Stdio.ungetc c io)
  | .fgets n => (.line (Stdio.fgets f pick n io).1, (Stdio.fgets f pick n io).2)
  | .fread n => (.bytes (Stdio.fread f pick n io).1, (Stdio.fread f pick n io).2)
  | .fseek offset whence => (.seek (Stdio.fseek f offset whence io).1, (Stdio.fseek f offset whence io).2)
  | .ftell => (.tell (Stdio.ftell io), io)

/-! ## The view of a reader -/

/-- The bytes up to the end of the line, `k` at most. -/
def lineOf : ℕ → List UInt8 → List UInt8
  | 0, _ => []
  | _ + 1, [] => []
  | k + 1, c :: l => c :: if c = chr '\n' then [] else lineOf k l

/-- The line that `fgets` gives from the bytes that lie ahead. -/
def gets (n : ℤ) (l : List UInt8) : Option (List UInt8) :=
  if n ≤ 0 ∨ (1 < n ∧ l = []) then none else some (lineOf (n - 1).toNat l)

/-- Where `fseek` should go. -/
def seekTarget (f : File) (pos : ℕ) (offset : BitVec 64) : Whence → ℤ
  | .set => offset.toInt
  | .cur => pos + offset.toInt
  | .fromEnd => f.bytes.length + offset.toInt

/-- What a reader at the position `pos` gets, and the position then. -/
def Call.view (f : File) (pos : ℕ) : Call → Reply × ℕ
  | .fgetc => (.char (f.bytes.drop pos).head?, pos + min 1 (f.bytes.drop pos).length)
  | .ungetc c => (.char (some c), pos - 1)
  | .fgets n => (.line (gets n (f.bytes.drop pos)), pos + ((gets n (f.bytes.drop pos)).getD []).length)
  | .fread n => (.bytes ((f.bytes.drop pos).take n), pos + ((f.bytes.drop pos).take n).length)
  | .fseek offset whence =>
    let t := seekTarget f pos offset whence
    if 0 ≤ t ∧ t < 2 ^ 63 then (.seek true, t.toNat) else (.seek false, pos)
  | .ftell => (.tell pos, pos)

/-- A stream with the position of the reader, and the character that the last call has read if it was `fgetc`. -/
structure Session where
  io : Io
  pos : ℕ
  last : Option UInt8

def Session.start : Session := ⟨⟨[], 0, none, 0, 0⟩, 0, none⟩

def Session.step (f : File) (pick : ℕ → ℕ) (s : Session) (c : Call) : Option Session :=
  some ⟨(c.run f pick s.io).2, (c.view f s.pos).2,
    match c, (c.run f pick s.io).1 with
    | .fgetc, .char ch => ch
    | _, _ => none⟩

/-- Only the character that was just read by `fgetc` is pushed back. -/
def Session.Legal (s : Session) : Call → Prop
  | .ungetc c => s.last = some c
  | _ => True

/-- `fread` is not asked for bytes while a character is pushed back. -/
def Session.Clean (s : Session) : Call → Prop
  | .fread n => n = 0 ∨ s.io.ungetcCh = none
  | _ => True

/-! ## What lies ahead -/

/-- What the stream has and has not delivered: the character that was pushed back and the rest of the buffer. -/
def Io.pending (io : Io) : List UInt8 := io.ungetcCh.toList ++ io.rbuf.drop io.rpos

/-- **What lies ahead of a stream** are the bytes from `pos` on: what is pending, and what the kernel has still
to give. -/
structure Ahead (f : File) (io : Io) (pos : ℕ) : Prop where
  rpos_le : io.rpos ≤ io.rbuf.length
  offset_eq : pos + io.pending.length = io.offset
  bytes_eq : io.pending ++ f.bytes.drop io.offset = f.bytes.drop pos
  offset_lt : io.offset < 2 ^ 63

section
variable {f : File} (pick : ℕ → ℕ) {io : Io} {pos n : ℕ} {b : List UInt8}

/-- **Bytes are moved**: the kernel has given `b`, and `x` was delivered. -/
theorem Ahead.move (h : Ahead f io pos) (x : List UInt8) (io' : Io)
    (hb : b ++ f.bytes.drop (io.offset + b.length) = f.bytes.drop io.offset)
    (hlt : io.offset + b.length < 2 ^ 63) (hp : io.pending ++ b = x ++ io'.pending)
    (hoff : io'.offset = io.offset + b.length) (hrpos : io'.rpos ≤ io'.rbuf.length) :
    f.bytes.drop pos = x ++ f.bytes.drop (pos + x.length) ∧ Ahead f io' (pos + x.length) := by
  have hlen := congrArg List.length hp
  rw [length_append, length_append] at hlen
  have hpos := h.offset_eq
  have hbytes : x ++ (io'.pending ++ f.bytes.drop io'.offset) = f.bytes.drop pos := by
    rw [← h.bytes_eq, hoff, ← hb, ← append_assoc, ← append_assoc, hp]
  have hrest : io'.pending ++ f.bytes.drop io'.offset = f.bytes.drop (pos + x.length) := by
    rw [← drop_drop, ← hbytes, drop_left]
  exact ⟨by rw [← hrest, hbytes], hrpos, by omega, hrest, by omega⟩

theorem Ahead.deliver (h : Ahead f io pos) (x : List UInt8) (io' : Io) (hp : io.pending = x ++ io'.pending)
    (hoff : io'.offset = io.offset) (hrpos : io'.rpos ≤ io'.rbuf.length) :
    f.bytes.drop pos = x ++ f.bytes.drop (pos + x.length) ∧ Ahead f io' (pos + x.length) :=
  h.move (b := []) x io' rfl h.offset_lt (by rw [append_nil, hp]) hoff hrpos

theorem sysRead_spec (f : File) (pick : ℕ → ℕ) (io : Io) (len : ℕ) (hoff : io.offset < 2 ^ 63) :
    ∃ b, sysRead f pick io len =
        (b, { io with offset := io.offset + b.length, reads := io.reads + 1 }) ∧
      b.length ≤ len ∧ b ++ f.bytes.drop (io.offset + b.length) = f.bytes.drop io.offset ∧
      (b = [] → len = 0 ∨ f.bytes.drop io.offset = []) ∧ io.offset + b.length < 2 ^ 63 := by
  have hsize := f.size_lt
  have hlen : (f.bytes.drop io.offset).length = f.bytes.length - io.offset := length_drop
  obtain ⟨n, hn⟩ : ∃ n, n = if min len (f.bytes.drop io.offset).length = 0 then 0
      else max 1 (min (pick io.reads) (min len (f.bytes.drop io.offset).length)) := ⟨_, rfl⟩
  have hle : n ≤ min len (f.bytes.drop io.offset).length := by
    rw [hn]
    split_ifs <;> omega
  have htake : ((f.bytes.drop io.offset).take n).length = n := by
    rw [length_take]
    omega
  refine ⟨(f.bytes.drop io.offset).take n, ?_, by omega, ?_, fun hb => ?_, by omega⟩
  · rw [htake, hn]
    rfl
  · rw [htake, ← drop_drop, take_append_drop]
  rw [hb, length_nil] at htake
  rw [← htake] at hn
  rcases Nat.eq_zero_or_pos len with h | h
  · exact .inl h
  · refine .inr (length_eq_zero_iff.1 ?_)
    split_ifs at hn <;> omega

theorem drop_rpos (hpos : io.rpos < io.rbuf.length) :
    io.rbuf.drop io.rpos = io.rbuf.getD io.rpos 0 :: io.rbuf.drop (io.rpos + 1) := by
  rw [drop_eq_getElem_cons hpos, getD_eq_getElem _ _ hpos]

/-- **`fgetc`** delivers the byte that lies ahead. -/
theorem ahead_fgetc (h : Ahead f io pos) : (fgetc f pick io).1 = (f.bytes.drop pos).head? ∧ Ahead f
    (fgetc f pick io).2 (pos + min 1 (f.bytes.drop pos).length) ∧ (fgetc f pick io).2.ungetcCh = none := by
  have hone : ∀ {c : UInt8} {io' : Io}, f.bytes.drop pos = [c] ++ f.bytes.drop (pos + 1) ∧ Ahead f io' (pos + 1) →
      some c = (f.bytes.drop pos).head? ∧ Ahead f io' (pos + min 1 (f.bytes.drop pos).length) := by
    rintro c io' ⟨heq, hahead⟩
    rw [heq]
    exact ⟨rfl, by simpa using hahead⟩
  unfold fgetc
  cases hun : io.ungetcCh with
  | some c =>
    obtain ⟨h1, h2⟩ := hone (h.deliver [c] { io with ungetcCh := none } (by simp [Io.pending, hun]) rfl h.rpos_le)
    exact ⟨h1, h2, rfl⟩
  | none =>
    simp only
    split_ifs with hpos
    · obtain ⟨h1, h2⟩ := hone (h.deliver [io.rbuf.getD io.rpos 0] (takeByte io).2
        (by simpa [Io.pending, takeByte, hun] using drop_rpos hpos) rfl hpos)
      exact ⟨h1, h2, hun⟩
    obtain ⟨b, hread, -, hb, hnil, hlt⟩ := sysRead_spec f pick io BUFSIZ h.offset_lt
    have hempty : io.pending = [] := by
      rw [Io.pending, hun, drop_eq_nil_of_le (Nat.le_of_not_lt hpos)]
      rfl
    simp only [refill, hread]
    by_cases hb0 : b = []
    · have hend : f.bytes.drop pos = [] := by
        rw [← h.bytes_eq, hempty, nil_append]
        exact (hnil hb0).resolve_left (by decide)
      rw [if_pos hb0, hend, hb0]
      exact ⟨rfl, ⟨h.rpos_le, h.offset_eq, h.bytes_eq, h.offset_lt⟩, hun⟩
    · rw [if_neg hb0]
      have hpos' : 0 < b.length := length_pos_of_ne_nil hb0
      obtain ⟨h1, h2⟩ := hone (h.move [b.getD 0 0]
        (takeByte ⟨b, 0, io.ungetcCh, io.offset + b.length, io.reads + 1⟩).2 hb hlt (by
          rw [hempty]
          simpa [Io.pending, takeByte, hun] using @drop_rpos ⟨b, 0, none, 0, 0⟩ hpos') rfl hpos')
      exact ⟨h1, h2, hun⟩

theorem ahead_fgetsLoop (k : ℕ) (h : Ahead f io pos) : (fgetsLoop f pick k io).1 = lineOf k (f.bytes.drop pos) ∧
      Ahead f (fgetsLoop f pick k io).2 (pos + (lineOf k (f.bytes.drop pos)).length) := by
  induction k generalizing io pos with
  | zero => exact ⟨rfl, h⟩
  | succ k ih =>
    obtain ⟨hc, hahead, -⟩ := ahead_fgetc pick h
    unfold fgetsLoop
    cases hdrop : f.bytes.drop pos with
    | nil =>
      rw [hdrop] at hc hahead
      generalize fgetc f pick io = r at hc hahead
      obtain ⟨c, io'⟩ := r
      obtain rfl : c = none := hc
      exact ⟨rfl, hahead⟩
    | cons c l =>
      have hl : f.bytes.drop (pos + 1) = l := by rw [← drop_drop, hdrop]; rfl
      rw [hdrop] at hc hahead
      have hmin : pos + min 1 (c :: l).length = pos + 1 := by simp
      rw [hmin] at hahead
      generalize fgetc f pick io = r at hc hahead
      obtain ⟨c', io'⟩ := r
      obtain rfl : c' = some c := hc
      simp only [lineOf]
      split_ifs with hnl
      · exact ⟨rfl, hahead⟩
      obtain ⟨h1, h2⟩ := ih hahead
      rw [hl] at h1 h2
      refine ⟨congrArg (c :: ·) h1, ?_⟩
      rw [length_cons, Nat.add_comm _ 1, ← Nat.add_assoc]
      exact h2

theorem lineOf_eq_nil_iff {k : ℕ} {l : List UInt8} : lineOf k l = [] ↔ k = 0 ∨ l = [] := by
  cases k with
  | zero => simp [lineOf]
  | succ k => cases l <;> simp [lineOf]

/-- **`fgets`** delivers a line. -/
theorem ahead_fgets (n : ℤ) (h : Ahead f io pos) : (fgets f pick n io).1 = gets n (f.bytes.drop pos)
    ∧ Ahead f (fgets f pick n io).2 (pos + ((gets n (f.bytes.drop pos)).getD []).length) := by
  obtain ⟨h1, h2⟩ := ahead_fgetsLoop pick (n - 1).toNat h
  unfold fgets gets
  by_cases hn : n ≤ 0
  · rw [if_pos hn, if_pos (.inl hn)]
    exact ⟨rfl, h⟩
  rw [if_neg hn]
  have hnil : lineOf (n - 1).toNat (f.bytes.drop pos) = [] ∧ 1 < n ↔ n ≤ 0 ∨ (1 < n ∧ f.bytes.drop pos = []) := by
    rw [lineOf_eq_nil_iff]
    constructor
    · rintro ⟨hk | hl, hn1⟩
      · omega
      · exact .inr ⟨hn1, hl⟩
    · rintro (h | ⟨hn1, hl⟩)
      · omega
      · exact ⟨.inr hl, hn1⟩
  dsimp only
  rw [h1]
  by_cases hline : lineOf (n - 1).toNat (f.bytes.drop pos) = [] ∧ 1 < n
  · rw [if_pos hline, if_pos (hnil.1 hline)]
    rw [hline.1] at h2
    exact ⟨rfl, h2⟩
  · rw [if_neg hline, if_neg (mt hnil.2 hline)]
    exact ⟨rfl, h2⟩

theorem freadLoop_zero (fuel : ℕ) (io : Io) : freadLoop f pick fuel 0 io = ([], io) := by
  cases fuel with
  | zero => rfl
  | succ fuel => rw [freadLoop, if_pos rfl]

theorem ahead_freadLoop {fuel left : ℕ} (hfuel : left ≤ fuel) (h : Ahead f io pos) (hempty : io.pending = []) :
    (freadLoop f pick fuel left io).1 = (f.bytes.drop pos).take left ∧
      Ahead f (freadLoop f pick fuel left io).2 (pos + ((f.bytes.drop pos).take left).length) := by
  induction fuel generalizing left io pos with
  | zero =>
    obtain rfl : left = 0 := by omega
    exact ⟨rfl, h⟩
  | succ fuel ih =>
    unfold freadLoop
    split_ifs with h0
    · rw [h0]
      exact ⟨rfl, h⟩
    obtain ⟨b, hread, hle, hb, hnil, hlt⟩ := sysRead_spec f pick io left h.offset_lt
    simp only [hread]
    by_cases hb0 : b = []
    · have hend : f.bytes.drop pos = [] := by
        rw [← h.bytes_eq, hempty, nil_append]
        exact (hnil hb0).resolve_left h0
      rw [if_pos hb0, hend, hb0, take_nil]
      exact ⟨rfl, h.rpos_le, h.offset_eq, h.bytes_eq, h.offset_lt⟩
    · rw [if_neg hb0]
      obtain ⟨hdrop, hahead⟩ := h.move b { io with offset := io.offset + b.length, reads := io.reads + 1 } hb hlt
        (by rw [hempty, nil_append, self_eq_append_right]; exact hempty) rfl h.rpos_le
      have hpos := length_pos_of_ne_nil hb0
      have hfuel' : left - b.length ≤ fuel := by omega
      obtain ⟨h1, h2⟩ := ih hfuel' hahead hempty
      have htake : (f.bytes.drop pos).take left = b ++ (f.bytes.drop (pos + b.length)).take (left - b.length) := by
        rw [hdrop, take_append, take_of_length_le hle]
      rw [htake]
      refine ⟨congrArg (b ++ ·) h1, ?_⟩
      rw [length_append, ← Nat.add_assoc]
      exact h2

/-- **`fread`** delivers the bytes that lie ahead, if no character was pushed back. -/
theorem ahead_fread (n : ℕ) (h : Ahead f io pos) (hun : n = 0 ∨ io.ungetcCh = none) :
    (fread f pick n io).1 = (f.bytes.drop pos).take n ∧
      Ahead f (fread f pick n io).2 (pos + ((f.bytes.drop pos).take n).length) := by
  by_cases h0 : n = 0
  · rw [fread, if_pos h0, h0]
    exact ⟨rfl, h⟩
  have hun := hun.resolve_left h0
  have hrpos := h.rpos_le
  obtain ⟨k, hk⟩ : ∃ k, k = if io.rpos < io.rbuf.length then min (io.rbuf.length - io.rpos) n else 0 :=
    ⟨_, rfl⟩
  have hk' : k = min (io.rbuf.length - io.rpos) n := by
    rw [hk]
    split_ifs <;> omega
  have hlen : ((io.rbuf.drop io.rpos).take k).length = k := by
    rw [length_take, length_drop]
    omega
  obtain ⟨hdrop, hahead⟩ := h.deliver ((io.rbuf.drop io.rpos).take k) { io with rpos := io.rpos + k }
    (by simp [Io.pending, hun, ← drop_drop]) rfl (by dsimp only; omega)
  rw [hlen] at hdrop hahead
  have htake : (f.bytes.drop pos).take n =
      (io.rbuf.drop io.rpos).take k ++ (f.bytes.drop (pos + k)).take (n - k) := by
    rw [hdrop, take_append, hlen, take_of_length_le (by omega)]
  have hread : fread f pick n io =
      ((io.rbuf.drop io.rpos).take k ++ (freadLoop f pick n (n - k) { io with rpos := io.rpos + k }).1,
        (freadLoop f pick n (n - k) { io with rpos := io.rpos + k }).2) := by
    rw [fread, if_neg h0, ← hk]
  rw [hread, htake, length_append, hlen, ← Nat.add_assoc]
  by_cases hall : k = n
  · rw [hall, Nat.sub_self, freadLoop_zero]
    exact ⟨rfl, hall ▸ hahead⟩
  · -- the buffer is used up
    obtain ⟨h1, h2⟩ := ahead_freadLoop pick (Nat.sub_le n k) hahead (by simp [Io.pending, hun]; omega)
    exact ⟨congrArg ((io.rbuf.drop io.rpos).take k ++ ·) h1, h2⟩

/-- **`ftell`** is the position. -/
theorem ahead_ftell (h : Ahead f io pos) : ftell io = pos := by
  have hoff := h.offset_eq
  rw [Io.pending, length_append, length_drop] at hoff
  unfold ftell
  cases hun : io.ungetcCh <;> rw [hun] at hoff <;> simp at hoff ⊢ <;> omega

theorem ahead_moved {t : ℕ} (ht : t < 2 ^ 63) : Ahead f ⟨[], 0, none, t, n⟩ t :=
  ⟨Nat.le_refl 0, rfl, rfl, ht⟩

theorem toInt64_neg_iff {x : ℤ} (hmin : -2 ^ 63 ≤ x) (hmax : x < 2 ^ 64) :
    (toInt64 x < 0 ↔ ¬ (0 ≤ x ∧ x < 2 ^ 63)) ∧ (0 ≤ x ∧ x < 2 ^ 63 → toInt64 x = x) := by
  unfold toInt64
  rw [Int.bmod_def]
  split_ifs <;> omega

theorem ite_seek {x t : ℤ} {bad : Prop} [Decidable bad] (hbad : ¬ bad) (hneg : x < 0 ↔ ¬ (0 ≤ t ∧ t < 2 ^ 63))
    (heq : 0 ≤ t ∧ t < 2 ^ 63 → x = t) : (if x < 0 ∨ bad then (false, io)
      else (true, { io with rbuf := [], rpos := 0, ungetcCh := none, offset := x.toNat })) =
      if 0 ≤ t ∧ t < 2 ^ 63 then (true, ⟨[], 0, none, t.toNat, io.reads⟩) else (false, io) := by
  by_cases ht : 0 ≤ t ∧ t < 2 ^ 63
  · have hx : ¬ (x < 0 ∨ bad) := by
      rw [hneg, not_or]
      exact ⟨not_not.2 ht, hbad⟩
    rw [if_pos ht, if_neg hx, heq ht]
  · rw [if_neg ht, if_pos (.inl (hneg.2 ht))]

/-- The target that `fseek` computes is the one that it should, or negative if that is out of range. -/
theorem fseek_eq (offset : BitVec 64) (whence : Whence) (h : Ahead f io pos) : fseek f offset whence
    io = if 0 ≤ seekTarget f pos offset whence ∧ seekTarget f pos offset whence < 2 ^ 63 then
    (true, ⟨[], 0, none, (seekTarget f pos offset whence).toNat, io.reads⟩) else (false, io) := by
  have hsize := f.size_lt
  have htell := ahead_ftell h
  have hoff := h.offset_eq
  have hlt := h.offset_lt
  have hmin : -2 ^ 63 ≤ offset.toInt := BitVec.le_toInt offset
  have hmax : offset.toInt < 2 ^ 63 := BitVec.toInt_lt
  cases whence with
  | set =>
    have hset : offset.toInt < 0 ↔ ¬ (0 ≤ offset.toInt ∧ offset.toInt < 2 ^ 63) := by omega
    exact ite_seek (by simp) hset fun _ => rfl
  | cur =>
    obtain ⟨h1, h2⟩ := toInt64_neg_iff (x := pos + offset.toInt) (by omega) (by omega)
    have hseek : seekTarget f pos offset .cur = ftell io + offset.toInt := by rw [htell]; rfl
    rw [← htell] at h1 h2
    rw [hseek]
    exact ite_seek (by omega) h1 h2
  | fromEnd =>
    obtain ⟨h1, h2⟩ := toInt64_neg_iff (x := f.bytes.length + offset.toInt) (by omega) (by omega)
    exact ite_seek (by simp) h1 h2

end

/-! ## Runs -/

/-- The reader is where the stream is, and the last character that was read lies before. -/
structure Session.Inv (f : File) (s : Session) : Prop where
  ahead : Ahead f s.io s.pos
  last : ∀ c, s.last = some c → 0 < s.pos ∧ s.io.ungetcCh = none ∧ f.bytes[s.pos - 1]? = some c

section
variable {f : File} (pick : ℕ → ℕ) {s t : Session} {c : Call}

/-- **A call** replies what a reader should see. -/
theorem Session.Inv.reply (h : s.Inv f) (hlegal : s.Legal c) (hclean : s.Clean c) :
    (c.run f pick s.io).1 = (c.view f s.pos).1 ∧ Ahead f (c.run f pick s.io).2 (c.view f s.pos).2 := by
  cases c with
  | fgetc =>
    obtain ⟨h1, h2, -⟩ := ahead_fgetc pick h.ahead
    exact ⟨congrArg Reply.char h1, h2⟩
  | ungetc c =>
    obtain ⟨hpos, hun, hc⟩ := h.last c hlegal
    obtain ⟨hrpos, hoff, hbytes, hlt⟩ := h.ahead
    have hlen : s.pos - 1 < f.bytes.length := (List.getElem?_eq_some_iff.1 hc).1
    have hdrop : f.bytes.drop (s.pos - 1) = c :: f.bytes.drop s.pos := by
      rw [drop_eq_getElem_cons hlen, (List.getElem?_eq_some_iff.1 hc).2, Nat.sub_add_cancel hpos]
    have hpend : (ungetc c s.io).pending = c :: s.io.pending := by simp [Io.pending, ungetc, hun]
    refine ⟨rfl, hrpos, ?_, ?_, hlt⟩
    · have hoff' : (ungetc c s.io).offset = s.io.offset := rfl
      simp only [Call.run, Call.view, hpend, length_cons, hoff']
      omega
    · simp only [Call.run, Call.view, hpend, hdrop]
      exact congrArg (c :: ·) hbytes
  | fgets n =>
    obtain ⟨h1, h2⟩ := ahead_fgets pick n h.ahead
    exact ⟨congrArg Reply.line h1, h2⟩
  | fread n =>
    obtain ⟨h1, h2⟩ := ahead_fread pick n h.ahead hclean
    exact ⟨congrArg Reply.bytes h1, h2⟩
  | fseek offset whence =>
    simp only [Call.run, Call.view, fseek_eq offset whence h.ahead]
    split_ifs with ht
    · exact ⟨rfl, ahead_moved (by omega)⟩
    · exact ⟨rfl, h.ahead⟩
  | ftell => exact ⟨congrArg Reply.tell (ahead_ftell h.ahead), h.ahead⟩

theorem Session.Inv.step (h : s.Inv f) (hlegal : s.Legal c) (hclean : s.Clean c)
    (hstep : s.step f pick c = some t) : t.Inv f := by
  obtain ⟨-, hahead⟩ := h.reply pick hlegal hclean
  cases hstep
  refine ⟨hahead, fun ch hch => ?_⟩
  cases c with
  | fgetc =>
    obtain ⟨h1, -, h3⟩ := ahead_fgetc pick h.ahead
    have hget : f.bytes[s.pos]? = some ch := by
      rw [← head?_drop, ← h1]
      exact hch
    have hlt : s.pos < f.bytes.length := (List.getElem?_eq_some_iff.1 hget).1
    have hpos : (Call.view f s.pos .fgetc).2 = s.pos + 1 := by
      simp only [Call.view, length_drop]
      omega
    refine ⟨?_, h3, ?_⟩
    · rw [hpos]
      exact Nat.succ_pos _
    · rw [hpos, Nat.add_sub_cancel]
      exact hget
  | _ => cases hch

/-- **The view of a reader**: if only characters just read are pushed back, and none is when `fread` is called,
every call replies what a reader at the position sees. -/
theorem exec_view (f : File) (pick : ℕ → ℕ) {calls : List Call}
    (hok : Along (Session.step f pick) (fun s c => s.Legal c ∧ s.Clean c) Session.start calls)
    (hrun : exec (Session.step f pick) Session.start calls = some s) :
    ∀ c, s.Legal c → s.Clean c → (c.run f pick s.io).1 = (c.view f s.pos).1 := by
  have hstart : Session.start.Inv f :=
    ⟨ahead_moved (Nat.two_pow_pos 63), fun c hc => by cases hc⟩
  have hinv := exec_induction (I := Session.Inv f) (fun s c t hs hc ht => hs.step pick hc.1 hc.2 ht) hstart hok hrun
  exact fun c hlegal hclean => (hinv.reply pick hlegal hclean).1

end

/-! ## A character that is skipped -/

def abFile : File := ⟨[chr 'a', chr 'b'], by decide⟩

theorem exec_view_again :
    ∃ s, exec (Session.step abFile id) Session.start [.fgetc, .ungetc (chr 'a'), .fgetc] = some s ∧
      ((Call.fread 2).run abFile id s.io).1 = .bytes [chr 'b'] := by
  have hok : Along (Session.step abFile id) (fun s c => s.Legal c ∧ s.Clean c) Session.start
      [.fgetc, .ungetc (chr 'a'), .fgetc] := by
    refine ⟨⟨trivial, trivial⟩, fun s hs => ?_⟩
    cases hs
    refine ⟨⟨rfl, trivial⟩, fun s hs => ?_⟩
    cases hs
    exact ⟨⟨trivial, trivial⟩, fun _ _ => trivial⟩
  exact ⟨_, rfl, exec_view abFile id hok rfl (.fread 2) trivial (.inr rfl)⟩

/-- **A character that was pushed back is skipped** by `fread`: the reader of `"ab"` gets the `b`. -/
theorem fread_skips_pushed_back : Along (Session.step abFile id) Session.Legal Session.start
    [.fgetc, .ungetc (chr 'a'), .fread 1] ∧ ∃ s, exec (Session.step abFile id) Session.start
    [.fgetc, .ungetc (chr 'a')] = some s ∧ s.pos = 0 ∧ ((Call.fread 1).view abFile s.pos).1 = .bytes
    [chr 'a'] ∧ ((Call.fread 1).run abFile id s.io).1 = .bytes [chr 'b'] := by
  refine ⟨⟨trivial, fun s hs => ?_⟩, _, rfl, rfl, rfl, rfl⟩
  cases hs
  exact ⟨rfl, fun _ _ => ⟨trivial, fun _ _ => trivial⟩⟩

end Archis.Libc.Stdio
