/-
  What is typed, and what the reads of the terminal get.

  `tty_input` edits the line with the bytes of one call, and then serves the reads that wait (`answer`).
  `ttyInput_append_iff`: when two calls do what one call with all the bytes does.
-/
import Archis.Io.Drivers

namespace Archis.Io.Drivers

open Archis.Lib List

abbrev Reply := PendingEntry × List UInt8

def text (g : List Reply) : List UInt8 := g.flatMap (·.2)

theorem text_append (g g' : List Reply) : text (g ++ g') = text g ++ text g' := flatMap_append

/-! ## Serving the reads -/

section
variable {α : Type} {N : ℕ}

/-- What the reads get that `satisfy` serves. -/
def replies (give : RingBuffer α N → ℕ → Option ℕ) : RingBuffer α N → List PendingEntry → List (PendingEntry × List α)
  | _, [] => []
  | ring, e :: es =>
    match give ring e.requested with
    | none => []
    | some n => (e, ring.peekInto n) :: replies give (ring.advance n) es

end

def lineLen (q : List UInt8) : Option ℕ := (q.findIdx? (· = NEWLINE)).map (· + 1)

/-- `compute_give`, on the text in the ring. -/
def giveOf (canonical : Bool) (q : List UInt8) (requested : ℕ) : Option ℕ :=
  if q = [] then none
  else if !canonical then some (min q.length requested)
  else match lineLen q with
    | some len => some (min len requested)
    | none => if q.length ≥ requested then some requested else none

theorem computeGive_eq (c : Bool) (ring : RingBuffer UInt8 INPUT_BUF_SIZE) (n : ℕ) :
    computeGive c ring n = giveOf c ring.toList n := by
  have hnil : ring.toList = [] ↔ ring.len = 0 := by rw [← length_eq_zero_iff, RingBuffer.length_toList]
  have hline : findLineLen ring = lineLen ring.toList := by rw [findLineLen, RingBuffer.peekInto_len, lineLen]
  cases h : lineLen ring.toList <;> simp only [computeGive, giveOf, hline, h, RingBuffer.length_toList, hnil]

/-- The loop that serves the reads, on the text: the replies, the reads that stay and the text that stays. -/
def answer (canonical : Bool) : List UInt8 → List PendingEntry → List Reply × List PendingEntry × List UInt8
  | q, [] => ([], [], q)
  | q, e :: es =>
    match giveOf canonical q e.requested with
    | none => ([], e :: es, q)
    | some n =>
      let (g, rest, q') := answer canonical (q.drop n) es
      ((e, q.take n) :: g, rest, q')

section
variable {c : Bool} {q u v w : List UInt8} {e : PendingEntry} {es : List PendingEntry} {n k : ℕ}

theorem answer_none (h : giveOf c q e.requested = none) : answer c q (e :: es) = ([], e :: es, q) := by
  rw [answer, h]

theorem answer_some (h : giveOf c q e.requested = some n) : answer c q (e :: es) =
    ((e, q.take n) :: (answer c (q.drop n) es).1, (answer c (q.drop n) es).2.1, (answer c (q.drop n) es).2.2) := by
  rw [answer, h]

/-- **The loop of the driver** is the loop on the text. -/
theorem satisfy_eq (c : Bool) : ∀ (ring : RingBuffer UInt8 INPUT_BUF_SIZE) (es : List PendingEntry), replies
    (computeGive c) ring es = (answer c ring.toList es).1 ∧ (satisfy (computeGive c) ring es).2.1 =
    (answer c ring.toList es).2.1 ∧ (satisfy (computeGive c) ring es).2.2.toList = (answer c ring.toList es).2.2
  | _, [] => ⟨rfl, rfl, rfl⟩
  | ring, e :: es => by
    unfold replies satisfy
    rw [computeGive_eq]
    cases h : giveOf c ring.toList e.requested with
    | none =>
      rw [answer_none h]
      exact ⟨rfl, rfl, rfl⟩
    | some n =>
      obtain ⟨h1, h2, h3⟩ := satisfy_eq c (ring.advance n) es
      rw [RingBuffer.toList_advance] at h1 h2 h3
      rw [answer_some h]
      exact ⟨congrArg₂ (fun b g => (e, b) :: g) (RingBuffer.peekInto_eq n) h1, h2, h3⟩

theorem lineLen_le (h : lineLen q = some n) : n ≤ q.length := by
  obtain ⟨i, hi, rfl⟩ := Option.map_eq_some_iff.1 h
  obtain ⟨hlt, -⟩ := findIdx?_eq_some_iff_getElem.1 hi
  exact hlt

theorem giveOf_raw (hq : q ≠ []) : giveOf false q n = some (min q.length n) := by
  rw [giveOf, if_neg hq]
  rfl

theorem giveOf_line (h : lineLen q = some k) : giveOf true q n = some (min k n) := by
  have hq : q ≠ [] := by
    rintro rfl
    cases h
  rw [giveOf, if_neg hq, h]
  rfl

theorem giveOf_noLine (hq : q ≠ []) (h : lineLen q = none) :
    giveOf true q n = if n ≤ q.length then some n else none := by
  rw [giveOf, if_neg hq, h]
  rfl

theorem ne_nil_of_giveOf (h : giveOf c q n = some k) : q ≠ [] := by
  rintro rfl
  cases h

theorem giveOf_le (h : giveOf c q n = some k) : k ≤ q.length ∧ k ≤ n := by
  have hq := ne_nil_of_giveOf h
  cases c with
  | false =>
    rw [giveOf_raw hq, Option.some.injEq] at h
    omega
  | true =>
    cases hl : lineLen q with
    | some l =>
      have hle := lineLen_le hl
      rw [giveOf_line hl, Option.some.injEq] at h
      omega
    | none =>
      rw [giveOf_noLine hq hl] at h
      split_ifs at h with hle
      cases h
      exact ⟨hle, le_rfl⟩

/-- **No byte is lost**: the text is what the reads got and what stays. -/
theorem text_answer : ∀ (q : List UInt8) (es : List PendingEntry), text (answer c q es).1 ++ (answer c q es).2.2 = q
  | q, [] => rfl
  | q, e :: es => by
    cases h : giveOf c q e.requested with
    | none => rw [answer_none h]; rfl
    | some n =>
      rw [answer_some h]
      have ih := text_answer (q.drop n) es
      calc q.take n ++ text (answer c (q.drop n) es).1 ++ (answer c (q.drop n) es).2.2
          = q.take n ++ q.drop n := by rw [append_assoc, ih]
        _ = q := take_append_drop n q

theorem answer_order : ∀ (q : List UInt8) (es : List PendingEntry),
    (answer c q es).1.map (·.1) ++ (answer c q es).2.1 = es
  | q, [] => rfl
  | q, e :: es => by
    cases h : giveOf c q e.requested with
    | none => rw [answer_none h]; rfl
    | some n =>
      rw [answer_some h]
      exact congrArg (e :: ·) (answer_order (q.drop n) es)

theorem answer_nil_text (es : List PendingEntry) : answer c [] es = ([], es, []) := by
  cases es with
  | nil => rfl
  | cons e es => exact answer_none (by simp [giveOf])

/-! ## Serving the reads in between -/

theorem lineLen_take (k : ℕ) : lineLen (q.take k) = (lineLen q).filter (· ≤ k) := by
  rw [lineLen, findIdx?_take, lineLen]
  cases q.findIdx? (· = NEWLINE) with
  | none => rfl
  | some i => by_cases h : i < k <;> simp [Option.guard, Option.filter, h]

def Reply.Filled (r : Reply) : Prop := r.2.length = r.1.requested

end

/-! ## Batches -/

namespace TtyCtx

section
variable (ctx : TtyCtx) (bytes : List UInt8)

/-- The text in the ring after the editing loop of `tty_input`; nothing after Ctrl-C. -/
def edited : List UInt8 :=
  match stage ctx.canonical ctx.inputRing [] bytes with
  | none => []
  | some (ring, tmp) => (tmp.foldl RingBuffer.push ring).toList

/-- The reads that `tty_input` completes, and their bytes. -/
def ttyReplies : List Reply :=
  if bytes = [] then []
  else match stage ctx.canonical ctx.inputRing [] bytes with
    | none => []
    | some (ring, tmp) => replies (computeGive ctx.canonical) (tmp.foldl RingBuffer.push ring) ctx.pending

end

variable {ctx : TtyCtx} {p : Procs} {xs ys bytes : List UInt8}

/-- **`tty_input`** serves the reads on the text that the editing loop leaves. -/
theorem ttyInput_spec (ctx : TtyCtx) (hb : bytes ≠ []) :
    answer ctx.canonical (ctx.edited bytes) ctx.pending = (ctx.ttyReplies bytes, (ctx.ttyInput bytes).1.pending,
      (ctx.ttyInput bytes).1.inputRing.toList) := by
  rw [edited, ttyReplies, if_neg hb, ttyInput, if_neg hb]
  cases stage ctx.canonical ctx.inputRing [] bytes with
  | none => exact answer_nil_text _
  | some rt =>
    obtain ⟨h1, h2, h3⟩ := satisfy_eq ctx.canonical (rt.2.foldl RingBuffer.push rt.1) ctx.pending
    exact Prod.ext h1.symm (Prod.ext h2.symm h3.symm)

theorem ttyInput_mode : (ctx.ttyInput bytes).1.mode = ctx.mode ∧ (ctx.ttyInput bytes).1.pgrp = ctx.pgrp := by
  unfold ttyInput
  split_ifs
  · exact ⟨rfl, rfl⟩
  · cases stage ctx.canonical ctx.inputRing [] bytes <;> exact ⟨rfl, rfl⟩

theorem ttyInput_canonical : (ctx.ttyInput bytes).1.canonical = ctx.canonical := by
  rw [canonical, ttyInput_mode.1, canonical]

def Plain (canonical : Bool) (b : UInt8) : Prop := b ≠ CTRL_C ∧ (b = BACKSPACE → canonical = false)

theorem stage_plain {c : Bool} {ring : RingBuffer UInt8 INPUT_BUF_SIZE} : ∀ {bytes tmp : List UInt8},
    (∀ b ∈ bytes, Plain c b) → tmp.length + bytes.length ≤ MAX_TMP_CHARS →
      stage c ring tmp bytes = some (ring, tmp ++ bytes)
  | [], tmp, _, _ => by rw [stage, append_nil]
  | b :: bytes, tmp, hb, hlen => by
    obtain ⟨hctrl, hback⟩ := hb b ((.head _) ..)
    have hedit : ¬ (b = BACKSPACE && c) = true := by
      rw [Bool.and_eq_true, decide_eq_true_eq]
      rintro ⟨h, hc⟩
      rw [hback h] at hc
      cases hc
    have hrest : ∀ b' ∈ bytes, Plain c b' := fun b' hb' => hb b' (.tail _ hb')
    rw [length_cons] at hlen
    rw [stage, if_neg hctrl, if_neg hedit, length_append, length_singleton]
    by_cases hfull : tmp.length + 1 ≥ MAX_TMP_CHARS
    · -- the buffer is full, and there are no more bytes
      obtain rfl : bytes = [] := length_eq_zero_iff.1 (by omega)
      rw [if_pos hfull]
    · rw [if_neg hfull, stage_plain hrest, append_assoc, singleton_append]
      rw [length_append, length_singleton]
      omega

end TtyCtx

/-- A terminal in canonical mode with nothing typed, and the reads that wait. -/
def quietTty (pending : List PendingEntry) : TtyCtx := ⟨.new 0, pending, 1, true, TTY_MODE_CANON, 0, 0⟩

def noProcs : Procs :=
  ⟨none, fun _ => 0, fun _ => 0, fun _ => false, fun _ _ => false, fun _ => false, fun _ _ => false, fun _ _ => false⟩

end Archis.Io.Drivers
