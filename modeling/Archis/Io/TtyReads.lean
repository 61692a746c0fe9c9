/-
  Reads of the terminal that wait, while bytes are typed one by one.

  `exec_lossless`: no byte is lost while a read waits, and the reads get the text in the order in which they came, if no
  read asks for more than the ring holds, or for what is there while another waits.
-/
import Archis.Io.TtyInput
import Archis.Lib.Run

namespace Archis.Io.Drivers

open Archis.Lib
open List hiding Vector

/-! ## Lines -/

section
variable {c : Bool} {q : List UInt8} {e : PendingEntry} {es : List PendingEntry} {n k : ℕ}

/-- The bytes are a line, or as much of the beginning of one as the read asked for. -/
def Reply.IsLine (r : Reply) : Prop := lineLen r.2 = some r.2.length ∨ lineLen r.2 = none ∧ r.Filled

theorem isLine_of_give (h : giveOf true q e.requested = some k) : Reply.IsLine (e, q.take k) := by
  have hlen : (q.take k).length = k := length_take_of_le (giveOf_le h).1
  rw [Reply.IsLine, Reply.Filled, hlen, lineLen_take]
  cases hl : lineLen q with
  | some l =>
    rw [giveOf_line hl, Option.some.injEq] at h
    by_cases hle : l ≤ e.requested
    · obtain rfl : l = k := by omega
      exact .inl (by simp [Option.filter])
    · obtain rfl : e.requested = k := by omega
      exact .inr ⟨by simp [Option.filter]; omega, rfl⟩
  | none =>
    rw [giveOf_noLine (ne_nil_of_giveOf h) hl] at h
    split_ifs at h
    cases h
    exact .inr ⟨rfl, rfl⟩

theorem isLine_of_answer {r : Reply} (h : r ∈ (answer true q es).1) : r.IsLine := by
  induction es generalizing q with
  | nil => cases h
  | cons e es ih =>
    cases hgive : giveOf true q e.requested with
    | none =>
      rw [answer_none hgive] at h
      cases h
    | some k =>
      rw [answer_some hgive] at h
      rcases mem_cons.1 h with rfl | h
      · exact isLine_of_give hgive
      · exact ih h

theorem giveOf_none (h : giveOf c q n = none) : q = [] ∨ lineLen q = none ∧ q.length < n := by
  by_cases hq : q = []
  · exact .inl hq
  cases c with
  | false =>
    rw [giveOf_raw hq] at h
    cases h
  | true =>
    cases hl : lineLen q with
    | some l =>
      rw [giveOf_line hl] at h
      cases h
    | none =>
      rw [giveOf_noLine hq hl] at h
      split_ifs at h with hle
      exact .inr ⟨rfl, Nat.lt_of_not_le hle⟩

theorem giveOf_none_of_lt {m : ℕ} (h : giveOf c q n = none) (hm : q.length < m) : giveOf c q m = none := by
  by_cases hq : q = []
  · rw [hq]
    rfl
  cases c with
  | false =>
    rw [giveOf_raw hq] at h
    cases h
  | true =>
    have hline := ((giveOf_none h).resolve_left hq).1
    rw [giveOf_noLine hq hline, if_neg (Nat.not_le.2 hm)]

def Waits (c : Bool) (q : List UInt8) (es : List PendingEntry) : Prop :=
  ∀ e ∈ es.head?, giveOf c q e.requested = none

theorem waits_answer (q : List UInt8) (es : List PendingEntry) : Waits c (answer c q es).2.2 (answer c q es).2.1 := by
  induction es generalizing q with
  | nil => exact fun _ h => by cases h
  | cons e es ih =>
    cases h : giveOf c q e.requested with
    | none =>
      rw [answer_none h]
      intro e' he'
      cases he'
      exact h
    | some k =>
      rw [answer_some h]
      exact ih (q.drop k)

end

/-! ## Reads and bytes -/

/-- A byte that is typed: not Ctrl-C, and not a backspace. -/
structure TypedByte where
  val : UInt8
  ne : val ≠ CTRL_C ∧ val ≠ BACKSPACE

/-- Reads and typed bytes. -/
inductive Act where
  | read (p : Procs) (r : Irp)
  | type (b : TypedByte)

structure Session where
  ctx : TtyCtx
  /-- the text in the ring and all that was typed since, but not into a full ring with no read waiting -/
  heard : List UInt8
  /-- The reads that were accepted, in order. -/
  issued : List PendingEntry
  /-- The reads that were completed, in order. -/
  given : List Reply

def TtyCtx.readReplies (ctx : TtyCtx) (p : Procs) (r : Irp) : List Reply :=
  if r.size = 0 then []
  else match p.currentPid with
    | none => []
    | some pid =>
      if ctx.inBackground p pid then []
      else match computeGive ctx.canonical ctx.inputRing r.size with
        | some give => [(⟨r.ptr, r.size⟩, ctx.inputRing.peekInto give)]
        | none => []

namespace Session

def start (ctx : TtyCtx) : Session := ⟨ctx, ctx.inputRing.toList, ctx.pending, []⟩

def step (s : Session) : Act → Option Session
  | .read p r =>
    let ctx := (s.ctx.dispatchRead p r).ctx
    let served := s.ctx.readReplies p r
    -- the read is served, or is the last of the queue, or was refused
    some ⟨ctx, s.heard, s.issued ++ served.map (·.1) ++ ctx.pending.drop s.ctx.pending.length, s.given ++ served⟩
  | .type b =>
    some {
      ctx := (s.ctx.ttyInput [b.val]).1
      heard := if s.ctx.pending = [] ∧ s.ctx.inputRing.len = INPUT_BUF_SIZE then s.heard else s.heard ++ [b.val]
      issued := s.issued
      given := s.given ++ s.ctx.ttyReplies [b.val] }

/-- The read asks for no more than the ring holds, and while others wait for more than is there. -/
def ReadOk (s : Session) : Act → Prop
  | .read _ r => r.size ≤ INPUT_BUF_SIZE ∧ (s.ctx.pending ≠ [] → r.size = 0 ∨ s.ctx.inputRing.len < r.size)
  | .type _ => True

/-- No typed byte is lost while a read waits, and each read gets the beginning of its line. -/
structure Lossless (s : Session) : Prop where
  /-- All that was typed went to the reads or is in the ring. -/
  text : s.heard = text s.given ++ s.ctx.inputRing.toList
  /-- The reads are completed in the order in which they came. -/
  order : s.issued = s.given.map (·.1) ++ s.ctx.pending
  /-- A read in canonical mode gets a line, or as much of it as it asked for. -/
  line : s.ctx.canonical = true → ∀ r ∈ s.given, Reply.IsLine r

structure Inv (s : Session) : Prop extends Lossless s where
  size : ∀ e ∈ s.ctx.pending, e.requested ≤ INPUT_BUF_SIZE
  waits : Waits s.ctx.canonical s.ctx.inputRing.toList s.ctx.pending

variable {s t : Session}

theorem Inv.waiting (h : s.Inv) (hp : s.ctx.pending ≠ []) : s.ctx.inputRing.len < INPUT_BUF_SIZE ∧
    ∀ n, s.ctx.inputRing.len < n → giveOf s.ctx.canonical s.ctx.inputRing.toList n = none := by
  obtain ⟨e, es, hes⟩ := exists_cons_of_ne_nil hp
  have hwait := h.waits e (by rw [hes]; rfl)
  have hsize := h.size e (by rw [hes]; exact (.head _) ..)
  refine ⟨?_, fun n hn => giveOf_none_of_lt hwait (by rwa [RingBuffer.length_toList])⟩
  rcases giveOf_none hwait with hnil | ⟨-, hlt⟩
  · rw [← RingBuffer.length_toList, hnil]
    decide
  · rw [RingBuffer.length_toList] at hlt
    omega

theorem edited_type (ctx : TtyCtx) (b : TypedByte) : ctx.edited [b.val] =
    if ctx.inputRing.len < INPUT_BUF_SIZE then ctx.inputRing.toList ++ [b.val] else ctx.inputRing.toList := by
  have hstage : TtyCtx.stage ctx.canonical ctx.inputRing [] [b.val] = some (ctx.inputRing, [b.val]) :=
    TtyCtx.stage_plain (fun b' hb' => by
      rw [mem_singleton.1 hb']
      exact ⟨b.ne.1, fun h => absurd h b.ne.2⟩) (by simp [MAX_TMP_CHARS])
  rw [TtyCtx.edited, hstage]
  show (ctx.inputRing.push b.val).toList = _
  split_ifs with h
  · exact RingBuffer.toList_push _ h
  · rw [RingBuffer.push_of_full _ h]

theorem Inv.heard (h : s.Inv) (b : TypedByte) :
    (if s.ctx.pending = [] ∧ s.ctx.inputRing.len = INPUT_BUF_SIZE then s.heard else s.heard ++ [b.val]) =
      Drivers.text s.given ++ s.ctx.edited [b.val] := by
  rw [edited_type]
  have hle := s.ctx.inputRing.len_le
  by_cases hroom : s.ctx.inputRing.len < INPUT_BUF_SIZE
  · rw [if_neg fun hfull => hroom.ne hfull.2, if_pos hroom, h.text, append_assoc]
  · have hnone : s.ctx.pending = [] := by
      by_contra hp
      exact hroom (h.waiting hp).1
    rw [if_pos ⟨hnone, by omega⟩, if_neg hroom, h.text]

theorem Inv.type (h : s.Inv) (b : TypedByte) (hstep : s.step (.type b) = some t) : t.Inv := by
  cases hstep
  have hspec := TtyCtx.ttyInput_spec s.ctx (cons_ne_nil b.val [])
  have htext := text_answer (c := s.ctx.canonical) (s.ctx.edited [b.val]) s.ctx.pending
  have horder := answer_order (c := s.ctx.canonical) (s.ctx.edited [b.val]) s.ctx.pending
  have hwaits := waits_answer (c := s.ctx.canonical) (s.ctx.edited [b.val]) s.ctx.pending
  rw [hspec] at htext horder hwaits
  refine ⟨⟨?_, ?_, ?_⟩, ?_, ?_⟩
  · show _ = Drivers.text (s.given ++ s.ctx.ttyReplies [b.val]) ++ (s.ctx.ttyInput [b.val]).1.inputRing.toList
    rw [h.heard b, text_append, append_assoc, htext]
  · show s.issued = (s.given ++ s.ctx.ttyReplies [b.val]).map (·.1) ++ (s.ctx.ttyInput [b.val]).1.pending
    rw [h.order, map_append, append_assoc, horder]
  · intro hc r hr
    rw [TtyCtx.ttyInput_canonical] at hc
    rcases mem_append.1 hr with hr | hr
    · exact h.line hc r hr
    · rw [hc] at hspec
      exact isLine_of_answer (by rw [hspec]; exact hr)
  · intro e he
    refine h.size e ?_
    rw [← horder]
    exact mem_append_right _ he
  · show Waits (s.ctx.ttyInput [b.val]).1.canonical _ _
    rw [TtyCtx.ttyInput_canonical]
    exact hwaits

theorem read_cases (ctx : TtyCtx) (p : Procs) (r : Irp) : ((ctx.dispatchRead p r).ctx = ctx ∧
    ctx.readReplies p r = []) ∨ (r.size ≠ 0 ∧ ∃ k, giveOf ctx.canonical ctx.inputRing.toList r.size = some k ∧
      (ctx.dispatchRead p r).ctx = { ctx with inputRing := ctx.inputRing.advance k } ∧
      ctx.readReplies p r = [(⟨r.ptr, r.size⟩, ctx.inputRing.toList.take k)]) ∨
    (giveOf ctx.canonical ctx.inputRing.toList r.size = none ∧ ctx.readReplies p r = [] ∧
      (ctx.dispatchRead p r).ctx = { ctx with pending := ctx.pending ++ [⟨r.ptr, r.size⟩] }) := by
  unfold TtyCtx.dispatchRead TtyCtx.readReplies
  by_cases hsize : r.size = 0
  · rw [if_pos hsize, if_pos hsize]
    exact .inl ⟨rfl, rfl⟩
  rw [if_neg hsize, if_neg hsize]
  cases p.currentPid with
  | none => exact .inl ⟨rfl, rfl⟩
  | some pid =>
    by_cases hbg : ctx.inBackground p pid = true
    · exact .inl ⟨by simp [hbg, Outcome.finish], by simp [hbg]⟩
    simp only [if_neg hbg]
    rw [computeGive_eq]
    cases hgive : giveOf ctx.canonical ctx.inputRing.toList r.size with
    | some k => exact .inr (.inl ⟨hsize, k, rfl, rfl, by simp only [RingBuffer.peekInto_eq]⟩)
    | none =>
      by_cases hfull : ctx.pending.length = MAX_PENDING
      · exact .inl ⟨by simp [hfull, Outcome.finish], rfl⟩
      · exact .inr (.inr ⟨rfl, rfl, by simp [hfull]⟩)

theorem Inv.read (h : s.Inv) {p : Procs} {r : Irp} (hok : s.ReadOk (.read p r))
    (hstep : s.step (.read p r) = some t) : t.Inv := by
  cases hstep
  rcases read_cases s.ctx p r with ⟨hctx, hg⟩ | ⟨hsize, k, hgive, hctx, hg⟩ | ⟨hgive, hg, hctx⟩
  · rw [hctx, hg, drop_length, map_nil, append_nil, append_nil, append_nil]
    exact h
  · -- no read waits: this one would have to wait as well
    have hnone : s.ctx.pending = [] := by
      by_contra hp
      have hwait := (h.waiting hp).2 r.size ((hok.2 hp).resolve_left hsize)
      rw [hgive] at hwait
      cases hwait
    rw [hctx, hg, hnone]
    refine ⟨⟨?_, ?_, ?_⟩, (fun e he => by cases he), fun e he => by cases he⟩
    · show s.heard = Drivers.text (s.given ++ _) ++ (s.ctx.inputRing.advance k).toList
      rw [h.text, text_append, RingBuffer.toList_advance, append_assoc]
      simp [Drivers.text]
    · show s.issued ++ _ ++ _ = (s.given ++ _).map (·.1) ++ []
      rw [h.order, hnone]
      simp
    intro hc r' hr'
    rcases mem_append.1 hr' with hr' | hr'
    · exact h.line hc r' hr'
    · rw [mem_singleton.1 hr']
      have hgive' : giveOf true s.ctx.inputRing.toList r.size = some k := by rw [← hgive]; congr 1; exact hc.symm
      exact isLine_of_give (e := ⟨r.ptr, r.size⟩) hgive'
  · rw [hctx, hg, map_nil, append_nil, append_nil]
    refine ⟨⟨h.text, ?_, h.line⟩, ?_, ?_⟩
    · show s.issued ++ (s.ctx.pending ++ _).drop s.ctx.pending.length = s.given.map (·.1) ++ (s.ctx.pending ++ _)
      rw [drop_left, h.order, append_assoc]
    · intro e he
      rcases mem_append.1 he with he | he
      · exact h.size e he
      · rw [mem_singleton.1 he]
        exact hok.1
    · -- the first read of the queue is the one that was first before, or this one
      intro e he
      cases hp : s.ctx.pending with
      | nil =>
        simp only [hp, nil_append, head?_cons, Option.mem_some_iff] at he
        rw [← he]
        exact hgive
      | cons e' es =>
        simp only [hp, cons_append, head?_cons, Option.mem_some_iff] at he
        exact h.waits e (by rw [hp, ← he]; rfl)

/-- **A pending read never loses typed input** if no read asks for more than the ring holds, and none that comes
while others wait asks for what is there already. -/
theorem exec_lossless {ctx : TtyCtx} (hp : ctx.pending = []) {l : List Act} {t : Session}
    (hl : Along step ReadOk (start ctx) l) (h : exec step (start ctx) l = some t) : t.Lossless := by
  have hstart : (start ctx).Inv := by
    refine ⟨⟨rfl, rfl, fun _ _ hr => by cases hr⟩, ?_, ?_⟩
    · rw [start, hp]
      exact fun _ he => by cases he
    · rw [start, hp]
      exact fun _ he => by cases he
  refine (exec_induction (I := Inv) (fun s a t hs hok hstep => ?_) hstart hl h).toLossless
  cases a with
  | read p r => exact hs.read hok hstep
  | type b => exact hs.type b hstep

/-! ## Two runs -/

def shell : Procs := { noProcs with currentPid := some 1 }

def readIrp (ptr size : ℕ) : Irp := ⟨ptr, .read, .none, 0, size, 0, 0, 0, fun _ => []⟩

def typeA : Act := .type ⟨0x61, by decide⟩

def lineActs : List Act := [.read shell (readIrp 1 10), typeA, .type ⟨NEWLINE, by decide⟩]

theorem exec_lossless_line : ∃ t, exec step (start (quietTty [])) lineActs = some t ∧ t.Lossless := by
  have hl : Along step ReadOk (start (quietTty [])) lineActs := by
    refine ⟨⟨by decide, fun hp => absurd rfl hp⟩, fun _ _ => ⟨trivial, fun _ _ => ⟨trivial, fun _ _ => trivial⟩⟩⟩
  obtain ⟨t, ht⟩ : ∃ t, exec step (start (quietTty [])) lineActs = some t := ⟨_, rfl⟩
  exact ⟨t, ht, exec_lossless rfl hl ht⟩

def fullTty : TtyCtx :=
  { quietTty [] with inputRing := ⟨Vector.replicate INPUT_BUF_SIZE 0x61, 0, INPUT_BUF_SIZE, by decide, le_rfl⟩ }

/-- The next letter is lost when a read asks for more than the ring holds; a later read of one letter gets it
first. -/
theorem read_loses_input : (∃ t, exec step (start fullTty) [.read shell (readIrp 1 257), typeA] =
    some t ∧ ¬ t.Lossless) ∧ ∃ t, exec step (start (quietTty [])) [.read shell (readIrp 1 10),
    typeA, .read shell (readIrp 2 1)] = some t ∧ ¬ t.Lossless := by
  have hlost : (exec step (start fullTty) [.read shell (readIrp 1 257), typeA]).any (fun t =>
      t.heard.length = 257 ∧ t.given = [] ∧ t.ctx.inputRing.len = 256) = true := by decide +kernel
  have hstolen : (exec step (start (quietTty []))
      [.read shell (readIrp 1 10), typeA, .read shell (readIrp 2 1)]).any (fun t =>
        t.issued = [⟨1, 10⟩, ⟨2, 1⟩] ∧ t.given = [(⟨2, 1⟩, [0x61])]) = true := by decide +kernel
  rw [Option.any_eq_true] at hlost hstolen
  obtain ⟨t, ht, hdec⟩ := hlost
  obtain ⟨u, hu, hdec'⟩ := hstolen
  refine ⟨⟨t, ht, fun hless => ?_⟩, u, hu, fun hless => ?_⟩
  · obtain ⟨hheard, hgiven, hlen⟩ := of_decide_eq_true hdec
    have htext := congrArg List.length hless.text
    rw [hgiven, length_append, RingBuffer.length_toList, hheard, hlen] at htext
    cases htext
  · obtain ⟨hissued, hgiven⟩ := of_decide_eq_true hdec'
    have horder := hless.order
    rw [hissued, hgiven] at horder
    simp at horder

end Session

end Archis.Io.Drivers
