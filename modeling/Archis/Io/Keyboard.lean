/-
  `keyboard_isr` of i8042: the bytes of the keyboard become keystrokes.

  A key sends its code, some keys after an `E0`; Pause sends six bytes, `E1 1D 45 E1 9D C5`.  `queued_iff`: each key event
  gives its keystroke and a Pause none, exactly if no key event comes after a Pause and the queue has room.
-/
import Archis.Io.Drivers
import Archis.Lib.Run

namespace Archis.Io.Drivers

open Archis.Lib List

/-! ## The interrupt routine -/

def MOD_ALT : UInt8 := 4
def MOD_NUMLOCK : UInt8 := 16
def SC_CTRL : UInt8 := 0x1D
def SC_LSHIFT : UInt8 := 0x2A
def SC_RSHIFT : UInt8 := 0x36
def SC_ALT : UInt8 := 0x38
def SC_CAPSLOCK : UInt8 := 0x3A
def SC_NUMLOCK : UInt8 := 0x45

/-- The characters of the codes, without the zeros at the end of the table. -/
def SCANCODE_MAP : List UInt8 :=
  [0, 0x1B] ++ "1234567890-=".toUTF8.toList ++ [0x08, 0x09] ++ "qwertyuiop[]\n".toUTF8.toList ++ [0] ++
    "asdfghjkl;'`".toUTF8.toList ++ [0] ++ "\\zxcvbnm,./".toUTF8.toList ++ [0] ++ "*".toUTF8.toList ++ [0] ++
    " ".toUTF8.toList ++ replicate 13 0 ++ "789-456+1230.".toUTF8.toList

/-- The context of i8042 with what the interrupt routine keeps from byte to byte. -/
structure Keyboard where
  ctx : I8042Ctx
  extendedPrefix : Bool
  pauseSkip : ℕ
  ctrlHeld : Bool
  shiftHeld : Bool
  altHeld : Bool
  capsLock : Bool
  numLock : Bool

namespace Keyboard

def currentModifiers (k : Keyboard) : UInt8 :=
  (if k.ctrlHeld then MOD_CTRL else 0) ||| (if k.shiftHeld then MOD_SHIFT else 0) |||
    (if k.altHeld then MOD_ALT else 0) ||| (if k.capsLock then MOD_CAPSLOCK else 0) |||
    (if k.numLock then MOD_NUMLOCK else 0)

def track (k : Keyboard) (scancode : UInt8) (extended isRelease : Bool) : Keyboard :=
  if scancode = SC_CTRL then { k with ctrlHeld := !isRelease }
  else if (scancode = SC_LSHIFT || scancode = SC_RSHIFT) && !extended then { k with shiftHeld := !isRelease }
  else if scancode = SC_ALT then { k with altHeld := !isRelease }
  else if scancode = SC_CAPSLOCK && !isRelease then { k with capsLock := !k.capsLock }
  else if scancode = SC_NUMLOCK && !isRelease && !extended then { k with numLock := !k.numLock }
  else k

def ksFlags (isRelease extended : Bool) : UInt8 := isRelease.toUInt8 ||| (extended.toUInt8 <<< 1)

/-- A keystroke enters the queue for the worker. -/
def push (k : Keyboard) (ks : Keystroke) : Keyboard :=
  { k with ctx := { k.ctx with scPending := k.ctx.scPending.push ks } }

/-- `keyboard_isr`, for the byte that it reads from the port. -/
def keyboardIsr (k : Keyboard) (rawSc : UInt8) : Keyboard :=
  if rawSc = 0xE0 then { k with extendedPrefix := true }
  else if rawSc = 0xE1 then { k with pauseSkip := 5 }
  else if k.pauseSkip > 0 then { k with pauseSkip := k.pauseSkip - 1 }
  else
    let extended := k.extendedPrefix
    let isRelease : Bool := rawSc &&& 0x80 ≠ 0
    let scancode := rawSc &&& 0x7F
    let k := { k with extendedPrefix := false }.track scancode extended isRelease
    k.push {
      scancode
      ascii := (SCANCODE_MAP[scancode.toNat]?).getD 0
      flags := ksFlags isRelease extended
      modifiers := k.currentModifiers }

/-- The keystrokes that `keyboard_dw` takes from the queue. -/
def batch (k : Keyboard) : List Keystroke := k.ctx.scPending.peekInto k.ctx.scPending.len

def keyboardDw (k : Keyboard) : Keyboard := { k with ctx := k.ctx.keyboardDw.1 }

end Keyboard

/-! ## Events -/

structure KeyCode where
  val : UInt8
  ne : val ≠ 0xE0 ∧ val ≠ 0xE1

inductive KeyEvent where
  | key (extended : Bool) (code : KeyCode)
  | pause

namespace KeyEvent

def bytes : KeyEvent → List UInt8
  | key false code => [code.val]
  | key true code => [0xE0, code.val]
  | pause => [0xE1, 0x1D, 0x45, 0xE1, 0x9D, 0xC5]

/-- The scancode and the flags that the event stands for. -/
def keystroke : KeyEvent → Option (UInt8 × UInt8)
  | key extended code => some (code.val &&& 0x7F, Keyboard.ksFlags (code.val &&& 0x80 ≠ 0) extended)
  | pause => none

end KeyEvent

/-- What happens to the keyboard: an event, byte by byte, or a run of the worker. -/
inductive Feed where
  | event (e : KeyEvent)
  | worker

namespace Feed

def isKey : Feed → Bool
  | event (.key _ _) => true
  | event .pause | worker => false

def keystroke : Feed → Option (UInt8 × UInt8)
  | event e => e.keystroke
  | worker => none

end Feed

def Keystroke.tag (ks : Keystroke) : UInt8 × UInt8 := (ks.scancode, ks.flags)

namespace Keyboard

section
variable (k : Keyboard)

def queue : List Keystroke := k.ctx.scPending.toList

def feed (e : KeyEvent) : Keyboard := e.bytes.foldl keyboardIsr k

def step : Feed → Keyboard
  | .event e => k.feed e
  | .worker => k.keyboardDw

/-- All keystrokes that have been in the queue: those that the worker took, and those still there. -/
def queued : Keyboard → List Feed → List Keystroke
  | k, [] => k.queue
  | k, .event e :: l => queued (k.feed e) l
  | k, .worker :: l => k.batch ++ queued k.keyboardDw l

def Room (f : Feed) : Prop := f.isKey → k.ctx.scPending.len < SC_PENDING_SIZE

def Idle : Prop := k.extendedPrefix = false ∧ k.pauseSkip = 0

end

variable {k : Keyboard} {l : List Feed}

/-! ## One byte -/

theorem track_same (scancode : UInt8) (extended isRelease : Bool) :
    (k.track scancode extended isRelease).ctx = k.ctx ∧
    (k.track scancode extended isRelease).extendedPrefix = k.extendedPrefix ∧
    (k.track scancode extended isRelease).pauseSkip = k.pauseSkip := by
  unfold track
  split_ifs <;> exact ⟨rfl, rfl, rfl⟩

theorem isr_skip {b : KeyCode} (h : 0 < k.pauseSkip) :
    k.keyboardIsr b.val = { k with pauseSkip := k.pauseSkip - 1 } := by
  rw [keyboardIsr, if_neg b.ne.1, if_neg b.ne.2, if_pos h]

theorem isr_key {b : KeyCode} (h : k.pauseSkip = 0) :
    ∃ ks : Keystroke, (k.keyboardIsr b.val).ctx.scPending = k.ctx.scPending.push ks ∧
      ks.tag = (b.val &&& 0x7F, ksFlags (b.val &&& 0x80 ≠ 0) k.extendedPrefix) ∧ (k.keyboardIsr b.val).Idle := by
  rw [keyboardIsr, if_neg b.ne.1, if_neg b.ne.2, if_neg (by omega)]
  have hk := @track_same { k with extendedPrefix := false } (b.val &&& 0x7F) k.extendedPrefix
    (b.val &&& 0x80 ≠ 0)
  exact ⟨_, congrArg (I8042Ctx.scPending · |>.push _) hk.1, rfl, hk.2.1, hk.2.2.trans h⟩

/-! ## Whole events -/

/-- **A key event** gives its keystroke. -/
theorem feed_key (hk : k.Idle) (x : Bool) (c : KeyCode) :
    ∃ ks : Keystroke, (k.feed (.key x c)).ctx.scPending = k.ctx.scPending.push ks ∧
      some ks.tag = (KeyEvent.key x c).keystroke ∧ (k.feed (.key x c)).Idle := by
  obtain ⟨hx, hs⟩ := hk
  cases x with
  | false =>
    obtain ⟨ks, hq, ht, hi⟩ := isr_key (b := c) hs
    exact ⟨ks, hq, by rw [ht, hx]; rfl, hi⟩
  | true =>
    have hs' : ({ k with extendedPrefix := true } : Keyboard).pauseSkip = 0 := hs
    obtain ⟨ks, hq, ht, hi⟩ := isr_key (b := c) hs'
    exact ⟨ks, hq, by rw [ht]; rfl, hi⟩

/-- **After a Pause** three bytes are still to be skipped. -/
theorem feed_pause : (k.feed .pause).queue = k.queue ∧ (k.feed .pause).pauseSkip = 3 := ⟨rfl, rfl⟩

theorem feed_skip (h : 0 < k.pauseSkip) (x : Bool) (c : KeyCode) : (k.feed (.key x c)).queue = k.queue := by
  cases x with
  | false =>
    show (k.keyboardIsr c.val).queue = _
    rw [isr_skip h]
    rfl
  | true =>
    have h' : 0 < ({ k with extendedPrefix := true } : Keyboard).pauseSkip := h
    show (({ k with extendedPrefix := true } : Keyboard).keyboardIsr c.val).queue = _
    rw [isr_skip h']
    rfl

theorem length_queue_push {ks : Keystroke} : (k.push ks).queue.length ≤ k.queue.length + 1 := by
  rw [queue, push, queue]
  by_cases h : k.ctx.scPending.len < SC_PENDING_SIZE
  · rw [RingBuffer.toList_push _ h, length_append, length_singleton]
  · rw [RingBuffer.push_of_full _ h]
    exact Nat.le_succ _

theorem length_feed_key (k : Keyboard) (x : Bool) (c : KeyCode) :
    (k.feed (.key x c)).queue.length ≤ k.queue.length + 1 := by
  -- the state of the routine when the code itself comes
  obtain ⟨t, ht, hq⟩ : ∃ t : Keyboard, k.feed (.key x c) = t.keyboardIsr c.val ∧ t.queue = k.queue := by
    cases x with
    | false => exact ⟨k, rfl, rfl⟩
    | true => exact ⟨{ k with extendedPrefix := true }, rfl, rfl⟩
  rw [ht, ← hq]
  by_cases hs : 0 < t.pauseSkip
  · rw [isr_skip hs]
    exact Nat.le_succ _
  · obtain ⟨ks, hpush, -⟩ := isr_key (b := c) (Nat.eq_zero_of_not_pos hs)
    rw [queue, hpush]
    exact length_queue_push (k := t)

/-! ## Runs -/

theorem batch_eq : k.batch = k.queue := by
  rw [batch, RingBuffer.peekInto_len, queue]

theorem queue_keyboardDw : k.keyboardDw.queue = [] := by
  have h : k.keyboardDw.ctx.scPending = k.ctx.scPending.advance k.ctx.scPending.len := rfl
  rw [queue, h, RingBuffer.toList_advance, ← RingBuffer.length_toList, drop_length]

theorem length_queued_le : ∀ (k : Keyboard) (l : List Feed),
    (queued k l).length ≤ k.queue.length + l.countP Feed.isKey
  | k, [] => by rw [queued, countP_nil, Nat.add_zero]
  | k, .worker :: l => by
    have ih := length_queued_le k.keyboardDw l
    rw [queue_keyboardDw, length_nil] at ih
    rw [queued, length_append, batch_eq, countP_cons_of_neg (by simp [Feed.isKey])]
    omega
  | k, .event .pause :: l => by
    have ih := length_queued_le (k.feed .pause) l
    rw [feed_pause.1] at ih
    rwa [queued, countP_cons_of_neg (by simp [Feed.isKey])]
  | k, .event (.key x c) :: l => by
    have ih := length_queued_le (k.feed (.key x c)) l
    have hkey := length_feed_key k x c
    rw [queued, countP_cons_of_pos (by rfl)]
    omega

theorem length_queued_lt : ∀ {k : Keyboard} {l : List Feed}, 0 < k.pauseSkip → (∃ f ∈ l, f.isKey) →
    (queued k l).length < k.queue.length + l.countP Feed.isKey
  | _, [], _, hf => by simp at hf
  | k, .worker :: l, hs, hf => by
    have hs' : 0 < k.keyboardDw.pauseSkip := hs
    have ih := length_queued_lt hs' (by simpa [Feed.isKey] using hf)
    rw [queue_keyboardDw, length_nil] at ih
    rw [queued, length_append, batch_eq, countP_cons_of_neg (by simp [Feed.isKey])]
    omega
  | k, .event .pause :: l, _, hf => by
    have ih := length_queued_lt (k := k.feed .pause) (by rw [feed_pause.2]; decide)
      (by simpa [Feed.isKey] using hf)
    rw [feed_pause.1] at ih
    rwa [queued, countP_cons_of_neg (by simp [Feed.isKey])]
  | k, .event (.key x c) :: l, hs, _ => by
    have hle := length_queued_le (k.feed (.key x c)) l
    rw [feed_skip hs] at hle
    rw [queued, countP_cons_of_pos (by rfl)]
    omega

theorem length_filterMap_keystroke (l : List Feed) : (l.filterMap Feed.keystroke).length = l.countP Feed.isKey := by
  induction l with
  | nil => rfl
  | cons f l ih =>
    rw [filterMap_cons, countP_cons]
    rcases f with ⟨_ | _⟩ | _ <;> simp [Feed.keystroke, KeyEvent.keystroke, Feed.isKey, ih]

/-- Each event up to the end of the run has given its keystroke, and nothing else is in the queue. -/
def Framed (k : Keyboard) (l : List Feed) : Prop :=
  (queued k l).map Keystroke.tag = k.queue.map Keystroke.tag ++ l.filterMap Feed.keystroke

theorem Framed.length (h : Framed k l) : (queued k l).length = k.queue.length + l.countP Feed.isKey := by
  have := congrArg List.length h
  simpa only [length_map, length_append, length_filterMap_keystroke] using this

theorem framed_of_noKey : ∀ {k : Keyboard} {l : List Feed}, (∀ f ∈ l, f.isKey = false) → Framed k l
  | k, [], _ => by simp [Framed, queued]
  | k, .worker :: l, h => by
    have ih : Framed k.keyboardDw l := framed_of_noKey fun f hf => h f (by simp [hf])
    rw [Framed, queue_keyboardDw] at ih
    rw [Framed, queued, map_append, batch_eq, ih]
    rfl
  | k, .event .pause :: l, h => by
    have ih : Framed (k.feed .pause) l := framed_of_noKey fun f hf => h f (by simp [hf])
    rw [Framed, feed_pause.1] at ih
    exact ih
  | k, .event (.key x c) :: l, h => absurd (h (.event (.key x c)) (by simp)) (by simp [Feed.isKey])

theorem framed_worker : Framed k (.worker :: l) ↔ Framed k.keyboardDw l := by
  rw [Framed, queued, Framed, queue_keyboardDw, map_append, batch_eq]
  exact append_right_inj _

theorem framed_key (hk : k.Idle) (hroom : k.ctx.scPending.len < SC_PENDING_SIZE) (x : Bool) (c : KeyCode) :
    Framed k (.event (.key x c) :: l) ↔ Framed (k.feed (.key x c)) l := by
  obtain ⟨ks, hpush, htag, -⟩ := feed_key hk x c
  have hqueue : (k.feed (.key x c)).queue = k.queue ++ [ks] := by
    rw [queue, hpush, RingBuffer.toList_push _ hroom, queue]
  rw [Framed, Framed, queued, hqueue, filterMap_cons_some (by exact htag.symm), map_append,
    append_assoc, map_singleton, singleton_append]

theorem not_framed_of_full (hk : k.Idle) (hfull : ¬ k.ctx.scPending.len < SC_PENDING_SIZE) (x : Bool) (c : KeyCode) :
    ¬ Framed k (.event (.key x c) :: l) := by
  intro h
  obtain ⟨ks, hpush, -⟩ := feed_key hk x c
  have hqueue : (k.feed (.key x c)).queue = k.queue := by rw [queue, hpush, RingBuffer.push_of_full _ hfull, queue]
  have hlen := h.length
  have hle := length_queued_le (k.feed (.key x c)) l
  rw [queued, countP_cons_of_pos (by rfl)] at hlen
  rw [hqueue] at hle
  omega

/-- **Scancode framing**: every key event has given exactly its keystroke, and every Pause none, exactly if no
key event comes after a Pause and each finds room in the queue. -/
theorem queued_iff (hk : k.Idle) : Framed k l ↔
    l.Pairwise (fun f g => f = .event .pause → g.isKey = false) ∧ Along (fun k f => some (step k f)) Room k l := by
  induction l generalizing k with
  | nil => simp [Framed, queued, Along]
  | cons f l ih =>
    simp only [pairwise_cons, Along, Option.some.injEq, forall_eq']
    rcases f with ⟨x, c⟩ | _ | _
    · -- a key: the queue decides, and then the rest of the run
      by_cases hroom : k.ctx.scPending.len < SC_PENDING_SIZE
      · rw [framed_key hk hroom, ih (feed_key hk x c).choose_spec.2.2]
        simp [Room, hroom, step]
      · simp only [not_framed_of_full hk hroom, false_iff]
        exact fun h => hroom (h.2.1 rfl)
    · -- a Pause: no key may come any more
      by_cases hkey : ∃ f ∈ l, f.isKey
      · have hlt := length_queued_lt (k := k.feed .pause) (by rw [feed_pause.2]; decide) hkey
        rw [feed_pause.1] at hlt
        refine iff_of_false (fun h => ?_) fun h => ?_
        · have hlen := h.length
          rw [queued, countP_cons_of_neg (by simp [Feed.isKey])] at hlen
          omega
        · obtain ⟨f, hf, hfkey⟩ := hkey
          rw [h.1.1 f hf rfl] at hfkey
          cases hfkey
      · have hno : ∀ f ∈ l, f.isKey = false := fun f hf => by
          rw [← Bool.not_eq_true]
          exact fun h => hkey ⟨f, hf, h⟩
        refine iff_of_true (framed_of_noKey (by simpa [Feed.isKey] using hno)) ⟨⟨fun g hg _ => hno g hg, ?_⟩, ?_, ?_⟩
        · exact pairwise_of_forall_mem_list fun f _ g hg _ => hno g hg
        · exact fun h => by cases h
        · exact .of_forall fun f hf _ h => by rw [hno f hf] at h; cases h
    · rw [framed_worker, ih (k := k.keyboardDw) hk]
      simp [Room, Feed.isKey, step]

def fresh : Keyboard where
  ctx := ⟨RingBuffer.new noKeystroke, RingBuffer.new noKeystroke, []⟩
  extendedPrefix := false
  pauseSkip := 0
  ctrlHeld := false
  shiftHeld := false
  altHeld := false
  capsLock := false
  numLock := false

def keyA : KeyEvent := .key false ⟨0x1E, by decide⟩

theorem queued_keys : Framed fresh [.event keyA, .worker, .event (.key true ⟨0xC8, by decide⟩), .event .pause] :=
  (queued_iff ⟨rfl, rfl⟩).2 ⟨by simp [keyA], by simp [Along, Room, Feed.isKey]; decide⟩

theorem pause_loses_key : fresh.Idle ∧ queued fresh [.event .pause, .event keyA] = [] ∧
    ¬ Framed fresh [.event .pause, .event keyA] := by
  have hlost : queued fresh [.event .pause, .event keyA] = [] := rfl
  refine ⟨⟨rfl, rfl⟩, hlost, fun h => ?_⟩
  rw [Framed, hlost] at h
  exact absurd (congrArg List.length h) (by decide)

end Keyboard

end Archis.Io.Drivers
