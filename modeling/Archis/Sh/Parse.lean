/-
  The parser of the shell (`userspace/sh/parse.c`).

  Strings are lists of bytes without the terminating NUL, and a position in one is the rest of it.  A function is none
  where the code returns -1.
-/
import Mathlib

namespace Archis.Sh

abbrev Str := List UInt8

def SH_LINE_BUF : ℕ := 256
def SH_WORD_BUF : ℕ := 256
def SH_MAX_TOKENS : ℕ := 64
def SH_MAX_ARGS : ℕ := 16
def SH_MAX_STAGES : ℕ := 8
def SH_MAX_REDIRECTS : ℕ := 4
def SH_MAX_CHAIN : ℕ := 8

structure Env where
  getenv : Str → Option Str
  /-- Does the allocation with this number succeed? -/
  malloc : ℕ → Bool

/-! ## Characters -/

def isspace (c : UInt8) : Bool := c = 32 || c = 9 || c = 10 || c = 13 || c = 12 || c = 11

def isdigit (c : UInt8) : Bool := 48 ≤ c && c ≤ 57

def isalnum (c : UInt8) : Bool := (65 ≤ c && c ≤ 90) || (97 ≤ c && c ≤ 122) || isdigit c

def PIPE : UInt8 := 124
def AMP : UInt8 := 38
def LESS : UInt8 := 60
def GREATER : UInt8 := 62
def DOLLAR : UInt8 := 36
def UNDERSCORE : UInt8 := 95
def BRACE_OPEN : UInt8 := 123
def BRACE_CLOSE : UInt8 := 125

/-- `is_word_end`, for a character that is not NUL. -/
def isWordEnd (c : UInt8) : Bool := isspace c || c = PIPE || c = GREATER || c = LESS || c = AMP

/-- `parse_ull` with base 10, for a string that begins with a digit. -/
def parseUll (s : Str) : ℕ := (s.takeWhile isdigit).foldl (fun r d => (r * 10 + (d.toNat - 48)) % 2 ^ 64) 0

/-- `atoi`: the low 32 bits, with their sign. -/
def atoi (s : Str) : ℤ := Int.bmod (parseUll s) (2 ^ 32)

/-! ## Words -/

/-- The name of a variable after the `$`, and the rest. -/
def scanName : Str → Str × Str
  | [] => ([], [])
  | c :: q =>
    if c = BRACE_OPEN then
      let name := (q.takeWhile (· ≠ BRACE_CLOSE)).take 63
      let r := q.drop name.length
      (name, if r.head? = some BRACE_CLOSE then r.tail else r)
    else
      let name := ((c :: q).takeWhile fun c => isalnum c || c = UNDERSCORE).take 63
      (name, (c :: q).drop name.length)

def Env.value (env : Env) (name : Str) : Str := if name = [] then [] else (env.getenv name).getD []

/-- A character is appended to the buffer, if there is room. -/
def push (buf : Str) (c : UInt8) : Str := if buf.length < SH_WORD_BUF - 1 then buf ++ [c] else buf

/-- `scan_word`: the expanded text after what is in `buf`, and the rest. -/
def scanWord (env : Env) : ℕ → Str → Str → Str × Str
  | 0, p, buf => (buf, p)
  | _ + 1, [], buf => (buf, [])
  | fuel + 1, c :: q, buf =>
    if isWordEnd c then (buf, c :: q)
    else if c = DOLLAR then
      scanWord env fuel (scanName q).2 ((env.value (scanName q).1).foldl push buf)
    else scanWord env fuel q (push buf c)

/-! ## Tokens -/

inductive RedirKind
  | trunc
  | append
  | read
  | dupFd
deriving DecidableEq

inductive Token
  | word (text : Str)
  | pipe
  | redir (fd : ℤ) (kind : RedirKind) (dupTargetFd : ℤ)
deriving DecidableEq

/-- What follows `>&` and `<&`. -/
def scanDup (kind : RedirKind) (p : Str) : RedirKind × ℤ × Str :=
  if p.takeWhile isdigit = [] then (kind, -1, p) else (.dupFd, atoi p, p.dropWhile isdigit)

def scanRedir (p : Str) : Option ((ℤ × RedirKind × ℤ) × Str) :=
  let fd (default : ℤ) := if p.takeWhile isdigit = [] then default else atoi p
  match p.dropWhile isdigit with
  | [] => none
  | c :: q =>
    if c = GREATER then
      if q.head? = some GREATER then some ((fd 1, .append, -1), q.tail)
      else if q.head? = some AMP then
        let (kind, target, r) := scanDup .trunc q.tail
        some ((fd 1, kind, target), r)
      else some ((fd 1, .trunc, -1), q)
    else if c = LESS then
      if q.head? = some AMP then
        let (kind, target, r) := scanDup .read q.tail
        some ((fd 0, kind, target), r)
      else some ((fd 0, .read, -1), q)
    else none

/-- One token that is neither a pipe nor `&`: with the number of the next allocation, and the rest. -/
def scanToken (env : Env) (k : ℕ) (p : Str) : Option (Token × ℕ × Str) :=
  match scanRedir p with
  | some ((fd, kind, target), r) => some (.redir fd kind target, k, r)
  | none =>
    let (text, r) := scanWord env p.length p []
    if env.malloc k then some (.word text, k + 1, r) else none

/-- `tokenize`, with room for so many tokens; `k` is the number of the next allocation. -/
def tokenize (env : Env) : ℕ → ℕ → Str → Option (List Token × ℕ)
  | room, k, p =>
    match p.dropWhile isspace with
    | [] => some ([], k)
    | c :: q =>
      match room with
      | 0 => none
      | room + 1 =>
        if c = PIPE then (tokenize env room k q).map fun r => (.pipe :: r.1, r.2)
        else if c = AMP then none
        else (scanToken env k (c :: q)).bind fun t =>
          (tokenize env room t.2.1 t.2.2).map fun r => (t.1 :: r.1, r.2)

/-! ## Jobs -/

structure Redirect where
  fd : ℤ
  kind : RedirKind
  path : Option Str
  dupTargetFd : ℤ
deriving DecidableEq

/-- `stage_t`: the array `argv` with its `SH_MAX_ARGS + 1` pointers. -/
structure Stage where
  argv : List (Option Str)
  argc : ℕ
  redirects : List Redirect
deriving DecidableEq

namespace Stage

/-- A stage after `memset`. -/
def zero : Stage := ⟨List.replicate (SH_MAX_ARGS + 1) none, 0, []⟩

/-- `st->argv[st->argc] = NULL`. -/
def close (st : Stage) : Stage := { st with argv := st.argv.set st.argc none }

def addArg (st : Stage) (w : Str) : Stage := { st with argv := st.argv.set st.argc (some w), argc := st.argc + 1 }

def addRedirect (st : Stage) (r : Redirect) : Stage := { st with redirects := st.redirects ++ [r] }

end Stage

/-- `build_job`: `st` is the current stage, `done` are those before. -/
def buildJob : List Token → List Stage → Stage → Option (List Stage)
  | [], done, st => some (done ++ [st.close])
  | .pipe :: ts, done, st =>
    if done.length + 1 ≥ SH_MAX_STAGES then none else buildJob ts (done ++ [st.close]) .zero
  | .redir fd kind target :: ts, done, st =>
    if st.redirects.length ≥ SH_MAX_REDIRECTS then none
    else if kind = .dupFd then buildJob ts done (st.addRedirect ⟨fd, kind, none, target⟩)
    else match ts with
      | .word w :: ts => buildJob ts done (st.addRedirect ⟨fd, kind, some w, target⟩)
      | _ => none
  | .word w :: ts, done, st =>
    if st.argc ≥ SH_MAX_ARGS then none else buildJob ts done (st.addArg w)

abbrev Job := List Stage

def parseSegment (env : Env) (k : ℕ) (seg : Str) : Option (Job × ℕ) :=
  (tokenize env SH_MAX_TOKENS k seg).bind fun r =>
    if r.1 = [] then none else (buildJob r.1 [] .zero).map fun job => (job, r.2)

/-! ## Lines -/

/-- The text up to the first `&&`, and what follows it. -/
def cutAmp : Str → Str × Option Str
  | [] => ([], none)
  | [c] => ([c], none)
  | c :: d :: r => if c = AMP ∧ d = AMP then ([], some r) else (c :: (cutAmp (d :: r)).1, (cutAmp (d :: r)).2)

/-- The loop of `parse_line`, with room for so many jobs. -/
def parseChain (env : Env) : ℕ → ℕ → Str → Option (List Job)
  | 0, _, _ => none
  | room + 1, k, p =>
    (parseSegment env k (cutAmp p).1).bind fun r =>
      match (cutAmp p).2 with
      | none => some [r.1]
      | some rest => (parseChain env room r.2 rest).map (r.1 :: ·)

def rtrim (s : Str) : Str := (s.reverse.dropWhile isspace).reverse

/-- The line in the buffer without a trailing `&`, and whether there is one. -/
def stripLine (raw : Str) : Str × Bool :=
  let line := rtrim (raw.take (SH_LINE_BUF - 1))
  if line.getLast? = some AMP then (rtrim line.dropLast, true) else (line, false)

inductive Parsed
  | runnable (jobs : List Job) (background : Bool)
  | empty
  | error

/-- `parse_line`: 0, 1 or -1. -/
def parseLine (env : Env) (raw : Str) : Parsed :=
  if (stripLine raw).1 = [] then .empty
  else match parseChain env SH_MAX_CHAIN 0 (stripLine raw).1 with
    | none => .error
    | some jobs => .runnable jobs (stripLine raw).2

end Archis.Sh
