/-
  Paths and mount points: `normalize_path` and `make_absolute` of `fs/vfs.rs`, `lookup_mp` and `to_absolute` of
  `fs/mount.rs`.

  Sizes and cuts are in bytes, as `str` has them, and a cut inside a character is a panic (the outer `none` of
  `lookupMp`).  `paths_decompose`: a normalised path is canonical, and is taken apart at the longest mount point.
-/
import Archis.Lib.Path

namespace Archis.Fs

open Archis.Lib List

/-! ## Normal forms -/

/-- The loop of `normalize_path`, for one segment. -/
def pushSeg (parts : List (List Char)) (seg : List Char) : List (List Char) :=
  if seg = [] ∨ seg = ['.'] then parts
  else if seg = ['.', '.'] then parts.dropLast
  else parts ++ [seg]

def normalizePath (path : List Char) : List Char := render ((path.splitOn '/').foldl pushSeg [])

def makeAbsolute (cwd path : List Char) : List Char :=
  if path.head? = some '/' then normalizePath path else normalizePath (cwd ++ '/' :: path)

/-- Absolute, no empty name, `.` or `..`, and no slash at the end but that of the root. -/
def Canonical (path : List Char) : Prop :=
  (∀ c ∈ components path, c ≠ ['.'] ∧ c ≠ ['.', '.']) ∧ path = render (components path)

instance (path : List Char) : Decidable (Canonical path) := inferInstanceAs (Decidable (_ ∧ _))

def enter (dir seg : List Char) : List Char :=
  if seg = [] ∨ seg = ['.'] then dir
  else if seg = ['.', '.'] then render (components dir).dropLast
  else render (components dir ++ [seg])

def Plain (parts : List (List Char)) : Prop := ∀ c ∈ parts, IsName c ∧ c ≠ ['.'] ∧ c ≠ ['.', '.']

section
variable {p seg : List Char} {parts segs : List (List Char)}

theorem Plain.pushSeg (h : Plain parts) (hseg : '/' ∉ seg) : Plain (pushSeg parts seg) := by
  unfold Fs.pushSeg
  split_ifs with h0 h1
  · exact h
  · exact fun c hc => h c (mem_of_mem_dropLast hc)
  rw [not_or] at h0
  intro c hc
  rcases mem_append.1 hc with hc | hc
  · exact h c hc
  · rw [mem_singleton.1 hc]
    exact ⟨⟨h0.1, hseg⟩, h0.2, h1⟩

theorem Plain.foldl (h : Plain parts) (hsegs : ∀ seg ∈ segs, '/' ∉ seg) : Plain (segs.foldl Fs.pushSeg parts) := by
  induction segs generalizing parts with
  | nil => exact h
  | cons seg segs ih =>
    exact ih (h.pushSeg (hsegs seg (by simp))) fun s hs => hsegs s (.tail _ hs)

theorem Plain.isName (h : Plain parts) : ∀ c ∈ parts, IsName c := fun c hc => (h c hc).1

theorem Plain.canonical (h : Plain parts) : Canonical (render parts) := by
  rw [Canonical, components_render h.isName]
  exact ⟨fun c hc => (h c hc).2, rfl⟩

theorem Canonical.plain (h : Canonical p) : Plain (components p) :=
  fun c hc => ⟨isName_of_mem_components hc, h.1 c hc⟩

theorem foldl_pushSeg_splitOn (p : List Char) :
    (p.splitOn '/').foldl pushSeg parts = (components p).foldl pushSeg parts := by
  rw [components, foldl_filter]
  congr 1
  funext x y
  by_cases hy : y = [] <;> simp [pushSeg, hy]

theorem Plain.foldl_eq (h : Plain segs) (parts : List (List Char)) : segs.foldl Fs.pushSeg parts = parts ++ segs := by
  induction segs generalizing parts with
  | nil => exact (append_nil _).symm
  | cons seg segs ih =>
    have hseg := h seg (by simp)
    rw [foldl_cons, ih fun c hc => h c (.tail _ hc), Fs.pushSeg,
      if_neg (not_or.2 ⟨hseg.1.1, hseg.2.1⟩), if_neg hseg.2.2, append_assoc]
    rfl

theorem plain_parts (p : List Char) : Plain ((p.splitOn '/').foldl pushSeg []) :=
  Plain.foldl nofun fun _ h => notMem_of_mem_splitOn h

theorem Canonical.normalizePath_eq (h : Canonical p) : normalizePath p = p := by
  rw [normalizePath, foldl_pushSeg_splitOn, h.plain.foldl_eq, nil_append, ← h.2]

theorem Plain.foldl_enter (h : Plain parts) (hsegs : ∀ seg ∈ segs, '/' ∉ seg) :
    segs.foldl enter (render parts) = render (segs.foldl Fs.pushSeg parts) := by
  induction segs generalizing parts with
  | nil => rfl
  | cons seg segs ih =>
    have hstep : enter (render parts) seg = render (Fs.pushSeg parts seg) := by
      rw [enter, components_render h.isName, Fs.pushSeg]
      split_ifs <;> rfl
    rw [foldl_cons, foldl_cons, hstep,
      ih (h.pushSeg (hsegs seg (by simp))) fun s hs => hsegs s (.tail _ hs)]

theorem makeAbsolute_eq_enter (cwd : List Char) (hp : p.head? ≠ some '/') :
    makeAbsolute cwd p = (p.splitOn '/').foldl enter (normalizePath cwd) := by
  rw [makeAbsolute, if_neg hp, normalizePath, foldl_pushSeg_splitOn, components_append_slash, foldl_append,
    ← foldl_pushSeg_splitOn, ← foldl_pushSeg_splitOn, normalizePath,
    (plain_parts cwd).foldl_enter fun _ => notMem_of_mem_splitOn]

end

/-! ## Mount points -/

structure MountEntry (β : Type) where
  mountPoint : List Char
  backend : β

/-- `str::len`. -/
def byteLen (s : List Char) : ℕ := (s.map Char.utf8Size).sum

/-- The text from byte `n` on; `none` if that is inside a character or past the end. -/
def strFrom : ℕ → List Char → Option (List Char)
  | 0, s => some s
  | _ + 1, [] => none
  | n + 1, c :: s => if c.utf8Size ≤ n + 1 then strFrom (n + 1 - c.utf8Size) s else none

/-- The test of `lookup_mp`. -/
def covers (mp absPath : List Char) : Bool :=
  if mp = ['/'] then true else absPath == mp || (mp ++ ['/']).isPrefixOf absPath

/-- `lookup_mp`: the backend, the path there and the mount point. -/
def lookupMp {β : Type} (mounts : List (MountEntry β)) (absPath : List Char) :
    Option (Option (β × List Char × List Char)) :=
  let best := mounts.foldl (fun best entry =>
    if covers entry.mountPoint absPath then
      match best with
      | none => some entry
      | some b => if byteLen b.mountPoint < byteLen entry.mountPoint then some entry else some b
    else best) none
  match best with
  | none => some none
  | some e =>
    if e.mountPoint = ['/'] then some (some (e.backend, absPath, e.mountPoint))
    else (strFrom (byteLen e.mountPoint) absPath).map fun stripped =>
      some (e.backend, if stripped = [] then ['/'] else stripped, e.mountPoint)

def toAbsolute (mountPoint rel : List Char) : List Char :=
  if mountPoint = ['/'] then rel
  else if rel = ['/'] then mountPoint
  else mountPoint ++ rel

/-- A table of distinct canonical mount points, with the root. -/
structure MountTable (β : Type) where
  mounts : List (MountEntry β)
  distinct : (mounts.map (·.mountPoint)).Nodup
  canonical : ∀ e ∈ mounts, Canonical e.mountPoint
  root : ['/'] ∈ mounts.map (·.mountPoint)

section
variable {β : Type} {p mp mp' : List Char} {mounts : List (MountEntry β)}

theorem strFrom_append (a b : List Char) : strFrom (byteLen a) (a ++ b) = some b := by
  induction a with
  | nil => cases b <;> rfl
  | cons c a ih =>
    have hpos := Char.utf8Size_pos c
    have hlen : byteLen (c :: a) = c.utf8Size - 1 + byteLen a + 1 := by
      rw [byteLen, map_cons, sum_cons, ← byteLen]
      omega
    rw [hlen, cons_append, strFrom, if_pos (by omega), ← ih]
    congr 1
    omega

theorem Canonical.exists_append (hp : Canonical p) (hmp : Canonical mp) (hroot : mp ≠ ['/'])
    (h : components mp <+: components p) : ∃ es, Plain es ∧ p = mp ++ es.flatMap fun c => '/' :: c := by
  obtain ⟨es, hes⟩ := h
  have hne : components mp ≠ [] := fun h0 => hroot (by rw [hmp.2, h0]; rfl)
  refine ⟨es, fun c hc => hp.plain c (hes ▸ mem_append_right _ hc), ?_⟩
  have hmp' := hmp.2
  rw [render, if_neg hne] at hmp'
  rw [hp.2, ← hes, render, if_neg (by simp [hne]), flatMap_append, ← hmp']

theorem flatMap_ne_slash {es : List (List Char)} (h : Plain es) : (es.flatMap fun c => '/' :: c) ≠ ['/'] := by
  cases es with
  | nil => simp
  | cons c es => simp [(h c (by simp)).1.1]

/-- **The test** asks for the names of the mount point at the start of those of the path. -/
theorem covers_iff (hp : Canonical p) (hmp : Canonical mp) : covers mp p = true ↔ components mp <+: components p := by
  unfold covers
  split_ifs with hroot
  · rw [hroot]
    exact iff_of_true rfl nil_prefix
  simp only [Bool.or_eq_true, beq_iff_eq, isPrefixOf_iff_prefix]
  constructor
  · rintro (rfl | ⟨q, rfl⟩)
    · exact prefix_rfl
    · rw [append_assoc, singleton_append, components_append_slash]
      exact prefix_append _ _
  · intro h
    obtain ⟨es, -, rfl⟩ := hp.exists_append hmp hroot h
    cases es with
    | nil => exact .inl (by simp)
    | cons c es => exact .inr ⟨c ++ es.flatMap fun c => '/' :: c, by simp⟩

/-- More names take more bytes. -/
theorem Canonical.byteLen_lt (h : Canonical mp) (h' : Canonical mp') (hpre : components mp <+: components mp')
    (hne : mp ≠ mp') : byteLen mp < byteLen mp' := by
  have hlen : ∀ a b : List Char, byteLen (a ++ b) = byteLen a + byteLen b := fun a b => by simp [byteLen]
  have hpos : ∀ c : Char, ∀ a, 0 < byteLen (c :: a) := fun c a => by
    have := Char.utf8Size_pos c
    simp only [byteLen, map_cons, sum_cons]
    omega
  by_cases hroot : mp = ['/']
  · -- a path that is not the root has a character behind its first slash
    have hne' : components mp' ≠ [] := fun h0 => hne (by rw [hroot, h'.2, h0]; rfl)
    obtain ⟨c, cs, hcs⟩ := exists_cons_of_ne_nil hne'
    obtain ⟨x, c, rfl⟩ := exists_cons_of_ne_nil (h'.plain c (by rw [hcs]; simp)).1.1
    rw [hroot, h'.2, hcs, render, if_neg (by simp), flatMap_cons, cons_append, ← singleton_append,
      hlen ['/']]
    exact Nat.lt_add_of_pos_right (hpos _ _)
  · obtain ⟨es, -, rfl⟩ := h'.exists_append h hroot hpre
    cases es with
    | nil => exact absurd (append_nil _).symm hne
    | cons c es =>
      rw [hlen]
      exact Nat.lt_add_of_pos_right (hpos _ _)

theorem foldl_best_eq (mounts : List (MountEntry β)) (p : List Char) : mounts.foldl (fun best entry =>
      if covers entry.mountPoint p then
        match best with
        | none => some entry
        | some b => if byteLen b.mountPoint < byteLen entry.mountPoint then some entry else some b
      else best) none
    = (mounts.filter fun e => covers e.mountPoint p).argmax fun e => byteLen e.mountPoint := by
  rw [argmax, foldl_filter]
  congr 1
  funext best entry
  cases best <;> rfl

theorem lookupMp_rel {e : MountEntry β} (hp : Canonical p) (he : Canonical e.mountPoint)
    (hpre : components e.mountPoint <+: components p)
    (hbest : ((mounts.filter fun e => covers e.mountPoint p).argmax fun e => byteLen e.mountPoint) = some e) :
    ∃ rel, lookupMp mounts p = some (some (e.backend, rel, e.mountPoint)) ∧ toAbsolute e.mountPoint rel = p := by
  simp only [lookupMp, foldl_best_eq, hbest]
  split_ifs with hroot
  · exact ⟨p, rfl, if_pos hroot⟩
  obtain ⟨es, hes, hpe⟩ := hp.exists_append he hroot hpre
  nth_rewrite 1 [hpe]
  rw [strFrom_append]
  refine ⟨_, rfl, ?_⟩
  rw [toAbsolute, if_neg hroot]
  split_ifs with h0 h1
  · rw [hpe, h0, append_nil]
  · exact absurd rfl h1
  · exact absurd ‹_› (flatMap_ne_slash hes)
  · exact hpe.symm

end

/-- **Normal forms** are canonical and idempotent, a relative path is followed name by name, and the mount point of a
canonical path is the one with the most names among those at its start. -/
theorem paths_decompose : (∀ p, Canonical (normalizePath p) ∧ normalizePath (normalizePath p) = normalizePath p) ∧
    (∀ cwd p : List Char, p.head? ≠ some '/' → makeAbsolute cwd p = normalizePath (cwd ++ '/' :: p) ∧
    makeAbsolute cwd p = (p.splitOn '/').foldl enter (normalizePath cwd)) ∧
    ∀ {β : Type} (t : MountTable β) (p : List Char), Canonical p → ∃ e ∈ t.mounts, ∃ rel, lookupMp t.mounts p = some
    (some (e.backend, rel, e.mountPoint)) ∧ toAbsolute e.mountPoint rel = p ∧ components e.mountPoint <+: components p
    ∧ ∀ e' ∈ t.mounts, components e'.mountPoint <+: components p → e'.mountPoint ≠ e.mountPoint →
    (components e'.mountPoint).length < (components e.mountPoint).length := by
  refine ⟨fun p => ?_, fun cwd p hp => ⟨if_neg hp, makeAbsolute_eq_enter cwd hp⟩, fun {β} t p hp => ?_⟩
  · have h := (plain_parts p).canonical
    exact ⟨h, h.normalizePath_eq⟩
  obtain ⟨r, hr, hroot⟩ := mem_map.1 t.root
  cases hbest : (t.mounts.filter fun e => covers e.mountPoint p).argmax fun e => byteLen e.mountPoint with
  | none =>
    have hnil := argmax_eq_none.1 hbest
    exact absurd (mem_filter.2 ⟨hr, by rw [hroot]; rfl⟩) (hnil ▸ not_mem_nil)
  | some e =>
    obtain ⟨hmem, hcov⟩ := mem_filter.1 (argmax_mem hbest)
    have he := t.canonical e hmem
    have hpre := (covers_iff hp he).1 hcov
    obtain ⟨rel, hrel, habs⟩ := lookupMp_rel hp he hpre hbest
    refine ⟨e, hmem, rel, hrel, habs, hpre, fun e' hmem' hpre' hne => ?_⟩
    have he' := t.canonical e' hmem'
    have hle := le_of_mem_argmax (mem_filter.2 ⟨hmem', (covers_iff hp he').2 hpre'⟩) hbest
    by_contra hlen
    have hpre'' := prefix_of_prefix_length_le hpre hpre' (not_lt.1 hlen)
    exact absurd (he.byteLen_lt he' hpre'' hne.symm) (not_lt.2 hle)

def nested : MountTable ℕ where
  mounts := [⟨['/'], 0⟩, ⟨['/', 'a'], 1⟩]
  distinct := by decide
  canonical := by decide
  root := by decide

theorem nested_decompose : lookupMp nested.mounts ['/', 'a', '/', 'b'] = some (some (1, ['/', 'b'], ['/', 'a'])) ∧
    lookupMp nested.mounts ['/', 'a', 'b'] = some (some (0, ['/', 'a', 'b'], ['/'])) ∧ makeAbsolute ['/', 'a'] ['.',
    '.', '/', 'b'] = ['/', 'b'] ∧ (∃ e ∈ nested.mounts, ∃ rel, lookupMp nested.mounts ['/', 'a',
    'b'] = some (some (e.backend, rel, e.mountPoint)) ∧ toAbsolute e.mountPoint rel = ['/', 'a', 'b']) ∧ makeAbsolute
    ['/', 'a'] ['b'] = ([['b']] : List (List Char)).foldl enter (normalizePath ['/', 'a']) := by
  obtain ⟨e, he, rel, hrel, habs, -⟩ := paths_decompose.2.2 nested ['/', 'a', 'b'] (by decide)
  exact ⟨by decide, by decide, by decide, ⟨e, he, rel, hrel, habs⟩,
    (paths_decompose.2.1 ['/', 'a'] ['b'] (by decide)).2⟩

end Archis.Fs
