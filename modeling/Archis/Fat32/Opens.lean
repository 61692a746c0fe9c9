/-
  Open files on a volume with a tree.

  `Registered`: the registered files are those with handles, each counted; `Opens`: the entry of a registered file is
  still in its place and holds its cluster and the low 32 bits of its size.  `Sound` is all of this and the tree.
-/
import Archis.Fat32.TreeEdit

namespace Archis.Fat32

open Archis.Lib
open Function (update update_apply update_of_ne update_self)

/-! ## Handles -/

def OpenFile.key (o : OpenFile) : Option (ℕ × ℕ) :=
  match o.kind with
  | .dir _ => none
  | .file => some (o.parentCluster, o.slotStart)

def handlesAt (v : Vol) (key : ℕ × ℕ) : ℕ :=
  ((Finset.range v.nextHandle).filter fun h => (v.handles h).bind OpenFile.key = some key).card

structure Registered (v : Vol) : Prop where
  fresh : ∀ h, v.nextHandle ≤ h → v.handles h = none
  count : ∀ key, handlesAt v key = (v.openFiles key).elim 0 (·.refcount)
  pos : ∀ key sh, v.openFiles key = some sh → 0 < sh.refcount

section
variable {v w : Vol} {h : ℕ} {o : OpenFile} {key : ℕ × ℕ}

theorem Registered.exists_shared (hr : Registered v) (ho : v.handles h = some o)
    (hk : o.key = some key) : ∃ sh, v.openFiles key = some sh := by
  have hlt : h < v.nextHandle := by
    by_contra hle
    rw [hr.fresh h (by omega)] at ho; cases ho
  have h1 : 0 < handlesAt v key := by
    rw [handlesAt, Finset.card_pos]
    exact ⟨h, by simp [hlt, ho, hk]⟩
  rw [hr.count] at h1
  cases hs : v.openFiles key with
  | none => rw [hs] at h1; exact absurd h1 (by simp)
  | some sh => exact ⟨sh, rfl⟩

theorem Registered.congr (hr : Registered v) (hs : SameFiles v w) : Registered w := by
  refine ⟨fun h hh => ?_, fun key => ?_, fun key sh hk => ?_⟩
  · rw [hs.handles]; exact hr.fresh h (by rw [← hs.nextHandle]; exact hh)
  · rw [handlesAt, hs.handles, hs.nextHandle, hs.openFiles]; exact hr.count key
  · rw [hs.openFiles] at hk; exact hr.pos key sh hk

theorem handlesAt_newHandle (o : OpenFile) (v : Vol) (key : ℕ × ℕ) :
    handlesAt (newHandle o v) key = handlesAt v key + if o.key = some key then 1 else 0 := by
  have h1 : ((Finset.range v.nextHandle).filter fun h =>
      (update v.handles v.nextHandle (some o) h).bind OpenFile.key = some key) =
      (Finset.range v.nextHandle).filter fun h => (v.handles h).bind OpenFile.key = some key := by
    refine Finset.filter_congr fun h hh => ?_
    rw [update_of_ne (Finset.mem_range.1 hh).ne]
  unfold handlesAt newHandle
  rw [Finset.range_add_one, Finset.filter_insert, h1]
  simp only [update_self, Option.bind_some]
  split_ifs with hk
  · rw [Finset.card_insert_of_notMem (by simp)]
  · rfl

theorem handlesAt_close (hr : Registered v) (ho : v.handles h = some o) (key : ℕ × ℕ) :
    handlesAt { v with handles := update v.handles h none } key +
      (if o.key = some key then 1 else 0) = handlesAt v key := by
  have hlt : h < v.nextHandle := by
    by_contra hle
    rw [hr.fresh h (by omega)] at ho; cases ho
  have h1 : ((Finset.range v.nextHandle).filter fun k =>
      (update v.handles h none k).bind OpenFile.key = some key) =
      ((Finset.range v.nextHandle).filter fun k =>
        (v.handles k).bind OpenFile.key = some key).erase h := by
    ext k
    by_cases hk : k = h
    · subst hk
      simp
    · simp [hk]
  unfold handlesAt
  simp only [h1]
  split_ifs with hk
  · exact Finset.card_erase_add_one (by simp [hlt, ho, hk])
  · rw [Finset.erase_eq_of_notMem (by simp [ho, hk]), add_zero]

theorem Registered.openDir (hr : Registered v) (ho : o.key = none) : Registered (newHandle o v) := by
  refine ⟨fun h hh => ?_, fun key => ?_, hr.pos⟩
  · simp only [newHandle] at hh ⊢
    rw [update_of_ne (by omega), hr.fresh h (by omega)]
  · rw [handlesAt_newHandle, ho, if_neg (by simp), add_zero, hr.count]
    rfl

theorem acquireOpenFile_eq (key : ℕ × ℕ) (firstCluster size : ℕ) (v : Vol) :
    acquireOpenFile key firstCluster size v = setShared key (some
      (((v.openFiles key).map fun sh => { sh with refcount := sh.refcount + 1 }).getD
        ⟨firstCluster, size, 1⟩)) v := by
  unfold acquireOpenFile
  cases v.openFiles key with
  | none => rfl
  | some sh => rfl

theorem Registered.openFile (hr : Registered v) (ho : o.key = some key) (firstCluster size : ℕ) :
    Registered (newHandle o (acquireOpenFile key firstCluster size v)) := by
  rw [acquireOpenFile_eq]
  refine ⟨fun h hh => ?_, fun key' => ?_, fun key' sh hk => ?_⟩
  · simp only [newHandle, setShared] at hh ⊢
    rw [update_of_ne (by omega), hr.fresh h (by omega)]
  · have h1 := hr.count key'
    rw [handlesAt_newHandle, ho]
    change handlesAt v key' + _ = (update v.openFiles key _ key').elim 0 (·.refcount)
    rw [h1, update_apply]
    split_ifs with hk hkk hkk
    · cases hk
      cases v.openFiles key with
      | none => rfl
      | some sh => rfl
    · exact absurd (Option.some.inj hk).symm hkk
    · exact absurd (congrArg some hkk.symm) hk
    · rfl
  · change update v.openFiles key _ key' = some sh at hk
    rw [update_apply] at hk
    split_ifs at hk
    · cases hk
      cases v.openFiles key with
      | none => exact Nat.one_pos
      | some sh => exact Nat.succ_pos _
    · exact hr.pos key' sh hk

theorem Registered.closeDir (hr : Registered v) (ho : v.handles h = some o) (hk : o.key = none) :
    Registered { v with handles := update v.handles h none } := by
  refine ⟨fun k hk => ?_, fun key => ?_, hr.pos⟩
  · simp only [update_apply]
    split_ifs
    · rfl
    · exact hr.fresh k hk
  · have h1 := handlesAt_close hr ho key
    rw [hk, if_neg (by simp), add_zero] at h1
    rw [h1, hr.count]

theorem releaseOpenFile_eq {sh : SharedFileState} (hs : v.openFiles key = some sh) :
    releaseOpenFile key v = setShared key (if sh.refcount - 1 = 0 then none
      else some { sh with refcount := sh.refcount - 1 }) v := by
  simp only [releaseOpenFile, hs]
  split_ifs <;> rfl

theorem Registered.closeFile (hr : Registered v) (ho : v.handles h = some o) (hk : o.key = some key) :
    Registered (releaseOpenFile key { v with handles := update v.handles h none }) := by
  obtain ⟨sh, hs⟩ := hr.exists_shared ho hk
  have hpos := hr.pos key sh hs
  rw [releaseOpenFile_eq (v := { v with handles := update v.handles h none }) hs]
  refine ⟨fun k hk => ?_, fun key' => ?_, fun key' sh' hk' => ?_⟩
  · simp only [setShared, update_apply]
    split_ifs
    · rfl
    · exact hr.fresh k hk
  · have h1 := handlesAt_close hr ho key'
    rw [hr.count, hk] at h1
    change handlesAt { v with handles := update v.handles h none } key' =
      (update v.openFiles key _ key').elim 0 (·.refcount)
    by_cases hkk : key = key'
    · subst hkk
      rw [if_pos rfl, hs, Option.elim_some] at h1
      rw [update_self]
      split_ifs with h0
      · rw [Option.elim_none]; omega
      · rw [Option.elim_some]
        simp only; omega
    · rw [if_neg (by simpa using hkk), add_zero] at h1
      rw [update_of_ne (.symm hkk), h1]
  · change update v.openFiles key _ key' = some sh' at hk'
    rw [update_apply] at hk'
    split_ifs at hk' with hkk h0
    · cases hk'
      simp only; omega
    · exact hr.pos key' sh' hk'

theorem Registered.setShared (hr : Registered v) {sh sh' : SharedFileState} (hsh : v.openFiles key = some sh)
    (href : sh'.refcount = sh.refcount) : Registered (setShared key (some sh') v) := by
  refine ⟨hr.fresh, fun key' => ?_, fun key' sh₀ hk => ?_⟩
  · have h1 := hr.count key'
    change handlesAt v key' = (update v.openFiles key _ key').elim 0 (·.refcount)
    rw [h1, update_apply]
    split_ifs with hk
    · rw [hk, hsh, Option.elim_some, Option.elim_some, href]
    · rfl
  · change update v.openFiles key _ key' = some sh₀ at hk
    rw [update_apply] at hk
    split_ifs at hk
    · cases hk
      exact href ▸ hr.pos key sh hsh
    · exact hr.pos key' sh₀ hk

end

/-! ## Entries of open files -/

structure Opens (A : Image) (H : Heads) (v : Vol) : Prop where
  registered : Registered v
  entry : ∀ d ss sh, v.openFiles (d, ss) = some sh → ∃ e, HasEntry A H d e ∧ e.slotStart = ss ∧ e.isDir = false ∧
    ¬ IsDotName e.longName ∧ e.firstCluster = sh.firstCluster ∧ e.size = sh.size % 2 ^ 32
  slots : ∀ h o d ss e, v.handles h = some o → o.key = some (d, ss) → HasEntry A H d e →
    e.slotStart = ss → e.slotCount = o.slotCount

section
variable {b : Bpb} {A A' : Image} {H H' : Heads} {v w : Vol} {d : ℕ} {e e' : DirEntryView}

theorem HasEntry.unique (h : HasEntry A H d e) (h' : HasEntry A H d e')
    (heq : e.slotStart = e'.slotStart) : e = e' := by
  obtain ⟨-, j, s, hv, rfl⟩ := hasEntry_iff.1 h
  obtain ⟨-, j', s', hv', rfl⟩ := hasEntry_iff.1 h'
  obtain rfl := hv.slotStart_inj hv' heq
  have h1 := hv.get
  rw [hv'.get, Option.some.injEq] at h1
  rw [h1]

theorem Opens.keeps (h : Opens A H v) {X : ℕ → ℕ → Prop} (hk : Keeps A H A' H' X)
    (hX : ∀ d ss, X d ss → v.openFiles (d, ss) = none) (hs : SameFiles v w) : Opens A' H' w := by
  have hentry : ∀ d ss sh, v.openFiles (d, ss) = some sh → ∃ e, HasEntry A H d e ∧
      HasEntry A' H' d e ∧ e.slotStart = ss ∧ e.isDir = false ∧ ¬ IsDotName e.longName ∧
      e.firstCluster = sh.firstCluster ∧ e.size = sh.size % 2 ^ 32 := by
    intro d ss sh hsh
    obtain ⟨e, he, h1, h2, h3, h4⟩ := h.entry d ss sh hsh
    refine ⟨e, he, (hk.entry d e he).resolve_left fun hx => ?_, h1, h2, h3, h4⟩
    rw [h1] at hx
    rw [hX d ss hx] at hsh; cases hsh
  refine ⟨h.registered.congr hs, fun d ss sh hsh => ?_, fun k o d ss e ho hkey he hss => ?_⟩
  · rw [hs.openFiles] at hsh
    obtain ⟨e, -, he, h1⟩ := hentry d ss sh hsh
    exact ⟨e, he, h1⟩
  rw [hs.handles] at ho
  obtain ⟨sh, hsh⟩ := h.registered.exists_shared ho hkey
  obtain ⟨e₀, he₀, he₀', h1, -⟩ := hentry d ss sh hsh
  rw [he.unique he₀' (by rw [hss, h1])]
  exact h.slots k o d ss e₀ ho hkey he₀ h1

theorem Opens.patched (h : Opens A H v) {ss : ℕ} {sh sh' : SharedFileState} (hsh : v.openFiles (d, ss) = some sh)
    (href : sh'.refcount = sh.refcount) (hk : Keeps A H A' H' fun d' ss' => d' = d ∧ ss' = ss) (he : HasEntry A H d e)
    (hss : e.slotStart = ss) (he' : HasEntry A' H' d e') (hss' : e'.slotStart = ss)
    (hcount : e'.slotCount = e.slotCount) (hdir : e'.isDir = false) (hname : ¬ IsDotName e'.longName)
    (hfc : e'.firstCluster = sh'.firstCluster) (hsize : e'.size = sh'.size % 2 ^ 32) :
    Opens A' H' (setShared (d, ss) (some sh') v) := by
  refine ⟨h.registered.setShared hsh href, fun d' ss' sh₀ hsh₀ => ?_, fun k o d' ss' e₀ ho hkey he₀ hss₀ => ?_⟩
  · change update v.openFiles (d, ss) _ (d', ss') = some sh₀ at hsh₀
    rw [update_apply] at hsh₀
    split_ifs at hsh₀ with hkk
    · cases hsh₀
      cases hkk
      exact ⟨e', he', hss', hdir, hname, hfc, hsize⟩
    · obtain ⟨e₁, he₁, h1, h2⟩ := h.entry d' ss' sh₀ hsh₀
      refine ⟨e₁, (hk.entry d' e₁ he₁).resolve_left fun hx => hkk ?_, h1, h2⟩
      rw [← h1, hx.1, hx.2]
  · by_cases hkk : (d', ss') = (d, ss)
    · obtain ⟨rfl, rfl⟩ := Prod.mk.inj hkk
      rw [he₀.unique he' (by rw [hss₀, hss']), hcount]
      exact h.slots k o d' ss' e ho hkey he hss
    obtain ⟨sh₁, hsh₁⟩ := h.registered.exists_shared ho hkey
    obtain ⟨e₁, he₁, h1, -⟩ := h.entry d' ss' sh₁ hsh₁
    have he₁' := (hk.entry d' e₁ he₁).resolve_left fun hx => hkk (by rw [← h1, hx.1, hx.2])
    rw [he₀.unique he₁' (by rw [hss₀, h1])]
    exact h.slots k o d' ss' e₁ ho hkey he₁ h1

theorem HasEntry.size_lt (h : HasEntry A H d e) : e.size < 2 ^ 32 := by
  obtain ⟨-, j, s, hv, rfl⟩ := hasEntry_iff.1 h
  have hs : s.length = 32 := length_of_mem_chunks (List.mem_of_getElem? hv.get)
  have h1 := ofLe_lt (slice s 28 4)
  rw [length_slice (by omega)] at h1
  exact h1

variable {o : OpenFile}

theorem Opens.openDir (h : Opens A H v) (ho : o.key = none) : Opens A H (newHandle o v) := by
  refine ⟨h.registered.openDir ho, h.entry, fun k o' d ss e hk hkey he hss => ?_⟩
  change update v.handles v.nextHandle (some o) k = some o' at hk
  rw [update_apply] at hk
  split_ifs at hk
  · cases hk
    cases ho.symm.trans hkey
  · exact h.slots k o' d ss e hk hkey he hss

theorem Opens.openFile (h : Opens A H v) (he : HasEntry A H d e) (hdir : e.isDir = false)
    (hname : ¬ IsDotName e.longName) : Opens A H (newHandle ⟨.file, d, e.slotStart, e.slotCount⟩
    (acquireOpenFile (d, e.slotStart) e.firstCluster e.size v)) := by
  refine ⟨h.registered.openFile rfl _ _, fun d' ss sh hsh => ?_, fun k o d' ss e' hk hkey he' hss => ?_⟩
  · rw [acquireOpenFile_eq] at hsh
    change update v.openFiles (d, e.slotStart) _ (d', ss) = some sh at hsh
    rw [update_apply] at hsh
    split_ifs at hsh with hkk
    · cases hkk
      cases hsh
      cases hold : v.openFiles (d, e.slotStart) with
      | none => exact ⟨e, he, rfl, hdir, hname, rfl, (Nat.mod_eq_of_lt he.size_lt).symm⟩
      | some sh₀ => exact h.entry d e.slotStart sh₀ hold
    · exact h.entry d' ss sh hsh
  · rw [acquireOpenFile_eq] at hk
    change update v.handles v.nextHandle _ k = some o at hk
    rw [update_apply] at hk
    split_ifs at hk
    · cases hk
      cases hkey
      rw [he'.unique he hss]
    · exact h.slots k o d' ss e' hk hkey he' hss

theorem Opens.slots_close (h : Opens A H v) (n : ℕ) {k : ℕ} {ss : ℕ} (hk : update v.handles n none k = some o)
    (hkey : o.key = some (d, ss)) (he : HasEntry A H d e) (hss : e.slotStart = ss) : e.slotCount = o.slotCount := by
  rw [update_apply] at hk
  split_ifs at hk
  exact h.slots k o d ss e hk hkey he hss

theorem Opens.closeDir (h : Opens A H v) {n : ℕ} (ho : v.handles n = some o)
    (hk : o.key = none) : Opens A H { v with handles := update v.handles n none } :=
  ⟨h.registered.closeDir ho hk, h.entry, fun _ _ _ _ _ hk hkey he hss => h.slots_close n hk hkey he hss⟩

theorem Opens.closeFile (h : Opens A H v) {n : ℕ} {key : ℕ × ℕ} (ho : v.handles n = some o) (hk : o.key = some key) :
    Opens A H (releaseOpenFile key { v with handles := update v.handles n none }) := by
  have hreg := h.registered.closeFile ho hk
  obtain ⟨sh, hsh⟩ := h.registered.exists_shared ho hk
  rw [releaseOpenFile_eq (v := { v with handles := update v.handles n none }) hsh] at hreg ⊢
  refine ⟨hreg, fun d ss sh' hsh' => ?_, fun k o' d ss e hk' hkey he hss => ?_⟩
  · -- what is still registered was registered, with the same cluster and size
    obtain ⟨sh₀, h1, h2, h3⟩ : ∃ sh₀, v.openFiles (d, ss) = some sh₀ ∧
        sh₀.firstCluster = sh'.firstCluster ∧ sh₀.size = sh'.size := by
      change update v.openFiles key _ (d, ss) = some sh' at hsh'
      rw [update_apply] at hsh'
      split_ifs at hsh' with hkk
      · cases hsh'
        exact ⟨sh, hkk ▸ hsh, rfl, rfl⟩
      · exact ⟨sh', hsh', rfl, rfl⟩
    obtain ⟨e, he, h4, h5, h6, h7, h8⟩ := h.entry d ss sh₀ h1
    exact ⟨e, he, h4, h5, h6, by rw [h7, h2], by rw [h8, h3]⟩
  · exact h.slots_close n hk' hkey he hss

/-- The volume holds the image with the tree, and its open files are entries of the tree. -/
structure Sound (b : Bpb) (v : Vol) (A : Image) (H : Heads) : Prop where
  image : Shows b v.dev A
  tree : Tree b A H
  opens : Opens A H v

theorem Sound.becomes (h : Sound b v A H) {X : ℕ → ℕ → Prop} (hw : Becomes b v A' w)
    (he : Edits b A H A' H' X) (hX : ∀ d ss, X d ss → v.openFiles (d, ss) = none) :
    Sound b w A' H' :=
  ⟨hw.image, he.tree, h.opens.keeps he.keeps hX hw.same⟩

end

end Archis.Fat32
