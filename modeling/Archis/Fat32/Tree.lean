/-
  The directory tree of a volume.

  `Tree b A H`: the chains of the directories and files share no cluster, and the short slots of the directories refer
  to them, each to another one.  Slots that the scan does not reach count as well, because a later entry may bring them
  back; `.` and `..` do not.  `DirAt` is the walk along a path.
-/
import Archis.Fat32.Slots

namespace Archis.Fat32

open Archis.Lib
open Function (update update_of_ne update_self)
open List hiding Disjoint IsChain

/-! ## Chains -/

section
variable {b : Bpb} {A A' : Image} {S : Set ℕ} {ch : ℕ → List ℕ} {a : ℕ} {l : List ℕ}

/-- Each of the clusters is the first of a chain, and the chains share no cluster. -/
structure Chains (b : Bpb) (A : Image) (S : Set ℕ) (ch : ℕ → List ℕ) : Prop where
  chain : ∀ h ∈ S, IsChain b A h (ch h)
  disjoint : ∀ h ∈ S, ∀ k ∈ S, h ≠ k → (ch h).Disjoint (ch k)

theorem Chains.put (h : Chains b A S ch) (hl : IsChain b A' a l) (hout : ∀ k ∈ S, k ≠ a → ∀ c ∈ ch k, c ∉ l ∧
    A'.fat c = A.fat c) : Chains b A' (insert a S) (update ch a l) := by
  have hmem : ∀ k ∈ insert a S, k ≠ a → k ∈ S := fun k hk hne => hk.resolve_left hne
  constructor
  · intro k hk
    by_cases hka : k = a
    · subst hka
      rw [update_self]
      exact hl
    · rw [update_of_ne hka]
      exact (h.chain k (hmem k hk hka)).congr fun c hc => (hout k (hmem k hk hka) hka c hc).2
  · intro k hk m hm hne c hc hc'
    by_cases hka : k = a
    · subst hka
      rw [update_self] at hc
      rw [update_of_ne (Ne.symm hne)] at hc'
      exact (hout m (hmem m hm (Ne.symm hne)) (Ne.symm hne) c hc').1 hc
    · rw [update_of_ne hka] at hc
      by_cases hma : m = a
      · subst hma
        rw [update_self] at hc'
        exact (hout k (hmem k hk hka) hka c hc).1 hc'
      · rw [update_of_ne hma] at hc'
        exact h.disjoint k (hmem k hk hka) m (hmem m hm hma) hne hc hc'

theorem Chains.remove (h : Chains b A S ch) (ha : a ∈ S) : Chains b (A.freeAll (ch a)) (S \ {a}) ch := by
  constructor
  · rintro k ⟨hk, hka⟩
    refine (h.chain k hk).congr fun c hc => ?_
    rw [Image.freeAll_fat, if_neg (h.disjoint k hk a ha hka hc)]
  · rintro k ⟨hk, -⟩ m ⟨hm, -⟩ hne
    exact h.disjoint k hk m hm hne

end

/-! ## References -/

/-- The short slot of `.` or `..`. -/
def DotSlot (s : Slot) : Prop :=
  IsShort s ∧ (slice s 0 11 = DOT_NAME ∨ slice s 0 11 = DOTDOT_NAME)

instance (s : Slot) : Decidable (DotSlot s) := inferInstanceAs (Decidable (_ ∧ _))

def RefSlot (s : Slot) : Prop :=
  IsShort s ∧ ¬ (slice s 0 11 = DOT_NAME ∨ slice s 0 11 = DOTDOT_NAME)

def SlotIsDir (s : Slot) : Prop := slotAttr s &&& ATTR_DIRECTORY ≠ 0

instance (s : Slot) : Decidable (SlotIsDir s) := inferInstanceAs (Decidable (_ ≠ _))

def Image.slots (A : Image) (l : List ℕ) : List Slot := chunks 32 (A.bytes l)

def Image.entries (A : Image) (l : List ℕ) : List DirEntryView := decodeDirEntries (A.bytes l)

theorem Image.slots_freeAll (A : Image) (l m : List ℕ) : (A.freeAll l).slots m = A.slots m := by
  have h1 : (A.freeAll l).bytes m = A.bytes m :=
    Image.bytes_congr fun c _ => by rw [Image.freeAll_data]
  rw [Image.slots, Image.slots, h1]

/-- The first clusters of the directories and of the files, and the chains from them on. -/
structure Heads where
  dirs : Set ℕ
  files : Set ℕ
  chain : ℕ → List ℕ

namespace Heads

def all (H : Heads) : Set ℕ := H.dirs ∪ H.files

def putDir (H : Heads) (a : ℕ) (l : List ℕ) : Heads :=
  ⟨insert a H.dirs, H.files, update H.chain a l⟩

def putFile (H : Heads) (a : ℕ) (l : List ℕ) : Heads :=
  ⟨H.dirs, insert a H.files, update H.chain a l⟩

def remove (H : Heads) (a : ℕ) : Heads := ⟨H.dirs \ {a}, H.files \ {a}, H.chain⟩

variable {H : Heads} {a : ℕ} {l : List ℕ}

theorem putDir_all : (H.putDir a l).all = insert a H.all := Set.insert_union

theorem putFile_all : (H.putFile a l).all = insert a H.all := Set.union_insert

theorem putDir_self (H : Heads) (a : ℕ) (l : List ℕ) : (H.putDir a l).chain a = l := update_self ..

theorem putDir_of_ne {k : ℕ} (h : k ≠ a) : (H.putDir a l).chain k = H.chain k := update_of_ne h _ _

theorem remove_all : (H.remove a).all = H.all \ {a} := (Set.union_sdiff_distrib).symm

end Heads

section
variable {A : Image} {H : Heads} {d j : ℕ} {s : Slot}

def HasSlot (A : Image) (H : Heads) (d j : ℕ) (s : Slot) : Prop :=
  d ∈ H.dirs ∧ (A.slots (H.chain d))[j]? = some s

/-- An entry other than `.` and `..`. -/
def DirEntryView.IsRef (e : DirEntryView) : Prop :=
  ¬ (e.shortName = DOT_NAME ∨ e.shortName = DOTDOT_NAME)

/-- Slot `j` of directory `d` refers to a file or a directory. -/
def HasRef (A : Image) (H : Heads) (d j : ℕ) (s : Slot) : Prop := HasSlot A H d j s ∧ RefSlot s

def HasEntry (A : Image) (H : Heads) (d : ℕ) (e : DirEntryView) : Prop :=
  d ∈ H.dirs ∧ e ∈ A.entries (H.chain d)

end

def DotsFirst (slots : List Slot) : Prop :=
  ∀ (j : ℕ) (s : Slot), slots[j]? = some s → DotSlot s → j = 0 ∨ j = 1 ∧ ∃ s₀, slots[0]? = some s₀ ∧ DotSlot s₀

/-- A reference points to a directory or a file, according to its kind. -/
def Points (b : Bpb) (H : Heads) (s : Slot) : Prop :=
  (SlotIsDir s → slotCluster s ∈ H.dirs ∧ slotCluster s ≠ b.rootCluster.toNat) ∧
    (¬ SlotIsDir s → 2 ≤ slotCluster s → slotCluster s ∈ H.files)

structure Tree (b : Bpb) (A : Image) (H : Heads) : Prop where
  chains : Chains b A H.all H.chain
  kinds : Disjoint H.dirs H.files
  root : b.rootCluster.toNat ∈ H.dirs
  points : ∀ d j s, HasRef A H d j s → Points b H s
  unique : ∀ d j s d' j' s', HasRef A H d j s → HasRef A H d' j' s' → 2 ≤ slotCluster s →
    slotCluster s = slotCluster s' → d = d' ∧ j = j'
  dots : ∀ d ∈ H.dirs, DotsFirst (A.slots (H.chain d))

namespace Tree

variable {b : Bpb} {A A' : Image} {H : Heads} {a d j : ℕ} {l : List ℕ} {s : Slot}

theorem isChain (h : Tree b A H) (hd : d ∈ H.dirs) : IsChain b A d (H.chain d) :=
  h.chains.chain d (.inl hd)

theorem mem_all (h : Tree b A H) (hr : HasRef A H d j s) (h2 : 2 ≤ slotCluster s) : slotCluster s ∈ H.all := by
  by_cases hs : SlotIsDir s
  · exact .inl ((h.points d j s hr).1 hs).1
  · exact .inr ((h.points d j s hr).2 hs h2)

/-- Outside of the list `l` the chains other than that of `a` are untouched. -/
def Apart (A A' : Image) (H : Heads) (a : ℕ) (l : List ℕ) : Prop :=
  ∀ k ∈ H.all, k ≠ a → ∀ c ∈ H.chain k, c ∉ l ∧ A'.fat c = A.fat c ∧ A'.data c = A.data c

theorem Apart.bytes (h : Apart A A' H a l) (hd : d ∈ H.dirs) (hne : d ≠ a) :
    A'.bytes (H.chain d) = A.bytes (H.chain d) :=
  Image.bytes_congr fun c hc => (h d (.inl hd) hne c hc).2.2

theorem Apart.slots (h : Apart A A' H a l) (hd : d ∈ H.dirs) (hne : d ≠ a) :
    A'.slots (H.chain d) = A.slots (H.chain d) := by
  rw [Image.slots, Image.slots, h.bytes hd hne]

/-- **A file gets a chain**, or a longer one; the directories stay. -/
theorem putFile (h : Tree b A H) (ha : a ∉ H.dirs) (hl : IsChain b A' a l) (hout : Apart A A' H a l) :
    Tree b A' (H.putFile a l) ∧ ∀ d j s, HasSlot A' (H.putFile a l) d j s ↔ HasSlot A H d j s := by
  have hslots : ∀ d ∈ H.dirs, A'.slots ((H.putFile a l).chain d) = A.slots (H.chain d) := by
    intro d hd
    have hne : d ≠ a := fun heq => ha (heq ▸ hd)
    simp only [Heads.putFile, update_of_ne hne]
    exact hout.slots hd hne
  have hslot : ∀ d j s, HasSlot A' (H.putFile a l) d j s ↔ HasSlot A H d j s := by
    intro d j s
    refine and_congr_right fun hd => ?_
    rw [hslots d hd]
  have href : ∀ {d j s}, HasRef A' (H.putFile a l) d j s → HasRef A H d j s :=
    fun hr => ⟨(hslot _ _ _).1 hr.1, hr.2⟩
  refine ⟨⟨?_, ?_, h.root, ?_, ?_, ?_⟩, hslot⟩
  · rw [Heads.putFile_all]
    exact h.chains.put hl fun k hk hne c hc => ⟨(hout k hk hne c hc).1, (hout k hk hne c hc).2.1⟩
  · rw [Heads.putFile, Set.disjoint_insert_right]
    exact ⟨ha, h.kinds⟩
  · intro d j s hr
    have hp := h.points d j s (href hr)
    exact ⟨hp.1, fun hs h2 => .inr (hp.2 hs h2)⟩
  · intro d j s d' j' s' hr hr'
    exact h.unique d j s d' j' s' (href hr) (href hr')
  · intro d hd
    rw [hslots d hd]
    exact h.dots d hd

/-- **A directory is added or changed**: its references are old ones at their places, or point to what nothing
else does. -/
theorem putDir (h : Tree b A H) (ha : a ∉ H.files) (hl : IsChain b A' a l) (hout : Apart A A' H a l)
    (hdots : DotsFirst (A'.slots l)) (hrefs : ∀ (j : ℕ) (s : Slot), (A'.slots l)[j]? = some s →
    RefSlot s → HasRef A H a j s ∨ Points b (H.putDir a l) s ∧
    (2 ≤ slotCluster s → ∀ d' j' s', HasRef A' (H.putDir a l) d' j' s' →
    slotCluster s' = slotCluster s → d' = a ∧ j' = j)) : Tree b A' (H.putDir a l) := by
  have hself : (H.putDir a l).chain a = l := update_self ..
  have hother : ∀ {d : ℕ}, d ≠ a → (H.putDir a l).chain d = H.chain d :=
    fun hne => update_of_ne hne _ _
  have hmem : ∀ {d : ℕ}, d ∈ (H.putDir a l).dirs → d ≠ a → d ∈ H.dirs :=
    fun hd hne => hd.resolve_left hne
  have hold : ∀ {d j s}, d ≠ a → HasRef A' (H.putDir a l) d j s → HasRef A H d j s := by
    rintro d j s hne ⟨⟨hd, hs⟩, hr⟩
    rw [hother hne, hout.slots (hmem hd hne) hne] at hs
    exact ⟨⟨hmem hd hne, hs⟩, hr⟩
  have hpoints : ∀ {s}, Points b H s → Points b (H.putDir a l) s :=
    fun hp => ⟨fun hs => ⟨.inr (hp.1 hs).1, (hp.1 hs).2⟩, hp.2⟩
  -- a reference is an old one or a new one
  have hcase : ∀ {d j s}, HasRef A' (H.putDir a l) d j s → HasRef A H d j s ∨ d = a ∧
      Points b (H.putDir a l) s ∧ (2 ≤ slotCluster s → ∀ d' j' s', HasRef A' (H.putDir a l) d' j' s' →
        slotCluster s' = slotCluster s → d' = a ∧ j' = j) := by
    intro d j s hr
    by_cases hne : d = a
    · subst hne
      have hs := hr.1.2
      rw [hself] at hs
      rcases hrefs j s hs hr.2 with h1 | h1
      · exact .inl h1
      · exact .inr ⟨rfl, h1⟩
    · exact .inl (hold hne hr)
  refine ⟨?_, ?_, .inr h.root, ?_, ?_, ?_⟩
  · rw [Heads.putDir_all]
    exact h.chains.put hl fun k hk hne c hc => ⟨(hout k hk hne c hc).1, (hout k hk hne c hc).2.1⟩
  · rw [Heads.putDir, Set.disjoint_insert_left]
    exact ⟨ha, h.kinds⟩
  · intro d j s hr
    rcases hcase hr with h1 | h1
    · exact hpoints (h.points d j s h1)
    · exact h1.2.1
  · intro d j s d' j' s' hr hr' h2 heq
    rcases hcase hr with h1 | ⟨rfl, -, h1⟩
    · rcases hcase hr' with h3 | ⟨rfl, -, h3⟩
      · exact h.unique d j s d' j' s' h1 h3 h2 heq
      · exact h3 (heq ▸ h2) d j s hr heq
    · obtain ⟨h3, h4⟩ := h1 h2 d' j' s' hr' heq.symm
      exact ⟨h3.symm, h4.symm⟩
  · intro d hd
    by_cases hne : d = a
    · subst hne
      rw [hself]
      exact hdots
    · rw [hother hne, hout.slots (hmem hd hne) hne]
      exact h.dots d (hmem hd hne)

/-- **A chain is freed** that nothing refers to any more. -/
theorem remove (h : Tree b A H) (ha : a ∈ H.all) (hroot : a ≠ b.rootCluster.toNat) (hno : ∀ d j s, HasRef A H d j s →
    d ≠ a → slotCluster s ≠ a) : Tree b (A.freeAll (H.chain a)) (H.remove a) := by
  have href : ∀ {d j s}, HasRef (A.freeAll (H.chain a)) (H.remove a) d j s → HasRef A H d j s ∧ d ≠ a := by
    rintro d j s ⟨⟨⟨hd, hda⟩, hs⟩, hr⟩
    rw [show (H.remove a).chain = H.chain from rfl, Image.slots_freeAll] at hs
    exact ⟨⟨⟨hd, hs⟩, hr⟩, hda⟩
  refine ⟨?_, ?_, ⟨h.root, Ne.symm hroot⟩, ?_, ?_, ?_⟩
  · rw [Heads.remove_all]
    exact h.chains.remove ha
  · exact h.kinds.mono Set.sdiff_subset Set.sdiff_subset
  · intro d j s hr
    obtain ⟨h1, h2⟩ := href hr
    have hp := h.points d j s h1
    exact ⟨fun hs => ⟨⟨(hp.1 hs).1, hno d j s h1 h2⟩, (hp.1 hs).2⟩, fun hs hc => ⟨hp.2 hs hc, hno d j s h1 h2⟩⟩
  · intro d j s d' j' s' hr hr'
    exact h.unique d j s d' j' s' (href hr).1 (href hr').1
  · rintro d ⟨hd, -⟩
    rw [show (H.remove a).chain = H.chain from rfl, Image.slots_freeAll]
    exact h.dots d hd

end Tree

section
variable {b : Bpb} {A A' : Image} {H : Heads}

theorem Tree.congr (h : Tree b A H) (hA : ∀ k ∈ H.all, ∀ c ∈ H.chain k, A'.fat c = A.fat c ∧
    A'.data c = A.data c) : Tree b A' H := by
  have hslots : ∀ d ∈ H.dirs, A'.slots (H.chain d) = A.slots (H.chain d) := by
    intro d hd
    rw [Image.slots, Image.slots, Image.bytes_congr fun c hc => (hA d (.inl hd) c hc).2]
  have href : ∀ {d j s}, HasRef A' H d j s → HasRef A H d j s := by
    rintro d j s ⟨⟨hd, hs⟩, hr⟩
    rw [hslots d hd] at hs
    exact ⟨⟨hd, hs⟩, hr⟩
  refine ⟨⟨fun k hk => ?_, h.chains.disjoint⟩, h.kinds, h.root, fun d j s hr => ?_, ?_, fun d hd => ?_⟩
  · exact (h.chains.chain k hk).congr fun c hc => (hA k hk c hc).1
  · exact h.points d j s (href hr)
  · intro d j s d' j' s' hr hr'
    exact h.unique d j s d' j' s' (href hr) (href hr')
  · rw [hslots d hd]
    exact h.dots d hd

end

/-! ## Clusters in use -/

def Filled (b : Bpb) (A : Image) (H : Heads) : Prop :=
  ∀ c, b.Cluster c → A.fat c ≠ 0 → ∃ k ∈ H.all, c ∈ H.chain k

namespace Filled

variable {b : Bpb} {A A' : Image} {H : Heads} {a : ℕ} {l : List ℕ}

theorem congr (h : Filled b A H) (hA : ∀ c, A'.fat c = A.fat c) : Filled b A' H :=
  fun c hc h0 => h c hc (by rwa [hA] at h0)

theorem put (h : Filled b A H) (hfat : ∀ c, c ∉ l → A'.fat c ≠ 0 → A.fat c ≠ 0) (hsub : a ∈ H.all → H.chain a ⊆ l)
    {H' : Heads} (hall : H'.all = insert a H.all) (hch : H'.chain = update H.chain a l) : Filled b A' H' := by
  intro c hc h0
  by_cases hcl : c ∈ l
  · exact ⟨a, by rw [hall]; exact .inl rfl, by rw [hch, update_self]; exact hcl⟩
  obtain ⟨k, hk, hck⟩ := h c hc (hfat c hcl h0)
  have hne : k ≠ a := by
    rintro rfl
    exact hcl (hsub hk hck)
  exact ⟨k, by rw [hall]; exact .inr hk, by rw [hch, update_of_ne hne]; exact hck⟩

theorem remove (h : Filled b A H) : Filled b (A.freeAll (H.chain a)) (H.remove a) := by
  intro c hc h0
  rw [Image.freeAll_fat] at h0
  split_ifs at h0 with hca
  · exact absurd rfl h0
  obtain ⟨k, hk, hck⟩ := h c hc h0
  refine ⟨k, ?_, hck⟩
  rw [Heads.remove_all]
  refine ⟨hk, ?_⟩
  rintro rfl
  exact hca hck

end Filled

/-! ## Entries and references -/

section
variable (name : List Char)

def IsDotName : Prop := name = ['.'] ∨ name = ['.', '.']

instance : Decidable (IsDotName name) := inferInstanceAs (Decidable (_ ∨ _))

def PlainName : Prop := IsName name ∧ ¬ IsDotName name

instance : Decidable (PlainName name) := inferInstanceAs (Decidable (_ ∧ _))

end

theorem deriveShortDisplayName_dot : deriveShortDisplayName DOT_NAME = ['.'] := by
  have h1 : utf8Decode (slice DOT_NAME 0 8) = some ('.' :: replicate 7 ' ') :=
    utf8Decode_encode ('.' :: replicate 7 ' ')
  have h2 : utf8Decode (slice DOT_NAME 8 3) = some (replicate 3 ' ') :=
    utf8Decode_encode (replicate 3 ' ')
  rw [deriveShortDisplayName, h1, h2]
  decide

theorem deriveShortDisplayName_dotdot : deriveShortDisplayName DOTDOT_NAME = ['.', '.'] := by
  have h1 : utf8Decode (slice DOTDOT_NAME 0 8) = some ('.' :: '.' :: replicate 6 ' ') :=
    utf8Decode_encode ('.' :: '.' :: replicate 6 ' ')
  have h2 : utf8Decode (slice DOTDOT_NAME 8 3) = some (replicate 3 ' ') :=
    utf8Decode_encode (replicate 3 ' ')
  rw [deriveShortDisplayName, h1, h2]
  decide

theorem DotsFirst.isDotName {slots : List Slot} {j : ℕ} {s : Slot} (h : DotsFirst slots)
    (hs : slots[j]? = some s) (hd : DotSlot s) : IsDotName (entryAt slots j s).longName := by
  have hparts : openParts (slots.take j) [] = [] := by
    rcases h j s hs hd with rfl | ⟨rfl, s₀, h0, hd0⟩
    · rw [take_zero]; rfl
    · have h1 : slots.take 1 = [] ++ [s₀] := by
        rw [take_add_one, h0]
        rfl
      rw [h1, openParts_concat, hd0.1.not_lfn, if_neg (by simp)]
  simp only [entryAt, shortEntry, hparts, if_true]
  rcases hd.2 with h1 | h1
  · exact .inl (by rw [h1, deriveShortDisplayName_dot])
  · exact .inr (by rw [h1, deriveShortDisplayName_dotdot])

section
variable {b : Bpb} {A : Image} {H : Heads} {d : ℕ} {e : DirEntryView}

theorem hasEntry_iff : HasEntry A H d e ↔ d ∈ H.dirs ∧
    ∃ j s, Visible (A.slots (H.chain d)) j s ∧ e = entryAt (A.slots (H.chain d)) j s :=
  and_congr_right fun _ => mem_decodeDirEntries

theorem Tree.exists_ref (h : Tree b A H) (he : HasEntry A H d e) (hname : ¬ IsDotName e.longName) :
    ∃ j s, Visible (A.slots (H.chain d)) j s ∧ e = entryAt (A.slots (H.chain d)) j s ∧
      HasRef A H d j s := by
  obtain ⟨hd, j, s, hv, rfl⟩ := hasEntry_iff.1 he
  refine ⟨j, s, hv, rfl, ⟨hd, hv.get⟩, hv.short, fun hdot => hname ?_⟩
  exact (h.dots d hd).isDotName hv.get ⟨hv.short, hdot⟩

theorem IsDotName.of_lower {p q : List Char} (h : asciiLower p = asciiLower q) (hp : IsDotName p) :
    IsDotName q := by
  have hchar : ∀ {c : Char}, toAsciiLower c = '.' → c = '.' := eq_of_toAsciiLower_eq (by decide)
  rcases hp with rfl | rfl
  · obtain ⟨c, rfl, hc⟩ := map_eq_singleton_iff.1 h.symm
    exact .inl (by rw [hchar hc])
  · obtain ⟨c, q, rfl, hc, hq⟩ := map_eq_cons_iff.1 h.symm
    obtain ⟨c', rfl, hc'⟩ := map_eq_singleton_iff.1 hq
    exact .inr (by rw [hchar hc, hchar hc'])

theorem not_isDotName_of_findName {entries : List DirEntryView} {name : List Char}
    (h : findName entries name = some e) (hname : ¬ IsDotName name) : ¬ IsDotName e.longName :=
  fun he => hname (he.of_lower (findName_spec h).2)

end

/-! ## Paths -/

/-- The directory that the names lead to, from the root on. -/
inductive DirAt (b : Bpb) (A : Image) (H : Heads) : List (List Char) → ℕ → Prop where
  | root : DirAt b A H [] b.rootCluster.toNat
  | sub {cs : List (List Char)} {d : ℕ} {c : List Char} {e : DirEntryView} :
    DirAt b A H cs d → ¬ IsDotName c → findName (A.entries (H.chain d)) c = some e →
    e.isDir = true → DirAt b A H (cs ++ [c]) e.firstCluster

section
variable {b : Bpb} {A : Image} {H : Heads} {cs cs' : List (List Char)} {c : List Char} {d : ℕ}
  {e : DirEntryView}

theorem Tree.exists_dirRef (h : Tree b A H) (hd : d ∈ H.dirs) (hc : ¬ IsDotName c)
    (hf : findName (A.entries (H.chain d)) c = some e) (hdir : e.isDir = true) : ∃ j s,
    HasRef A H d j s ∧ e = entryAt (A.slots (H.chain d)) j s ∧ slotCluster s = e.firstCluster ∧
    e.firstCluster ∈ H.dirs ∧ e.firstCluster ≠ b.rootCluster.toNat := by
  obtain ⟨j, s, -, rfl, hr⟩ := h.exists_ref ⟨hd, (findName_spec hf).1⟩ (not_isDotName_of_findName hf hc)
  have hs : slotAttr s &&& ATTR_DIRECTORY ≠ 0 := of_decide_eq_true hdir
  exact ⟨j, s, hr, rfl, rfl, (h.points d j s hr).1 hs⟩

theorem DirAt.mem (hp : DirAt b A H cs d) (h : Tree b A H) : d ∈ H.dirs := by
  induction hp with
  | root => exact h.root
  | sub _ hc hf hdir ih =>
    obtain ⟨j, s, -, -, -, hmem, -⟩ := h.exists_dirRef ih hc hf hdir
    exact hmem

/-- **A directory has one path**, up to the case of letters. -/
theorem DirAt.unique (hp : DirAt b A H cs d) (h : Tree b A H) :
    ∀ {cs' : List (List Char)}, DirAt b A H cs' d → cs.map asciiLower = cs'.map asciiLower := by
  induction hp with
  | root =>
    intro cs' hp'
    generalize hroot : b.rootCluster.toNat = r at hp'
    cases hp' with
    | root => rfl
    | sub hp' hc hf hdir =>
      obtain ⟨j, s, -, -, -, -, hne⟩ := h.exists_dirRef (hp'.mem h) hc hf hdir
      exact absurd hroot.symm hne
  | @sub cs d c e hp hc hf hdir ih =>
    intro cs' hp'
    obtain ⟨j, s, hr, he, hcl, hmem, hne⟩ := h.exists_dirRef (hp.mem h) hc hf hdir
    generalize hfc : e.firstCluster = r at hp'
    cases hp' with
    | root => exact absurd hfc hne
    | @sub cs' d' c' e' hp' hc' hf' hdir' =>
      obtain ⟨j', s', hr', he', hcl', -, -⟩ := h.exists_dirRef (hp'.mem h) hc' hf' hdir'
      have h2 : 2 ≤ slotCluster s := by
        rw [hcl]; exact (h.isChain hmem).first.1
      obtain ⟨rfl, rfl⟩ := h.unique d j s d' j' s' hr hr' h2 (by rw [hcl, hcl', hfc])
      obtain rfl : s = s' := by
        have h1 := hr.1.2
        rw [hr'.1.2, Option.some.injEq] at h1
        exact h1.symm
      obtain rfl : e = e' := by rw [he, he']
      rw [map_append, map_append, ih hp', map_singleton, map_singleton,
        ← (findName_spec hf).2, (findName_spec hf').2]

theorem findName_congr {entries : List DirEntryView} {c c' : List Char}
    (h : asciiLower c = asciiLower c') : findName entries c = findName entries c' := by
  unfold findName
  congr 1
  funext e
  rw [Bool.eq_iff_iff, eqIgnoreAsciiCase_iff, eqIgnoreAsciiCase_iff, h]

theorem DirAt.of_lower (hp : DirAt b A H cs d) :
    ∀ {cs' : List (List Char)}, cs.map asciiLower = cs'.map asciiLower → DirAt b A H cs' d := by
  induction hp with
  | root =>
    intro cs' h
    obtain rfl : cs' = [] := map_eq_nil_iff.1 h.symm
    exact .root
  | @sub cs d c e hp hc hf hdir ih =>
    intro cs' h
    rw [map_append, map_singleton] at h
    obtain ⟨l, m, rfl, h1, h2⟩ := map_eq_append_iff.1 h.symm
    obtain ⟨c', rfl, h3⟩ := map_eq_singleton_iff.1 h2
    refine .sub (ih h1.symm) (fun hdot => hc (hdot.of_lower h3)) ?_ hdir
    rw [findName_congr h3]
    exact hf

end

/-! ## Resolving a path -/

section
variable {b : Bpb} {A : Image} {H : Heads} {dev : Dev} {follow : Bool}

theorem except_bind_eq_ok {ε α β : Type} {x : Except ε α} {f : α → Except ε β} {y : β} :
    x >>= f = .ok y ↔ ∃ a, x = .ok a ∧ f a = .ok y := by
  cases x with
  | error e => simp [bind, Except.bind]
  | ok a => simp [bind, Except.bind]

theorem Tree.resolveLoop_found (h : Tree b A H) (hA : Shows b dev A) (hf : b.Fits) {res : ResolveOk}
    : ∀ {comps pre : List (List Char)} {cur : ℕ}, DirAt b A H pre cur → (∀ c ∈ comps, ¬ IsDotName c)
    → resolveLoop b dev follow comps cur = .ok (.found res) → ∃ cs c, comps = cs ++ [c] ∧
    DirAt b A H (pre ++ cs) res.parentCluster ∧ findName (A.entries (H.chain res.parentCluster)) c =
    some res.entry ∧ res.locked = true
  | [], _, _, _, _, hres => by cases hres
  | comp :: rest, pre, cur, hp, hplain, hres => by
    have hread := hA.readChain hf (h.isChain (hp.mem h))
    simp only [resolveLoop, hread, bind, Except.bind] at hres
    cases hfind : findName (decodeDirEntries (A.bytes (H.chain cur))) comp with
    | none => rw [hfind] at hres; cases hres
    | some e =>
      rw [hfind] at hres
      simp only [resolveEntry] at hres
      split_ifs at hres with h1 h2 h3
      · obtain ⟨target, -, h4⟩ := except_bind_eq_ok.1 hres
        cases h4
      · obtain rfl : res = ⟨e, cur, true⟩ := by cases hres; rfl
        exact ⟨[], comp, by rw [h2]; rfl, by rwa [append_nil], hfind, rfl⟩
      · have hp' := DirAt.sub hp (hplain comp (by simp)) hfind h3
        obtain ⟨cs, c, rfl, h4, h5, h6⟩ :=
          Tree.resolveLoop_found h hA hf hp' (fun x hx => hplain x (by simp [hx])) hres
        exact ⟨comp :: cs, c, rfl, by simpa using h4, h5, h6⟩

theorem root_isDir (r : ℕ) : (DirEntryView.root r).isDir = true :=
  decide_eq_true (show ATTR_DIRECTORY &&& ATTR_DIRECTORY ≠ 0 by decide)

/-- What an operation finds under a path: the root, or an entry of a directory. -/
structure Found (b : Bpb) (A : Image) (H : Heads) (cs : List (List Char)) (res : ResolveOk) :
    Prop where
  root : cs = [] → res = ⟨.root b.rootCluster.toNat, b.rootCluster.toNat, false⟩
  entry : ∀ cs' c, cs = cs' ++ [c] → DirAt b A H cs' res.parentCluster ∧
    findName (A.entries (H.chain res.parentCluster)) c = some res.entry ∧ res.locked = true

section
variable (h : Tree b A H) (hA : Shows b dev A) (hf : b.Fits) {path : List Char}
  (hplain : ∀ c ∈ components path, ¬ IsDotName c)
include h hA hf hplain

/-- **`resolve_simple`** finds the root or an entry. -/
theorem Tree.resolveSimple_ok {res : ResolveOk} (hres : resolveSimple b path follow dev = .ok res) :
    Found b A H (components path) res := by
  obtain ⟨r, hr, h1⟩ := except_bind_eq_ok.1 hres
  cases r with
  | symlink t m => cases h1
  | found res' =>
    obtain rfl : res' = res := by cases h1; rfl
    unfold resolve at hr
    split_ifs at hr with h0
    · cases hr
      refine ⟨fun _ => rfl, fun cs' c heq => ?_⟩
      rw [h0] at heq
      exact absurd heq (by simp)
    · obtain ⟨cs, c, hcs, h2, h3, h4⟩ := h.resolveLoop_found hA hf .root hplain hr
      refine ⟨fun heq => absurd heq h0, fun cs' c' heq => ?_⟩
      rw [hcs] at heq
      obtain ⟨rfl, hc⟩ := append_inj' heq rfl
      obtain rfl : c = c' := by simpa using hc
      exact ⟨h2, h3, h4⟩

/-- **`resolve_and_lock_dir`** finds the directory at the path. -/
theorem Tree.resolveAndLockDir_ok {e : DirEntryView}
    (hres : resolveAndLockDir b path dev = .ok e) : DirAt b A H (components path) e.firstCluster := by
  obtain ⟨res, hr, h1⟩ := except_bind_eq_ok.1 hres
  split_ifs at h1 with hdir
  · obtain rfl : res.entry = e := by cases h1; rfl
    have hfound := h.resolveSimple_ok hA hf hplain hr
    rcases eq_nil_or_concat (components path) with h0 | ⟨cs, c, h0⟩
    · rw [hfound.root h0, h0]
      exact .root
    · rw [concat_eq_append] at h0
      obtain ⟨h2, h3, -⟩ := hfound.entry cs c h0
      rw [h0]
      exact .sub h2 (hplain c (by rw [h0]; simp)) h3 hdir

end

end

end Archis.Fat32
