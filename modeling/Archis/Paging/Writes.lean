/-
  What the page mapper does to the tables of an address space.

  `Writes S r s l s'`: a run of the mapper adds tables and writes entries of the last level, in the part of the tree that
  starts with the indices `S`; `l` are the paths and entries that it has written, in order.
-/
import Archis.Paging.Mapper

namespace Archis.Paging

open Archis.Lib Archis.Lib.Radix List

/-- The tables of the address space with the PML4 `r`, for the first indices `S`. -/
structure Tables (S : Set ℕ) (r : ℕ) (s : Machine) : Prop where
  recursive : child (s.mem r RECURSIVE_SLOT) = some r
  slot : RECURSIVE_SLOT ∉ S
  tree : Tree child S 3 s.mem r
  fresh : ∀ g ∈ s.free, g < 2 ^ 40 ∧ Fresh child S 3 s.mem r g
  nodup : s.free.Nodup

/-- A new table at the site. -/
def Machine.grow (s : Machine) (f i g : ℕ) (free : List ℕ) : Machine :=
  { s with mem := Radix.grow s.mem f i (tableEntry g) g 0, free }

def Machine.put (s : Machine) (f i : ℕ) (e : UInt64) : Machine := { s with mem := Radix.put s.mem f i e }

/-- Runs of the mapper, with the entries that they have written. -/
inductive Writes (S : Set ℕ) (r : ℕ) (s : Machine) : List (List ℕ × UInt64) → Machine → Prop
  | refl : Writes S r s [] s
  /-- A table is added. -/
  | grow {l s' p i f g free} : Writes S r s l s' → s'.free = g :: free →
      Site child S 3 s'.mem r p i f g (tableEntry g) 0 → Writes S r s l (s'.grow f i g free)
  /-- An entry of the last level is written. -/
  | put {l s' p i f} (e : UInt64) : Writes S r s l s' → Starts S p → p.length = 3 →
      node child s'.mem r p = some f → Writes S r s (l ++ [(p ++ [i], e)]) (s'.put f i e)

variable {S : Set ℕ} {r : ℕ} {s s' s'' : Machine} {l l' : List (List ℕ × UInt64)} {p q : List ℕ} {i f g : ℕ}
  {e : UInt64} {free : List ℕ}

theorem Writes.trans (h₁ : Writes S r s l s') (h₂ : Writes S r s' l' s'') : Writes S r s (l ++ l') s'' := by
  induction h₂ with
  | refl => rwa [append_nil]
  | grow _ hfree hsite ih => exact .grow ih hfree hsite
  | put e _ hp hlen hf ih =>
    rw [← append_assoc]
    exact .put e ih hp hlen hf

/-! ## One step -/

theorem Tables.put_slot (h : Tables S r s) (hp : Starts S (p ++ [i])) (hlen : p.length ≤ 3)
    (hf : node child s.mem r p = some f) : Radix.put s.mem f i e r RECURSIVE_SLOT = s.mem r RECURSIVE_SLOT := by
  refine put_of_ne ?_
  by_contra hboth
  rw [not_or, not_not, not_not] at hboth
  obtain ⟨rfl, rfl⟩ := hboth
  have hroot : node child s.mem r [] = some r := rfl
  obtain rfl := h.tree p [] _ (hp.of_prefix (prefix_append _ _)) (fun _ hi => by cases hi) hlen (by decide) hf hroot
  exact h.slot (hp _ rfl)

theorem Tables.grow (h : Tables S r s) (hfree : s.free = g :: free)
    (hsite : Site child S 3 s.mem r p i f g (tableEntry g) 0) : Tables S r (s.grow f i g free) := by
  have hnodup := h.nodup
  rw [hfree, nodup_cons] at hnodup
  refine ⟨?_, h.slot, hsite.grow_tree, fun g' hg' => ?_, hnodup.2⟩
  · have hrg : r ≠ g := fun hr => hsite.fresh [] (fun _ hi => by cases hi) (by decide) (by rw [hr]; rfl)
    have hsame : Radix.grow s.mem f i (tableEntry g) g 0 r RECURSIVE_SLOT = s.mem r RECURSIVE_SLOT := by
      rw [Radix.grow, fill_of_ne hrg, h.put_slot hsite.starts hsite.short.le hsite.node]
    exact (congrArg child hsame).trans h.recursive
  · have hmem : g' ∈ s.free := hfree ▸ mem_cons_of_mem _ hg'
    exact ⟨(h.fresh g' hmem).1, hsite.grow_fresh (h.fresh g' hmem).2 fun he => hnodup.1 (he ▸ hg')⟩

theorem Tables.node_put (h : Tables S r s) (hp : Starts S p) (hlen : p.length = 3)
    (hf : node child s.mem r p = some f) (hq : Starts S q) (hqn : q.length ≤ 3) :
    node child (s.put f i e).mem r q = node child s.mem r q ∧
      entries child (s.put f i e).mem r q = entries child s.mem r q :=
  h.tree.put_congr hp hlen.le hf hq (by omega) ( not_prefix (by omega))

theorem Tables.put (h : Tables S r s) (hp : Starts S p) (hlen : p.length = 3)
    (hf : node child s.mem r p = some f) : Tables S r (s.put f i e) := by
  refine ⟨?_, h.slot, h.tree.put hp hlen hf, fun g hg => ⟨(h.fresh g hg).1, fun q hq hqn => ?_⟩, h.nodup⟩
  · obtain ⟨a, t, rfl⟩ := exists_cons_of_length_pos (l := p) (by omega)
    exact (congrArg child (h.put_slot (i := i) (fun _ hi => hp _ hi) hlen.le hf)).trans h.recursive
  · rw [(h.node_put hp hlen hf hq hqn).1]
    exact (h.fresh g hg).2 q hq hqn

/-! ## Runs -/

theorem Writes.tables (h : Writes S r s l s') (hs : Tables S r s) : Tables S r s' := by
  induction h with
  | refl => exact hs
  | grow _ hfree hsite ih => exact ih.grow hfree hsite
  | put e _ hp hlen hf ih => exact ih.put hp hlen hf

theorem Writes.same (h : Writes S r s l s') :
    s'.cr3 = s.cr3 ∧ s'.pge = s.pge ∧ s'.pat = s.pat ∧ s'.free <:+ s.free := by
  induction h with
  | refl => exact ⟨rfl, rfl, rfl, suffix_rfl⟩
  | grow _ hfree _ ih =>
    obtain ⟨h1, h2, h3, h4⟩ := ih
    exact ⟨h1, h2, h3, (hfree ▸ suffix_cons _ _).trans h4⟩
  | put e _ _ _ _ ih => exact ih

theorem Writes.next (h : Writes S s.cr3 s l s') (hs : Tables S s.cr3 s) : Tables S s'.cr3 s' :=
  h.same.1.symm ▸ h.tables hs

theorem Writes.then (h₁ : Writes S s.cr3 s l s') (h₂ : Writes S s'.cr3 s' l' s'') : Writes S s.cr3 s (l ++ l') s'' :=
  h₁.trans (h₁.same.1 ▸ h₂)

theorem Writes.node_mono (h : Writes S r s l s') (hs : Tables S r s) (hq : Starts S q) (hqn : q.length ≤ 3)
    (hf : node child s.mem r q = some f) : node child s'.mem r q = some f := by
  induction h with
  | refl => exact hf
  | @grow l s' p i f' g free hw hfree hsite ih =>
    have hne : q ≠ p ++ [i] := by
      rintro rfl
      rw [node_concat hsite.node, hsite.absent] at ih
      cases ih
    exact (hsite.grow_of_ne hq (by omega) hne).1.trans ih
  | put e hw hp hlen hf' ih => exact ((hw.tables hs).node_put hp hlen hf' hq hqn).1.trans ih

theorem Site.entries_grow (hsite : Site child S 3 s.mem r p i f g (tableEntry g) 0) (hq : Starts S q)
    (hqn : q.length ≤ 3) {es : List UInt64} (h : entries child s.mem r q = some es) :
    entries child (s.grow f i g free).mem r q = some es := by
  have hne : q ≠ p ++ [i] := by
    rintro rfl
    have hnone : node child s.mem r (p ++ [i]) = none := by rw [node_concat hsite.node, hsite.absent]
    rw [entries_eq_none hnone] at h
    cases h
  exact (hsite.grow_of_ne hq (by omega) hne).2.trans h

def written (l : List (List ℕ × UInt64)) (q : List ℕ) : Option UInt64 :=
  l.foldl (fun e x => if x.1 = q then some x.2 else e) none

theorem written_concat (l : List (List ℕ × UInt64)) (p q : List ℕ) (e : UInt64) :
    written (l ++ [(p, e)]) q = if p = q then some e else written l q := by
  simp [written]

theorem written_eq_none {l : List (List ℕ × UInt64)} (h : ∀ x ∈ l, x.1 ≠ q) : written l q = none := by
  induction l using reverseRecOn with
  | nil => rfl
  | append_singleton l x ih =>
    rw [written_concat, if_neg (h x (by simp))]
    exact ih fun y hy => h y (by simp [hy])

theorem written_eq_some {l : List (List ℕ × UInt64)} (hl : (l.map Prod.fst).Nodup) (h : (q, e) ∈ l) :
    written l q = some e := by
  induction l using reverseRecOn with
  | nil => cases h
  | append_singleton l x ih =>
    rw [map_append, nodup_append] at hl
    obtain ⟨hl, -, hx⟩ := hl
    rw [written_concat]
    rcases mem_append.1 h with h | h
    · rw [if_neg fun hxq => hx q (mem_map_of_mem h) x.1 (by simp) hxq.symm]
      exact ih hl h
    · rw [← mem_singleton.1 h, if_pos rfl]

/-- **The walk of an address** afterwards is the one before, or leads to the entry that has been written
last. -/
theorem Writes.entries_eq (h : Writes S r s l s') (hs : Tables S r s) (hq : Starts S (q ++ [i])) (hqn : q.length = 3) :
    (written l (q ++ [i]) = none → entries child s'.mem r (q ++ [i]) = entries child s.mem r (q ++ [i])) ∧
      ∀ e, written l (q ++ [i]) = some e → ∃ es, entries child s'.mem r q = some es ∧
        entries child s'.mem r (q ++ [i]) = (child e).map fun _ => es ++ [e] := by
  have hlen : (q ++ [i]).length = 4 := by rw [length_append, hqn, length_singleton]
  have hq' : Starts S q := hq.of_prefix (prefix_append _ _)
  induction h with
  | refl => exact ⟨fun _ => rfl, fun e he => by cases he⟩
  | @grow l s' p j f g free hw hfree hsite ih =>
    have hne : q ++ [i] ≠ p ++ [j] := by
      intro heq
      have := hsite.short
      rw [heq, length_append, length_singleton] at hlen
      omega
    have hsame : entries child (s'.grow f j g free).mem r (q ++ [i]) = entries child s'.mem r (q ++ [i]) :=
      (hsite.grow_of_ne hq (by omega) hne).2
    rw [hsame]
    refine ⟨ih.1, fun e he => ?_⟩
    obtain ⟨es, hes, hent⟩ := ih.2 e he
    exact ⟨es, Site.entries_grow hsite hq' (by omega) hes, hent⟩
  | @put l s' p j f e hw hp hplen hf ih =>
    have htab := hw.tables hs
    have hpath : entries child (s'.put f j e).mem r q = entries child s'.mem r q :=
      (htab.node_put hp hplen hf hq' (by omega)).2
    rw [written_concat]
    split_ifs with heq
    · -- this is the entry that is written
      obtain ⟨rfl, hij⟩ := append_inj heq (by rw [hplen, hqn])
      cases hij
      refine ⟨fun h => (by cases h), fun e' he' => ?_⟩
      cases he'
      have hnode : node child (s'.put f i e).mem r p = some f := (htab.node_put hp hplen hf hq' (by omega)).1.trans hf
      obtain ⟨es, hes⟩ : ∃ es, entries child (s'.put f i e).mem r p = some es := by
        rw [← Option.isSome_iff_exists, entries_isSome, hnode]
        rfl
      refine ⟨es, hes, ?_⟩
      rw [entries_append hnode, hes, Option.bind_some]
      have hself : (s'.put f i e).mem f i = e := put_self
      cases hc : child e with
      | none => simp [entries, hself, hc]
      | some c => simp [entries, hself, hc]
    · have hsame : entries child (s'.put f j e).mem r (q ++ [i]) = entries child s'.mem r (q ++ [i]) :=
        (htab.tree.put_congr hp hplen.le hf hq (by omega) fun hpre =>
          heq (hpre.eq_of_length (by rw [length_append, length_singleton, hplen, hlen]))).2
      rw [hsame, hpath]
      exact ih

/-- The tables on the way to an address were there before, or are open to user mode. -/
theorem Writes.old_or_user (h : Writes S r s l s') (hs : Tables S r s) : ∀ {q : List ℕ}, Starts S q →
    q.length ≤ 3 → ∀ {es : List UInt64}, entries child s'.mem r q = some es →
      ∀ e ∈ es, isUser e = true ∨ e ∈ trail child s.mem r q := by
  induction h with
  | refl =>
    intro q _ _ es hes e he
    rw [entries_eq_trail hes]
    exact .inr he
  | @grow l s' p i f g free hw hfree hsite ih =>
    intro q hq hqn es hes e he
    by_cases heq : q = p ++ [i]
    · subst heq
      obtain ⟨hparent, hpes⟩ := hsite.grow_parent
      have hself : Radix.grow s'.mem f i (tableEntry g) g 0 f i = tableEntry g := hsite.grow_self
      have happ : entries child (s'.grow f i g free).mem r (p ++ [i]) =
          (entries child s'.mem r p).map (· ++ [tableEntry g]) := by
        rw [Machine.grow, entries_append hparent, hpes]
        cases entries child s'.mem r p with
        | none => rfl
        | some es => simp [entries, hself, hsite.leads]
      rw [happ] at hes
      obtain ⟨es', hes', rfl⟩ := Option.map_eq_some_iff.1 hes
      rcases mem_append.1 he with he | he
      · exact (ih hsite.starts' hsite.short.le hes' e he).imp id fun hmem => trail_subset_append hmem
      · rw [mem_singleton.1 he]
        exact .inl (isUser_tableEntry g)
    · have hsame := (hsite.grow_of_ne hq (by omega) heq).2
      exact ih hq hqn (hsame.symm.trans hes) e he
  | put e hw hp hplen hf ih =>
    intro q hq hqn es hes
    exact ih hq hqn (((hw.tables hs).node_put hp hplen hf hq hqn).2.symm.trans hes)

end Archis.Paging
