/-
  Radix trees in memory.

  A node of the memory holds an entry for each index, which leads to another node (`child`) or is absent.
    * `node`, `entries`, `trail`: the node that a path of indices leads to, and the entries on the way;
    * `Tree S n`: different paths of at most `n` indices that start in `S` lead to different nodes;
    * `Tree.put`, `Site.grow_tree`: an entry is written, and an absent one gets a new node.
-/
import Mathlib

namespace Archis.Lib.Radix

open List

variable {ν ι ε : Type} (child : ε → Option ν)

def node (mem : ν → ι → ε) : ν → List ι → Option ν
  | r, [] => some r
  | r, i :: p => (child (mem r i)).bind fun c => node mem c p

/-- The entries on a path, if none of them is absent. -/
def entries (mem : ν → ι → ε) : ν → List ι → Option (List ε)
  | _, [] => some []
  | r, i :: p => (child (mem r i)).bind fun c => (entries mem c p).map (mem r i :: ·)

/-- The entries on a path, up to the first absent one. -/
def trail (mem : ν → ι → ε) : ν → List ι → List ε
  | _, [] => []
  | r, i :: p =>
    match child (mem r i) with
    | none => []
    | some c => mem r i :: trail mem c p

variable {child} {mem mem' : ν → ι → ε} {r f g : ν} {p q : List ι} {i : ι} {e : ε}

theorem node_append : ∀ {p : List ι} {r : ν},
    node child mem r (p ++ q) = (node child mem r p).bind fun c => node child mem c q
  | [], _ => rfl
  | i :: p, r => by
    rw [cons_append, node, node, Option.bind_assoc]
    exact congrArg _ (funext fun c => node_append)

theorem node_concat (h : node child mem r p = some f) : node child mem r (p ++ [i]) = child (mem f i) := by
  rw [node_append, h]
  simp [node]

theorem node_cons_self (h : child (mem r i) = some r) : node child mem r (i :: q) = node child mem r q := by
  rw [node, h, Option.bind_some]

theorem entries_append : ∀ {p : List ι} {r : ν} {c : ν}, node child mem r p = some c → entries child mem r (p ++ q) =
      (entries child mem r p).bind fun es => (entries child mem c q).map (es ++ ·)
  | [], r, c, h => by
    cases h
    simp [entries]
  | i :: p, r, c, h => by
    obtain ⟨d, hd, h⟩ := Option.bind_eq_some_iff.1 h
    simp only [cons_append, entries, hd, Option.bind_some, entries_append h]
    cases entries child mem d p with
    | none => rfl
    | some es => simp [Function.comp_def]

theorem entries_isSome : ∀ {p : List ι} {r : ν}, (entries child mem r p).isSome = (node child mem r p).isSome
  | [], _ => rfl
  | i :: p, r => by
    rw [entries, node]
    cases child (mem r i) with
    | none => rfl
    | some c => simp [entries_isSome]

theorem entries_eq_none (h : node child mem r p = none) : entries child mem r p = none := by
  rw [← Option.isNone_iff_eq_none, ← Option.not_isSome, entries_isSome, h]
  rfl

theorem entries_eq_trail : ∀ {p : List ι} {r : ν} {es : List ε}, entries child mem r p = some es →
    trail child mem r p = es
  | [], _, _, h => by
    cases h
    rfl
  | i :: p, r, es, h => by
    obtain ⟨c, hc, h⟩ := Option.bind_eq_some_iff.1 h
    obtain ⟨es', hes, rfl⟩ := Option.map_eq_some_iff.1 h
    rw [trail, hc]
    exact congrArg _ (entries_eq_trail hes)

theorem trail_subset_append : ∀ {p : List ι} {r : ν}, trail child mem r p ⊆ trail child mem r (p ++ q)
  | [], _ => nil_subset _
  | i :: p, r => by
    rw [cons_append, trail, trail]
    cases child (mem r i) with
    | none => exact nil_subset _
    | some c => exact cons_subset_cons _ trail_subset_append

theorem path_congr : ∀ {q : List ι} {r : ν}, (∀ p i f, p ++ [i] <+: q → node child mem r p = some f →
    mem' f i = mem f i) → node child mem' r q = node child mem r q ∧ entries child mem' r q = entries child mem r q
  | [], _, _ => ⟨rfl, rfl⟩
  | j :: q, r, h => by
    have hfirst : mem' r j = mem r j := h [] j r ⟨q, rfl⟩ rfl
    simp only [node, entries, hfirst]
    cases hc : child (mem r j) with
    | none => exact ⟨rfl, rfl⟩
    | some c =>
      obtain ⟨hn, he⟩ := path_congr (q := q) (r := c) fun p i f hp hf =>
        h (j :: p) i f ((cons_prefix_cons).2 ⟨rfl, hp⟩) (by rw [node, hc]; exact hf)
      simp only [Option.bind_some, hn, he, true_and]

/-- The first index of the path, if it has one, is in `S`. -/
def Starts (S : Set ι) (p : List ι) : Prop := ∀ i ∈ p.head?, i ∈ S

theorem Starts.of_prefix {S : Set ι} (h : Starts S q) (hp : p <+: q) : Starts S p := by
  obtain ⟨t, rfl⟩ := hp
  intro i hi
  cases p with
  | nil => cases hi
  | cons j p => exact h i hi

theorem not_prefix (h : q.length ≤ p.length) : ¬ p ++ [i] <+: q := fun hpre => by
  have := hpre.length_le
  rw [length_append, length_singleton] at this
  omega

/-- **Trees**: paths of at most `n` indices, the first of them in `S`, lead to different nodes. -/
def Tree (child : ε → Option ν) (S : Set ι) (n : ℕ) (mem : ν → ι → ε) (r : ν) : Prop :=
  ∀ p q f, Starts S p → Starts S q → p.length ≤ n → q.length ≤ n →
    node child mem r p = some f → node child mem r q = some f → p = q

def Fresh (child : ε → Option ν) (S : Set ι) (n : ℕ) (mem : ν → ι → ε) (r g : ν) : Prop :=
  ∀ p, Starts S p → p.length ≤ n → node child mem r p ≠ some g

section
variable [DecidableEq ν] [DecidableEq ι] {S : Set ι} {n : ℕ}

def put (mem : ν → ι → ε) (f : ν) (i : ι) (e : ε) : ν → ι → ε :=
  Function.update mem f (Function.update (mem f) i e)

def fill (mem : ν → ι → ε) (g : ν) (e : ε) : ν → ι → ε := Function.update mem g fun _ => e

theorem put_self : put mem f i e f i = e := by simp [put]

theorem put_of_ne {f' : ν} {j : ι} (h : f' ≠ f ∨ j ≠ i) : put mem f i e f' j = mem f' j := by
  unfold put
  by_cases hf : f' = f
  · subst hf
    rw [Function.update_self, Function.update_of_ne (h.resolve_left fun hne => hne rfl)]
  · rw [Function.update_of_ne hf]

omit [DecidableEq ι] in
theorem fill_of_ne {f' : ν} (h : f' ≠ g) : fill mem g e f' = mem f' := Function.update_of_ne h ..

theorem Tree.put_congr (h : Tree child S n mem r) (hp : Starts S p) (hlen : p.length ≤ n)
    (hf : node child mem r p = some f) (hq : Starts S q) (hqn : q.length ≤ n + 1) (hno : ¬ p ++ [i] <+: q) :
    node child (put mem f i e) r q = node child mem r q ∧
      entries child (put mem f i e) r q = entries child mem r q := by
  refine path_congr fun p' j f' hp' hf' => put_of_ne ?_
  by_contra hboth
  rw [not_or, not_not, not_not] at hboth
  obtain ⟨rfl, rfl⟩ := hboth
  have hshort : p'.length ≤ n := by
    have := hp'.length_le
    rw [length_append, length_singleton] at this
    omega
  obtain rfl := h p p' f' hp (hq.of_prefix ((prefix_append p' [j]).trans hp')) hlen hshort hf hf'
  exact hno hp'

theorem Tree.put_node (h : Tree child S n mem r) (hp : Starts S p) (hlen : p.length ≤ n)
    (hf : node child mem r p = some f) : node child (put mem f i e) r p = some f ∧
      entries child (put mem f i e) r p = entries child mem r p := by
  obtain ⟨h1, h2⟩ := h.put_congr hp hlen hf hp (by omega) ( not_prefix le_rfl)
  exact ⟨h1.trans hf, h2⟩

/-- **An entry at the end of the tree is written.** -/
theorem Tree.put (h : Tree child S n mem r) (hp : Starts S p) (hlen : p.length = n)
    (hf : node child mem r p = some f) : Tree child S n (Radix.put mem f i e) r := by
  intro q q' f' hq hq' hqn hqn' hqf hqf'
  have hsame : ∀ {t : List ι}, Starts S t → t.length ≤ n →
      node child (Radix.put mem f i e) r t = node child mem r t := fun {t} ht htn =>
    (h.put_congr hp hlen.le hf ht (by omega) ( not_prefix (by omega))).1
  rw [hsame hq hqn] at hqf
  rw [hsame hq' hqn'] at hqf'
  exact h q q' f' hq hq' hqn hqn' hqf hqf'

/-- An absent entry of a tree, and a new node for it. -/
structure Site (child : ε → Option ν) (S : Set ι) (n : ℕ) (mem : ν → ι → ε) (r : ν) (p : List ι) (i : ι)
    (f g : ν) (e z : ε) : Prop where
  tree : Tree child S n mem r
  starts : Starts S (p ++ [i])
  short : p.length < n
  node : node child mem r p = some f
  absent : child (mem f i) = none
  fresh : Fresh child S n mem r g
  leads : child e = some g
  empty : child z = none

/-- The entry leads to the new node, which is empty. -/
def grow (mem : ν → ι → ε) (f : ν) (i : ι) (e : ε) (g : ν) (z : ε) : ν → ι → ε := fill (put mem f i e) g z

section
variable {z : ε} (h : Site child S n mem r p i f g e z)
include h

omit [DecidableEq ν] [DecidableEq ι] in
theorem Site.starts' : Starts S p := h.starts.of_prefix (prefix_append p [i])

omit [DecidableEq ν] [DecidableEq ι] in
theorem Site.ne : f ≠ g := by
  rintro rfl
  exact h.fresh p h.starts' h.short.le h.node

theorem Site.grow_self : grow mem f i e g z f i = e := by
  rw [grow, fill_of_ne h.ne, put_self]

theorem Site.grow_congr (hq : Starts S q) (hqn : q.length ≤ n + 1) (hno : ¬ p ++ [i] <+: q) :
    Radix.node child (grow mem f i e g z) r q = Radix.node child mem r q ∧
      entries child (grow mem f i e g z) r q = entries child mem r q := by
  refine path_congr fun p' j f' hp' hf' => ?_
  have hstarts : Starts S p' := hq.of_prefix ((prefix_append p' [j]).trans hp')
  have hshort : p'.length ≤ n := by
    have := hp'.length_le
    rw [length_append, length_singleton] at this
    omega
  have hfg : f' ≠ g := by
    rintro rfl
    exact h.fresh p' hstarts hshort hf'
  rw [grow, fill_of_ne hfg]
  refine put_of_ne ?_
  by_contra hboth
  rw [not_or, not_not, not_not] at hboth
  obtain ⟨rfl, rfl⟩ := hboth
  obtain rfl := h.tree p p' f' h.starts' hstarts h.short.le hshort h.node hf'
  exact hno hp'

theorem Site.grow_parent : Radix.node child (grow mem f i e g z) r p = some f ∧
    entries child (grow mem f i e g z) r p = entries child mem r p := by
  obtain ⟨h1, h2⟩ := h.grow_congr h.starts' (by have := h.short; omega) ( not_prefix le_rfl)
  exact ⟨h1.trans h.node, h2⟩

theorem Site.grow_node_self : Radix.node child (grow mem f i e g z) r (p ++ [i]) = some g := by
  rw [node_concat h.grow_parent.1, h.grow_self, h.leads]

/-- Nothing is below the new node, as nothing was below the absent entry. -/
theorem Site.node_below {t : List ι} (ht : t ≠ []) : Radix.node child (grow mem f i e g z) r
    (p ++ [i] ++ t) = none ∧ Radix.node child mem r (p ++ [i] ++ t) = none := by
  obtain ⟨j, t, rfl⟩ := exists_cons_of_ne_nil ht
  have hz : grow mem f i e g z g j = z := by simp [grow, fill]
  constructor
  · rw [node_append, h.grow_node_self, Option.bind_some, Radix.node, hz, h.empty, Option.bind_none]
  · rw [node_append, node_concat h.node, h.absent, Option.bind_none]

/-- **A new node**: the path to it leads there, and all other paths are as before. -/
theorem Site.grow_of_ne (hq : Starts S q) (hqn : q.length ≤ n + 1) (hne : q ≠ p ++ [i]) :
    Radix.node child (grow mem f i e g z) r q = Radix.node child mem r q ∧
      entries child (grow mem f i e g z) r q = entries child mem r q := by
  by_cases hpre : p ++ [i] <+: q
  · obtain ⟨t, rfl⟩ := hpre
    have ht : t ≠ [] := by
      rintro rfl
      exact hne (append_nil _)
    obtain ⟨h1, h2⟩ := h.node_below ht
    exact ⟨h1.trans h2.symm, (entries_eq_none h1).trans (entries_eq_none h2).symm⟩
  · exact h.grow_congr hq hqn hpre

theorem Site.grow_fresh {g' : ν} (hg' : Fresh child S n mem r g') (hne : g' ≠ g) :
    Fresh child S n (grow mem f i e g z) r g' := by
  intro q hq hqn hqg
  by_cases hqp : q = p ++ [i]
  · subst hqp
    rw [h.grow_node_self] at hqg
    exact hne (Option.some.inj hqg).symm
  · rw [(h.grow_of_ne hq (by omega) hqp).1] at hqg
    exact hg' q hq hqn hqg

theorem Site.grow_tree : Tree child S n (grow mem f i e g z) r := by
  -- only the path to the new node leads to it
  have hold : ∀ {t : List ι} {c : ν}, Starts S t → t.length ≤ n →
      Radix.node child (grow mem f i e g z) r t = some c → t = p ++ [i] ∧ c = g ∨
        Radix.node child mem r t = some c ∧ c ≠ g := by
    intro t c ht htn htc
    by_cases htp : t = p ++ [i]
    · subst htp
      rw [h.grow_node_self] at htc
      exact .inl ⟨rfl, (Option.some.inj htc).symm⟩
    · rw [(h.grow_of_ne ht (by omega) htp).1] at htc
      refine .inr ⟨htc, ?_⟩
      rintro rfl
      exact h.fresh t ht htn htc
  intro q q' c hq hq' hqn hqn' hqc hqc'
  rcases hold hq hqn hqc with ⟨rfl, rfl⟩ | ⟨hqc, hne⟩
  · rcases hold hq' hqn' hqc' with ⟨rfl, -⟩ | ⟨-, hne⟩
    · rfl
    · exact absurd rfl hne
  · rcases hold hq' hqn' hqc' with ⟨-, rfl⟩ | ⟨hqc', -⟩
    · exact absurd rfl hne
    · exact h.tree q q' c hq hq' hqn hqn' hqc hqc'

end

end

end Archis.Lib.Radix
