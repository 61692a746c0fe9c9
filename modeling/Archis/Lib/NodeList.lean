/-
  Singly linked lists in the memory that they describe.

  A node at the address `a` is two words: a size at `a`, and at `a + 8` the address of the next node, or 0.
  `Seg word p l q`: the links from `p` on run through the nodes `l` to `q`.  `unlinkFirst` takes the first node out that
  passes a test, and `pushFront` writes a node in front.
-/
import Mathlib

namespace Archis.Lib

open List
open Function (update update_of_ne)

/-- The head of a list, and the words of the memory by address. -/
structure NodeMem where
  head : ℕ
  word : ℕ → ℕ

/-- The nodes from `p` on, each with its address and size, up to the link `q`. -/
def Seg (word : ℕ → ℕ) : ℕ → List (ℕ × ℕ) → ℕ → Prop
  | p, [], q => p = q
  | p, (a, n) :: l, q => p = a ∧ a ≠ 0 ∧ word a = n ∧ Seg word (word (a + 8)) l q

def Spaced (l : List (ℕ × ℕ)) : Prop := l.Pairwise fun x y => x.1 + 16 ≤ y.1 ∨ y.1 + 16 ≤ x.1

section
variable {word word' : ℕ → ℕ} {p q r : ℕ} {l l' : List (ℕ × ℕ)}

theorem Seg.append : ∀ {l : List (ℕ × ℕ)} {p : ℕ}, Seg word p l q → Seg word q l' r → Seg word p (l ++ l') r
  | [], p, h, h' => by
    cases h
    exact h'
  | (a, n) :: l, p, ⟨h1, h2, h3, h⟩, h' => ⟨h1, h2, h3, h.append h'⟩

theorem Seg.congr : ∀ {l : List (ℕ × ℕ)} {p : ℕ}, Seg word p l q →
    (∀ x ∈ l, word' x.1 = word x.1 ∧ word' (x.1 + 8) = word (x.1 + 8)) → Seg word' p l q
  | [], _, h, _ => h
  | (a, n) :: l, p, ⟨h1, h2, h3, h⟩, hw => by
    obtain ⟨ha, hn⟩ := hw (a, n) (.head _)
    refine ⟨h1, h2, ha.trans h3, ?_⟩
    rw [hn]
    exact h.congr fun x hx => hw x (.tail _ hx)

theorem Seg.ne_zero : ∀ {l : List (ℕ × ℕ)} {p : ℕ}, Seg word p l q → ∀ x ∈ l, x.1 ≠ 0
  | [], _, _, x, hx => by cases hx
  | (a, n) :: l, p, ⟨_, h2, _, h⟩, x, hx => by
    rcases mem_cons.1 hx with rfl | hx
    · exact h2
    · exact h.ne_zero x hx

def lastAddr (l : List (ℕ × ℕ)) : ℕ := (l.getLast?.map Prod.fst).getD 0

theorem lastAddr_concat (x : ℕ × ℕ) : lastAddr (l ++ [x]) = x.1 := by simp [lastAddr]

theorem Seg.set_last : ∀ {l : List (ℕ × ℕ)} {p : ℕ}, Seg word p l q → Spaced l → l ≠ [] →
    Seg (update word (lastAddr l + 8) r) p l r
  | [], _, _, _, hne => absurd rfl hne
  | [(a, n)], p, ⟨h1, h2, h3, _⟩, _, _ => by
    refine ⟨h1, h2, ?_, ?_⟩
    · rw [update_of_ne (by simp [lastAddr]), h3]
    · simp [Seg, lastAddr]
  | (a, n) :: y :: l, p, ⟨h1, h2, h3, h⟩, hs, _ => by
    have hlast : lastAddr ((a, n) :: y :: l) = lastAddr (y :: l) := by simp [lastAddr]
    -- the last node is another one than the first
    obtain ⟨z, hz, hza⟩ : ∃ z ∈ y :: l, lastAddr (y :: l) = z.1 := by
      refine ⟨(y :: l).getLast (by simp), getLast_mem _, ?_⟩
      simp [lastAddr, getLast?_eq_some_getLast]
    have hap := (pairwise_cons.1 hs).1 z hz
    simp only at hap
    rw [hlast]
    refine ⟨h1, h2, ?_, ?_⟩
    · rw [update_of_ne (by omega), h3]
    · rw [update_of_ne (by omega)]
      exact h.set_last (pairwise_cons.1 hs).2 (by simp)

end

namespace NodeMem

/-- The link after the node `p`; the head is the link after 0. -/
def next (m : NodeMem) (p : ℕ) : ℕ := if p = 0 then m.head else m.word (p + 8)

def setNext (m : NodeMem) (p q : ℕ) : NodeMem :=
  if p = 0 then { m with head := q } else { m with word := update m.word (p + 8) q }

/-- The first node from `cur` on that passes the test is unlinked. -/
def unlinkFirst (test : ℕ → ℕ → Bool) : ℕ → ℕ → ℕ → NodeMem → Option (Option (ℕ × ℕ) × NodeMem)
  | 0, _, _, _ => none
  | fuel + 1, prev, cur, m =>
    if cur = 0 then some (none, m)
    else if test cur (m.word cur) then
      some (some (cur, m.word cur), (m.setNext cur 0).setNext prev (m.next cur))
    else unlinkFirst test fuel cur (m.next cur) m

def pushFront (m : NodeMem) (a n : ℕ) : NodeMem :=
  ⟨a, update (update m.word a n) (a + 8) m.head⟩

def IsList (m : NodeMem) (l : List (ℕ × ℕ)) : Prop := Seg m.word m.head l 0

variable {m m' : NodeMem} {test : ℕ → ℕ → Bool} {l l₁ l₂ : List (ℕ × ℕ)} {a n q w : ℕ}

/-- A link is replaced, and the nodes up to it are as they were. -/
theorem seg_setNext {cur : ℕ} (h : Seg m.word m.head l cur) (hs : Spaced l) :
    Seg (m.setNext (lastAddr l) q).word (m.setNext (lastAddr l) q).head l q := by
  rcases eq_nil_or_concat' l with rfl | ⟨l', x, rfl⟩
  · simp [setNext, lastAddr, Seg]
  have hne : lastAddr (l' ++ [x]) ≠ 0 := by
    rw [lastAddr_concat]
    exact h.ne_zero x (by simp)
  unfold setNext
  rw [if_neg hne]
  exact h.set_last hs (by simp)

theorem setNext_word {p : ℕ} (h : w ≠ p + 8 ∨ p = 0) : (m.setNext p q).word w = m.word w := by
  unfold setNext
  split_ifs with hp
  · rfl
  · exact update_of_ne (h.resolve_right hp) _ _

/-- The link of the last node of a list is not in the header of a node after it. -/
theorem lastAddr_spaced (hs : Spaced (l₁ ++ l₂)) {x : ℕ × ℕ} (hx : x ∈ l₂) :
    lastAddr l₁ = 0 ∨ lastAddr l₁ + 16 ≤ x.1 ∨ x.1 + 16 ≤ lastAddr l₁ := by
  rcases eq_nil_or_concat' l₁ with rfl | ⟨l, y, rfl⟩
  · exact .inl rfl
  · rw [lastAddr_concat]
    exact .inr ((pairwise_append.1 hs).2.2 y (by simp) x hx)

theorem isList_unlink (h₁ : Seg m.word m.head l₁ a) (ha : a ≠ 0)
    (h₂ : Seg m.word (m.word (a + 8)) l₂ 0) (hs : Spaced (l₁ ++ (a, n) :: l₂)) :
    ((m.setNext a 0).setNext (lastAddr l₁) (m.word (a + 8))).IsList (l₁ ++ l₂) := by
  have hhead : (m.setNext a 0).head = m.head := by
    unfold setNext
    rw [if_neg ha]
  have hs₁ : Spaced l₁ := (pairwise_append.1 hs).1
  have hs₂ := (pairwise_cons.1 (pairwise_append.1 hs).2.1).1
  -- the nodes before it keep their headers when its own link is taken
  have hseg₁ : Seg (m.setNext a 0).word (m.setNext a 0).head l₁ a := by
    rw [hhead]
    refine h₁.congr fun x hx => ?_
    have hap := (pairwise_append.1 hs).2.2 x hx (a, n) (by simp)
    simp only at hap
    exact ⟨setNext_word (.inl (by omega)), setNext_word (.inl (by omega))⟩
  refine (seg_setNext hseg₁ hs₁).append (h₂.congr fun x hx => ?_)
  have hap := hs₂ x hx
  have hlast := lastAddr_spaced hs (mem_cons_of_mem (a, n) hx)
  simp only at hap
  constructor
  · rw [setNext_word (by omega), setNext_word (by omega)]
  · rw [setNext_word (by omega), setNext_word (by omega)]

/-- **Taking a node out**: a walk that ends has unlinked the first node that passes the test, and only written
links. -/
theorem unlinkFirst_eq_some : ∀ {fuel : ℕ} {l₁ l₂ : List (ℕ × ℕ)} {cur : ℕ} {r : Option (ℕ × ℕ)}, Seg m.word m.head l₁
    cur → Seg m.word cur l₂ 0 → Spaced (l₁ ++ l₂) → unlinkFirst test fuel (lastAddr l₁) cur m = some (r, m') → r =
    l₂.find? (fun x => test x.1 x.2) ∧ m'.IsList (l₁ ++ l₂.eraseP fun x => test x.1 x.2) ∧ ∀ w, (∀ x ∈ l₁ ++ l₂,
    w ≠ x.1 + 8) → m'.word w = m.word w
  | 0, _, _, _, _, _, _, _, h => by cases h
  | fuel + 1, l₁, [], cur, r, h₁, h₂, _, h => by
    cases h₂
    rw [unlinkFirst, if_pos rfl] at h
    cases h
    exact ⟨rfl, by simpa [IsList] using h₁, fun _ _ => rfl⟩
  | fuel + 1, l₁, (a, n) :: l₂, cur, r, h₁, ⟨hcur, ha, hn, h₂⟩, hs, h => by
    subst hcur
    rw [unlinkFirst, if_neg ha, hn] at h
    have hnext : m.next cur = m.word (cur + 8) := if_neg ha
    cases ht : test cur n with
    | true =>
      rw [ht, if_pos rfl, hnext] at h
      cases h
      refine ⟨by simp [ht], ?_, fun w hw => ?_⟩
      · have herase : ((cur, n) :: l₂).eraseP (fun x => test x.1 x.2) = l₂ :=
          eraseP_cons_of_pos (by simpa using ht)
        rw [herase]
        exact isList_unlink h₁ ha h₂ hs
      · have hlast : w ≠ lastAddr l₁ + 8 ∨ lastAddr l₁ = 0 := by
          rcases eq_nil_or_concat' l₁ with rfl | ⟨l, y, rfl⟩
          · exact .inr rfl
          · rw [lastAddr_concat]
            exact .inl (hw y (by simp))
        rw [setNext_word hlast, setNext_word (.inl (hw (cur, n) (by simp)))]
    | false =>
      rw [ht, if_neg (by simp), hnext] at h
      have hstep : Seg m.word m.head (l₁ ++ [(cur, n)]) (m.word (cur + 8)) := h₁.append ⟨rfl, ha, hn, rfl⟩
      have hlast : lastAddr (l₁ ++ [(cur, n)]) = cur := lastAddr_concat (cur, n)
      obtain ⟨hr, hlist, hword⟩ := unlinkFirst_eq_some hstep h₂ (by rwa [append_assoc]) (by rw [hlast]; exact h)
      rw [append_assoc] at hlist hword
      refine ⟨by simp [ht, hr], ?_, hword⟩
      have herase : ((cur, n) :: l₂).eraseP (fun x => test x.1 x.2) =
          (cur, n) :: l₂.eraseP fun x => test x.1 x.2 := eraseP_cons_of_neg (by simpa using ht)
      rw [herase]
      exact hlist

theorem unlinkFirst_isSome : ∀ {fuel : ℕ} {l : List (ℕ × ℕ)} {prev cur : ℕ}, Seg m.word cur l 0 →
    l.length < fuel → (unlinkFirst test fuel prev cur m).isSome = true
  | 0, _, _, _, _, h => by omega
  | fuel + 1, [], prev, cur, hseg, _ => by
    have hcur : cur = 0 := hseg
    rw [unlinkFirst, if_pos hcur]
    rfl
  | fuel + 1, (a, n) :: l, prev, cur, ⟨hcur, ha, hn, hseg⟩, h => by
    subst hcur
    rw [unlinkFirst, if_neg ha]
    split_ifs
    · rfl
    · have hnext : m.next cur = m.word (cur + 8) := if_neg ha
      rw [hnext]
      exact unlinkFirst_isSome hseg (by simpa using h)

theorem pushFront_word (h₁ : w ≠ a) (h₂ : w ≠ a + 8) : (m.pushFront a n).word w = m.word w := by
  simp only [pushFront, update_of_ne h₁, update_of_ne h₂]

/-- **A new node in front**, whose header is apart from the others. -/
theorem isList_pushFront (h : m.IsList l) (ha : a ≠ 0)
    (hs : Spaced ((a, n) :: l)) : (m.pushFront a n).IsList ((a, n) :: l) := by
  have hap := (pairwise_cons.1 hs).1
  refine ⟨rfl, ha, ?_, ?_⟩
  · simp [pushFront, update_of_ne]
  have hlink : (m.pushFront a n).word (a + 8) = m.head := by simp [pushFront]
  rw [hlink]
  refine h.congr fun x hx => ?_
  have hx' := hap x hx
  simp only at hx'
  exact ⟨pushFront_word (by omega) (by omega), pushFront_word (by omega) (by omega)⟩

end NodeMem

end Archis.Lib
