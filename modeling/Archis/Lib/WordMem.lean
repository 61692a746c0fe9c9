/-
  Words in a byte memory, and linked lists of them.

  `ListMem` is a memory with the head of a list in it: `Seg` of `NodeList` at the words of the memory.  `walk` follows the
  links up to the first node that passes a test, and `isList_unlink` and `isList_link` take a node out there or put one
  in.
-/
import Archis.Lib.Bytes
import Archis.Lib.NodeList

namespace Archis.Lib

open List

/-! ## Words -/

def wordAt (m : ℕ → UInt8) (a : ℕ) : ℕ := ofLe (load m a 8)

def setWord (m : ℕ → UInt8) (a v : ℕ) : ℕ → UInt8 := store m a (toLe 8 v)

section
variable {m m' : ℕ → UInt8} {a b v x : ℕ}

theorem wordAt_lt : wordAt m a < 2 ^ 64 := by
  have := ofLe_lt (load m a 8)
  rwa [length_load] at this

theorem wordAt_congr (h : ∀ x, a ≤ x → x < a + 8 → m' x = m x) : wordAt m' a = wordAt m a := by
  rw [wordAt, wordAt, load_congr fun k hk => h (a + k) (by omega) (by omega)]

theorem wordAt_setWord_self (hv : v < 2 ^ 64) : wordAt (setWord m a v) a = v := by
  have hload := load_store_self m a (toLe 8 v)
  rw [length_toLe] at hload
  rw [wordAt, setWord, hload]
  exact ofLe_toLe_of_lt hv

theorem setWord_of_disjoint (h : x < a ∨ a + 8 ≤ x) : setWord m a v x = m x :=
  store_of_disjoint (by rwa [length_toLe])

theorem wordAt_setWord_of_ne (h : b + 8 ≤ a ∨ a + 8 ≤ b) : wordAt (setWord m a v) b = wordAt m b :=
  wordAt_congr fun x _ _ => setWord_of_disjoint (by omega)

theorem wordAt_setWord (hv : v < 2 ^ 64) (h : b = a ∨ b + 8 ≤ a ∨ a + 8 ≤ b) :
    wordAt (setWord m a v) b = Function.update (wordAt m) a v b := by
  rcases h with rfl | h
  · rw [wordAt_setWord_self hv, Function.update_self]
  · rw [wordAt_setWord_of_ne h, Function.update_of_ne (by omega)]

end

/-! ## Lists -/

structure ListMem where
  head : ℕ
  mem : ℕ → UInt8

namespace ListMem

/-- The link after the node `p`; the head is the link after 0. -/
def link (m : ListMem) (p : ℕ) : ℕ := if p = 0 then m.head else wordAt m.mem (p + 8)

def setLink (m : ListMem) (p q : ℕ) : ListMem :=
  if p = 0 then { m with head := q } else { m with mem := setWord m.mem (p + 8) q }

/-- The links are followed from `p` on: the last node before the first that passes the test, or before the end. -/
def walk (m : ListMem) (stop : ℕ → Bool) : ℕ → ℕ → Option ℕ
  | 0, _ => none
  | fuel + 1, p => if m.link p = 0 ∨ stop (m.link p) then some p else walk m stop fuel (m.link p)

/-- The nodes from `p` on, up to `q`. -/
def IsSeg (m : ListMem) (p : ℕ) (l : List (ℕ × ℕ)) (q : ℕ) : Prop := Seg (wordAt m.mem) p l q

def IsList (m : ListMem) (l : List (ℕ × ℕ)) : Prop := m.IsSeg m.head l 0

variable {m : ListMem} {l l₁ l₂ : List (ℕ × ℕ)} {stop : ℕ → Bool} {p q a n : ℕ}

theorem isSeg_split : ∀ {l₁ : List (ℕ × ℕ)} {p : ℕ}, m.IsSeg p (l₁ ++ (a, n) :: l₂) q →
    m.IsSeg p l₁ a ∧ m.IsSeg a ((a, n) :: l₂) q
  | [], p, h => ⟨h.1, rfl, h.2⟩
  | y :: l₁, p, ⟨h1, h2, h3, h⟩ => by
    obtain ⟨ha, hb⟩ : m.IsSeg _ l₁ a ∧ _ := isSeg_split h
    exact ⟨⟨h1, h2, h3, ha⟩, hb⟩

/-- **Where a walk stops.** -/
theorem walk_eq : ∀ (fuel : ℕ) (l₁ l₂ : List (ℕ × ℕ)), m.IsSeg m.head l₁ (m.link (lastAddr l₁)) →
    m.IsSeg (m.link (lastAddr l₁)) l₂ 0 → m.walk stop fuel (lastAddr l₁) = some p →
    ∃ k₁ k₂, l₁ ++ l₂ = k₁ ++ k₂ ∧ p = lastAddr k₁ ∧ m.IsSeg m.head k₁ (m.link p) ∧ m.IsSeg (m.link p) k₂ 0 ∧
      (∀ x, k₂.head? = some x → stop x.1 = true) ∧ ∀ x ∈ k₁, x ∈ l₁ ∨ stop x.1 = false
  | 0, _, _, _, _, h => by cases h
  | fuel + 1, l₁, [], h₁, h₂, h => by
    have hend : m.link (lastAddr l₁) = 0 := h₂
    rw [walk, if_pos (.inl hend)] at h
    cases h
    exact ⟨l₁, [], rfl, rfl, h₁, h₂, nofun, fun x hx => .inl hx⟩
  | fuel + 1, l₁, (a, n) :: l₂, h₁, h₂, h => by
    obtain ⟨hcur, ha, hn, hrest⟩ := id h₂
    rw [walk, hcur] at h
    cases ht : stop a with
    | true =>
      rw [if_pos (.inr ht)] at h
      cases h
      refine ⟨l₁, (a, n) :: l₂, rfl, rfl, h₁, h₂, ?_, fun x hx => .inl hx⟩
      rintro x hx
      cases hx
      exact ht
    | false =>
      rw [hcur] at h₁
      rw [if_neg (by simp [ha, ht])] at h
      have hlink : m.link a = wordAt m.mem (a + 8) := if_neg ha
      have hlast : lastAddr (l₁ ++ [(a, n)]) = a := lastAddr_concat (a, n)
      have hstep : m.IsSeg m.head (l₁ ++ [(a, n)]) (m.link a) := Seg.append h₁ ⟨rfl, ha, hn, hlink.symm⟩
      obtain ⟨k₁, k₂, heq, hp, hk₁, hk₂, hhead, hbefore⟩ := walk_eq fuel (l₁ ++ [(a, n)]) l₂
        (by rwa [hlast]) (by rw [hlast, hlink]; exact hrest) (by rwa [hlast])
      refine ⟨k₁, k₂, by simpa using heq, hp, hk₁, hk₂, hhead, fun x hx => ?_⟩
      rcases hbefore x hx with hx' | hx'
      · rcases mem_append.1 hx' with hx' | hx'
        · exact .inl hx'
        · obtain rfl := mem_singleton.1 hx'
          exact .inr ht
      · exact .inr hx'

theorem IsList.walk {fuel : ℕ} (h : m.IsList l) (hw : m.walk stop fuel 0 = some p) :
    ∃ k₁ k₂, l = k₁ ++ k₂ ∧ p = lastAddr k₁ ∧ m.IsSeg m.head k₁ (m.link p) ∧ m.IsSeg (m.link p) k₂ 0 ∧
      (∀ x, k₂.head? = some x → stop x.1 = true) ∧ ∀ x ∈ k₁, stop x.1 = false := by
  have hhead : m.link (lastAddr []) = m.head := if_pos rfl
  obtain ⟨k₁, k₂, heq, hp, h₁, h₂, hh, hb⟩ := walk_eq fuel [] l (by rw [hhead]; rfl) (by rw [hhead]; exact h) hw
  exact ⟨k₁, k₂, heq, hp, h₁, h₂, hh, fun x hx => (hb x hx).resolve_left not_mem_nil⟩

theorem setLink_mem {x : ℕ} (h : p = 0 ∨ x < p + 8 ∨ p + 16 ≤ x) : (m.setLink p q).mem x = m.mem x := by
  unfold setLink
  split_ifs with hp
  · rfl
  · exact setWord_of_disjoint (by omega)

theorem IsSeg.congr {m' : ListMem} (h : m.IsSeg p l q)
    (hw : ∀ x ∈ l, ∀ y, x.1 ≤ y → y < x.1 + 16 → m'.mem y = m.mem y) : m'.IsSeg p l q :=
  Seg.congr h fun x hx => ⟨wordAt_congr fun y _ _ => hw x hx y (by omega) (by omega),
    wordAt_congr fun y _ _ => hw x hx y (by omega) (by omega)⟩

theorem IsSeg.setLink (h : m.IsSeg m.head l q) (hs : Spaced l) {r : ℕ} (hr : r < 2 ^ 64) :
    (m.setLink (lastAddr l) r).IsSeg (m.setLink (lastAddr l) r).head l r := by
  rcases eq_nil_or_concat' l with rfl | ⟨l', x, rfl⟩
  · show (if 0 = 0 then _ else _ : ListMem).head = r
    rfl
  have hne : lastAddr (l' ++ [x]) ≠ 0 := by
    rw [lastAddr_concat]
    exact Seg.ne_zero h x (by simp)
  unfold ListMem.setLink
  rw [if_neg hne]
  refine Seg.congr (Seg.set_last (r := r) h hs (by simp)) fun y hy => ?_
  -- the headers are apart
  have hap : y = x ∨ y.1 + 16 ≤ x.1 ∨ x.1 + 16 ≤ y.1 := by
    rcases mem_append.1 hy with hy' | hy'
    · exact .inr ((pairwise_append.1 hs).2.2 y hy' x (by simp))
    · exact .inl (mem_singleton.1 hy')
  rw [lastAddr_concat]
  constructor
  · exact wordAt_setWord hr (by rcases hap with rfl | hap <;> omega)
  · exact wordAt_setWord hr (by rcases hap with rfl | hap <;> omega)

theorem lastAddr_apart (hs : Spaced (l₁ ++ l₂)) {x : ℕ × ℕ} (hx : x ∈ l₂) :
    lastAddr l₁ = 0 ∨ lastAddr l₁ + 16 ≤ x.1 ∨ x.1 + 16 ≤ lastAddr l₁ := NodeMem.lastAddr_spaced hs hx

/-- **A node is taken out.** -/
theorem isList_unlink (h₁ : m.IsSeg m.head l₁ a) (h₂ : m.IsSeg a ((a, n) :: l₂) 0)
    (hs : Spaced (l₁ ++ (a, n) :: l₂)) : (m.setLink (lastAddr l₁) (wordAt m.mem (a + 8))).IsList (l₁ ++ l₂) := by
  have hsub : Spaced (l₁ ++ l₂) := hs.sublist ((sublist_cons_self _ _).append_left l₁)
  obtain ⟨-, -, -, hrest⟩ := h₂
  refine Seg.append (h₁.setLink (pairwise_append.1 hs).1 wordAt_lt) ?_
  refine IsSeg.congr (m := m) hrest fun x hx y _ _ => setLink_mem ?_
  have := lastAddr_apart hsub hx
  omega

/-- **A node is put in**, its header being apart from the others. -/
theorem isList_link {r : ℕ} (h₁ : m.IsSeg m.head l₁ r) (h₂ : m.IsSeg r l₂ 0) (ha : a ≠ 0) (hlt : a < 2 ^ 64)
    (hn : wordAt m.mem a = n) (hr : wordAt m.mem (a + 8) = r) (hs : Spaced (l₁ ++ (a, n) :: l₂)) :
    (m.setLink (lastAddr l₁) a).IsList (l₁ ++ (a, n) :: l₂) := by
  refine Seg.append (h₁.setLink (pairwise_append.1 hs).1 hlt) ?_
  have hseg : m.IsSeg a ((a, n) :: l₂) 0 := ⟨rfl, ha, hn, hr ▸ h₂⟩
  refine IsSeg.congr (m := m) hseg fun x hx y _ _ => setLink_mem ?_
  have := lastAddr_apart hs hx
  omega

end ListMem

end Archis.Lib
