/-
  The check of user buffers: `check_user_range_locked`, `copy_from_user` and `copy_to_user`.

  The check walks through the mapped user blocks, adding the whole length of a block to its cursor wherever in the
  block the cursor stands (`Hop`).  `check_exact_iff`: it is exact precisely when the range does not wrap around and is
  covered or strands the walk.
-/
import Archis.Mem.VirtRuns

namespace Archis.Mem

open Archis.Lib Relation
open VirtMemConBlk (range)

def userMapped (d : PageDescriptor) : Bool := d.isMapped && d.flags &&& PageDescriptor.USER != 0

def holds (curPtr : ℕ) (d : PageDescriptor) : Bool :=
  userMapped d && (curPtr ≥ d.startVirtAddress && curPtr < virtField.wstop d)

/-- The inner loop: one pass over the list, with the cursor and `is_found`. -/
def scan : List PageDescriptor → ℕ → Bool → ℕ × Bool
  | [], curPtr, isFound => (curPtr, isFound)
  | node :: rest, curPtr, isFound =>
    if holds curPtr node then scan rest (wadd curPtr (wmul node.numPages PAGE_SIZE)) true
    else scan rest curPtr isFound

/-- The outer loop, cut off after `fuel` passes. -/
def checkLoop (l : List PageDescriptor) (stop : ℕ) : ℕ → ℕ → Bool → Option Bool
  | 0, _, _ => none
  | fuel + 1, curPtr, isFound =>
    if curPtr < stop && isFound then
      checkLoop l stop fuel (scan l curPtr false).1 (scan l curPtr false).2
    else some (decide (curPtr ≥ stop))

section
variable (l : List PageDescriptor)

/-- `check_user_range_locked` on the `alloc_block_list` of an address space. -/
def checkUserRangeLocked (virtAddr size fuel : ℕ) : Option Bool :=
  checkLoop l (wadd virtAddr size) fuel virtAddr true

/-- `copy_from_user` and `copy_to_user`: the reply, and the user memory that `copy_user_memory` touches. -/
def copyUser (user len fuel : ℕ) : Option (Except KError (ℕ × ℕ)) :=
  if len = 0 then some (.ok (user, 0))
  else
    (checkUserRangeLocked l user len fuel).map fun ok =>
      if ok then .ok (user, len) else .error .invalidArgument

def copyFromUser (userSrc len fuel : ℕ) : Option (Except KError (ℕ × ℕ)) :=
  copyUser l userSrc len fuel

def copyToUser (userDest len fuel : ℕ) : Option (Except KError (ℕ × ℕ)) :=
  copyUser l userDest len fuel

/-! ## The walk -/

def InUser (x : ℕ) : Prop :=
  ∃ d ∈ l, userMapped d = true ∧ x ∈ range d

def Covered (virtAddr size : ℕ) : Prop :=
  ∀ x, virtAddr ≤ x → x < virtAddr + size → InUser l x

/-- One advance of the cursor, by the length of the block it stands in. -/
def Hop (c c' : ℕ) : Prop :=
  ∃ d ∈ l, userMapped d = true ∧ c ∈ range d ∧ c' = c + d.numPages * PAGE_SIZE

/-- The walk from `c` comes to an address below `stop` that is not in user-mapped memory. -/
def Strands (c stop : ℕ) : Prop :=
  ∃ e, ReflTransGen (Hop l) c e ∧ e < stop ∧ ¬ InUser l e

/-- No cursor in a user-mapped block leaves the 64-bit addresses when it advances. -/
def Room : Prop :=
  ∀ d ∈ l, userMapped d = true → virtField.stop d + d.numPages * PAGE_SIZE ≤ 2 ^ 64

def Apart : Prop :=
  l.Pairwise fun d e => Disjoint (range d) (range e)

end

section
variable {l : List PageDescriptor}
variable {c c' stop virtAddr size : ℕ} {d : PageDescriptor}

theorem Hop.lt (h : Hop l c c') : c < c' := by
  obtain ⟨d, -, -, ⟨h1, h2⟩, rfl⟩ := h
  simp only [AddrField.stop, virtField_get] at h2
  omega

theorem le_of_hops {e : ℕ} (h : ReflTransGen (Hop l) c e) : c ≤ e := by
  induction h with
  | refl => exact le_rfl
  | tail _ h ih => exact ih.trans h.lt.le

theorem Apart.disjoint (hl : Apart l) {e : PageDescriptor} (hd : d ∈ l) (he : e ∈ l) (hne : d ≠ e) :
    Disjoint (range d) (range e) := by
  have : Std.Symm fun d e => Disjoint (range d) (range e) :=
    ⟨fun _ _ h => h.symm⟩
  exact List.Pairwise.forall hl hd he hne

theorem Apart.eq_of_mem_range (h : Apart l) {e : PageDescriptor} {x : ℕ} (hd : d ∈ l) (he : e ∈ l)
    (hxd : x ∈ range d) (hxe : x ∈ range e) : d = e := by
  by_contra hne
  exact Set.disjoint_left.1 (h.disjoint hd he hne) hxd hxe

theorem Apart.not_mem_eraseIdx (h : Apart l) {i x : ℕ} (hi : l[i]? = some d)
    (hx : x ∈ range d) : ∀ e ∈ l.eraseIdx i, x ∉ range e := by
  intro e he hxe
  obtain ⟨j, hji, hj⟩ := List.mem_eraseIdx_iff_getElem?.1 he
  obtain ⟨hil, rfl⟩ := List.getElem?_eq_some_iff.1 hi
  obtain ⟨hjl, rfl⟩ := List.getElem?_eq_some_iff.1 hj
  rcases Nat.lt_or_gt_of_ne hji with hlt | hlt
  · exact Set.disjoint_left.1 (List.pairwise_iff_getElem.1 h j i hjl hil hlt) hxe hx
  · exact Set.disjoint_left.1 (List.pairwise_iff_getElem.1 h i j hil hjl hlt) hx hxe

theorem hop_rightUnique (hl : Apart l) : Relator.RightUnique (Hop l) := by
  rintro c _ _ ⟨d, hd, -, hcd, rfl⟩ ⟨e, he, -, hce, rfl⟩
  rw [hl.eq_of_mem_range hd he hcd hce]

theorem Strands.of_hops (h : ReflTransGen (Hop l) c c') (hs : Strands l c' stop) :
    Strands l c stop := by
  obtain ⟨e, he, hlt, hno⟩ := hs
  exact ⟨e, h.trans he, hlt, hno⟩

theorem strands_iff_of_hops (hl : Apart l) (h : ReflTransGen (Hop l) c c') :
    Strands l c stop ↔ Strands l c' stop := by
  refine ⟨?_, .of_hops h⟩
  rintro ⟨e, he, hlt, hno⟩
  rcases ReflTransGen.total_of_right_unique (hop_rightUnique hl) he h with h' | h'
  · -- nothing leads on from where the walk strands
    rcases ReflTransGen.cases_head h' with rfl | ⟨f, ⟨d, hd, hu, hin, -⟩, -⟩
    · exact ⟨e, .refl, hlt, hno⟩
    · exact absurd ⟨d, hd, hu, hin⟩ hno
  · exact ⟨e, h', hlt, hno⟩

/-! ## The loops -/

/-- With room, the condition of the inner loop is that the cursor stands in the block. -/
theorem holds_iff (hr : Room l) (hd : d ∈ l) : holds c d = true ↔ userMapped d = true ∧ c ∈ range d := by
  simp only [holds, Bool.and_eq_true, decide_eq_true_eq, range, Set.mem_Ico, ge_iff_le]
  refine and_congr_right fun hu => and_congr_right fun h1 => ?_
  have hroom := hr d hd hu
  constructor
  · intro h
    exact h.trans_le (by simp only [AddrField.wstop, wadd, wmul, AddrField.stop]
                         exact (Nat.mod_le _ _).trans (Nat.add_le_add_left (Nat.mod_le _ _) _))
  · intro h
    have hpos : 0 < d.numPages * PAGE_SIZE := by
      simp only [AddrField.stop, virtField_get] at h; omega
    rw [AddrField.wstop_eq (by omega)]; exact h

theorem advance_eq (hr : Room l) (hd : d ∈ l) (hu : userMapped d = true) (hc : c ∈ range d) :
    wadd c (wmul d.numPages PAGE_SIZE) = c + d.numPages * PAGE_SIZE := by
  have hroom := hr d hd hu
  have hlt : c < virtField.stop d := hc.2
  have hle : d.numPages * PAGE_SIZE ≤ virtField.stop d := Nat.le_add_left _ _
  rw [wmul_eq (by omega), wadd_eq (by omega)]

/-- **One pass** of the inner loop: the cursor hops along, and stands still only outside the blocks of the pass.
-/
theorem scan_spec (hr : Room l) : ∀ (rest : List PageDescriptor) (c : ℕ) (found : Bool), rest ⊆ l →
    ReflTransGen (Hop l) c (scan rest c found).1 ∧ ((scan rest c found).2 = true → found = true ∨
    c < (scan rest c found).1) ∧ ((scan rest c found).2 = false → found = false ∧
    (scan rest c found).1 = c ∧ ∀ d ∈ rest, userMapped d = true → c ∉ range d)
  | [], c, found, _ => ⟨.refl, fun h => .inl h, fun h => ⟨h, rfl, by simp⟩⟩
  | d :: rest, c, found, hsub => by
    have hd : d ∈ l := hsub (by simp)
    have hrest : rest ⊆ l := fun e he => hsub (by simp [he])
    rw [scan]
    split_ifs with h
    · obtain ⟨hu, hc⟩ := (holds_iff hr hd).1 h
      have hhop : Hop l c (wadd c (wmul d.numPages PAGE_SIZE)) :=
        ⟨d, hd, hu, hc, advance_eq hr hd hu hc⟩
      obtain ⟨h1, -, h3⟩ := scan_spec hr rest (wadd c (wmul d.numPages PAGE_SIZE)) true hrest
      refine ⟨.head hhop h1, fun _ => .inr (hhop.lt.trans_le (le_of_hops h1)), fun hf => ?_⟩
      exact absurd (h3 hf).1 (by decide)
    · obtain ⟨h1, h2, h3⟩ := scan_spec hr rest c found hrest
      refine ⟨h1, h2, fun hf => ⟨(h3 hf).1, (h3 hf).2.1, ?_⟩⟩
      intro e he hu hc
      rcases List.mem_cons.1 he with rfl | he
      · exact h ((holds_iff hr hd).2 ⟨hu, hc⟩)
      · exact (h3 hf).2.2 e he hu hc

/-- **The check ends**, with `true` unless its walk strands below the end of the range. -/
theorem checkLoop_spec (hr : Room l) (hl : Apart l) (stop : ℕ) : ∀ (fuel c : ℕ), stop - c < fuel →
    ∃ b, checkLoop l stop fuel c true = some b ∧ (b = true ↔ ¬ Strands l c stop)
  | 0, c, h => by omega
  | fuel + 1, c, h => by
    rw [checkLoop, Bool.and_true]
    split_ifs with hc
    · rw [decide_eq_true_eq] at hc
      obtain ⟨h1, h2, h3⟩ := scan_spec hr l c false (fun _ h => h)
      cases hf : (scan l c false).2 with
      | true =>
        have hlt : c < (scan l c false).1 := by simpa using h2 hf
        obtain ⟨b, hb, hiff⟩ := checkLoop_spec hr hl stop fuel (scan l c false).1 (by omega)
        exact ⟨b, hb, hiff.trans (not_congr (strands_iff_of_hops hl h1).symm)⟩
      | false =>
        -- the cursor stands in no block: the walk is stranded here
        obtain ⟨-, hsame, hno⟩ := h3 hf
        have hst : Strands l c stop := ⟨c, .refl, hc, fun ⟨d, hd, hu, hin⟩ => hno d hd hu hin⟩
        cases fuel with
        | zero => omega
        | succ fuel =>
          refine ⟨false, ?_, by simp [hst]⟩
          rw [hsame, checkLoop, Bool.and_false, if_neg (by decide)]
          simpa using hc
    · rw [decide_eq_true_eq, not_lt] at hc
      refine ⟨true, by simpa using hc, iff_of_true rfl ?_⟩
      rintro ⟨e, he, hlt, -⟩
      exact absurd (hc.trans (le_of_hops he)) (not_le.2 hlt)

theorem checkLoop_mono {r : Bool} : ∀ (fuel fuel' c : ℕ) (found : Bool), fuel ≤ fuel' →
    checkLoop l stop fuel c found = some r → checkLoop l stop fuel' c found = some r
  | 0, _, _, _, _, h => by cases h
  | fuel + 1, 0, _, _, hle, _ => by omega
  | fuel + 1, fuel' + 1, c, found, hle, h => by
    rw [checkLoop] at h ⊢
    split_ifs at h ⊢ with hc
    · exact checkLoop_mono fuel fuel' _ _ (by omega) h
    · exact h

theorem check_unique {fuel fuel' : ℕ} {b b' : Bool} (h : checkUserRangeLocked l virtAddr size fuel =
    some b) (h' : checkUserRangeLocked l virtAddr size fuel' = some b') : b = b' := by
  rcases le_total fuel fuel' with hle | hle
  · have := checkLoop_mono fuel fuel' _ _ hle h
    exact Option.some.inj (this.symm.trans h')
  · have := checkLoop_mono fuel' fuel _ _ hle h'
    exact Option.some.inj (h.symm.trans this)

/-! ## When the check is exact -/

theorem Covered.not_strands (h : Covered l virtAddr size) : ¬ Strands l virtAddr (virtAddr + size) := by
  rintro ⟨e, he, hlt, hno⟩
  exact hno (h e (le_of_hops he) hlt)

theorem Covered.mono {l' : List PageDescriptor} {addr : ℕ}
    (h : ∀ d ∈ l, d.isMapped = true → d ∈ l') (hc : Covered l addr size) : Covered l' addr size := by
  intro x h1 h2
  obtain ⟨d, hd, hu, hx⟩ := hc x h1 h2
  simp only [userMapped, Bool.and_eq_true] at hu
  exact ⟨d, h d hd hu.1, by simpa [userMapped] using hu, hx⟩

/-- The check returns, and its result is that the range is covered and does not wrap around. -/
def Exact (l : List PageDescriptor) (virtAddr size : ℕ) : Prop :=
  ∃ b, (∃ fuel, checkUserRangeLocked l virtAddr size fuel = some b) ∧
    (b = true ↔ virtAddr + size < 2 ^ 64 ∧ Covered l virtAddr size)

/-- Every byte that a copy from or to `[user, user + len)` touches is user-mapped. -/
def CopySafe (l : List PageDescriptor) (user len : ℕ) : Prop :=
  ∀ fuel u n, copyFromUser l user len fuel = some (.ok (u, n)) ∨
    copyToUser l user len fuel = some (.ok (u, n)) → ∀ x, u ≤ x → x < u + n → InUser l x

theorem exact_iff (hl : Apart l) (hr : Room l) (hv : virtAddr < 2 ^ 64) (hz : 0 < size)
    (hz' : size < 2 ^ 64) : Exact l virtAddr size ↔ virtAddr + size < 2 ^ 64 ∧
    (Covered l virtAddr size ∨ Strands l virtAddr (virtAddr + size)) := by
  by_cases hw : virtAddr + size < 2 ^ 64
  · obtain ⟨b, hb, hiff⟩ := checkLoop_spec hr hl (wadd virtAddr size) _ virtAddr (Nat.lt_succ_self _)
    rw [wadd_eq hw] at hiff
    constructor
    · rintro ⟨b', ⟨fuel, hb'⟩, hexact⟩
      have hbb : b' = b := check_unique hb' hb
      refine ⟨hw, ?_⟩
      by_cases hst : Strands l virtAddr (virtAddr + size)
      · exact .inr hst
      · exact .inl (hexact.1 (hbb.trans (hiff.2 hst))).2
    · rintro ⟨-, hcase⟩
      refine ⟨b, ⟨_, hb⟩, hiff.trans ?_⟩
      rcases hcase with hcov | hst
      · exact iff_of_true hcov.not_strands ⟨hw, hcov⟩
      · exact iff_of_false (not_not.2 hst) fun h => h.2.not_strands hst
  · -- the end wraps below the start: the loop is not entered
    refine iff_of_false ?_ fun h => hw h.1
    rintro ⟨b, ⟨fuel, hb⟩, hexact⟩
    have hstop : ¬ virtAddr < wadd virtAddr size := by unfold wadd; omega
    have htrue : checkUserRangeLocked l virtAddr size 1 = some true := by
      rw [checkUserRangeLocked, checkLoop, Bool.and_true, if_neg (by simpa using hstop)]
      simpa using hstop
    exact hw (hexact.1 (check_unique hb htrue)).1

theorem copySafe_of_exact (hz : 0 < size) (h : Exact l virtAddr size) :
    CopySafe l virtAddr size := by
  obtain ⟨b, ⟨fuel, hb⟩, hexact⟩ := h
  intro fuel' u n hcopy x hx hx'
  simp only [copyFromUser, copyToUser, or_self, copyUser, if_neg hz.ne', Option.map_eq_some_iff] at hcopy
  obtain ⟨b', hb', hcopy⟩ := hcopy
  have hbb : b' = b := check_unique hb' hb
  split_ifs at hcopy with htrue
  · cases hcopy
    exact (hexact.1 (hbb.symm.trans htrue)).2 x hx hx'

def userPage (virt : ℕ) : PageDescriptor := ⟨1, 0, virt, PageDescriptor.USER, true⟩

end

/-! ## Address spaces of processes -/

namespace VirtMemConBlk

theorem apart_room_of_cover {s : VirtMemConBlk} (hb : s.Bounded) (hle : ∀ x, s.cover x ≤ 1)
    (huser : ∀ x, 0 < s.cover x → x ∈ userRange) : Apart s.allocBlockList ∧ Room s.allocBlockList := by
  have halloc : ∀ x, virtField.cover s.allocBlockList x ≤ s.cover x := fun x => Nat.le_add_left _ _
  refine ⟨pairwise_disjoint_of_cover _ _ fun x => (halloc x).trans (hle x), fun d hd _ => ?_⟩
  by_cases h0 : d.numPages = 0
  · have h1 := (hb.alloc d hd).2
    have h2 := kernelEnd_lt
    rw [h0]; omega
  -- the last byte of the block is a user address
  have hstop : virtField.stop d = d.startVirtAddress + d.numPages * PAGE_SIZE := rfl
  have hpos : 0 < d.numPages * PAGE_SIZE := Nat.mul_pos (Nat.pos_of_ne_zero h0) (by decide)
  have hlast : 0 < s.cover (virtField.stop d - 1) :=
    lt_of_lt_of_le (hits_pos.2 ⟨show virtField.get d ≤ _ by simp only [virtField_get]; omega,
      by omega⟩) ((hits_le_cover virtField.get virtField.stop hd _).trans (halloc _))
  have hlt : virtField.stop d - 1 < KERNEL_HALF_OFFSET_RAW := (huser _ hlast).2
  simp only [KERNEL_HALF_OFFSET_RAW] at hlt
  omega

end VirtMemConBlk

end Archis.Mem
