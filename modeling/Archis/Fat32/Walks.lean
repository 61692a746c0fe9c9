/-
  The walks along the links of a FAT, and when they return.

  `free_chain` returns from every image: an entry that it comes to again is free by then.  `read_chain` and `grow_chain`
  return exactly if the links they follow come to an end (`Walk.Ends`), within `Walk.bound` rounds.
-/
import Archis.Fat32.FileRuns

namespace Archis.Fat32

open Archis.Lib

/-! ## The walks -/

/-- A call of one of the four functions. -/
inductive Walk where
  | readChain (firstCluster : ℕ)
  | growChain (firstCluster : ℕ)
  | clusterAtIndex (firstCluster targetIndex : ℕ) (extend : Bool)
  | freeChain (startCluster : ℕ)
  deriving DecidableEq, Repr

namespace Walk

def first : Walk → ℕ
  | .readChain c | .growChain c | .clusterAtIndex c _ _ | .freeChain c => c

/-- How far `cluster_at_index` has to go. -/
def targetIndex : Walk → ℕ
  | .clusterAtIndex _ t _ => t
  | _ => 0

/-- The call, with so many rounds of its loop; it hangs if the loop has not ended by then. -/
def run (b : Bpb) (rounds : ℕ) : Walk → FsM Unit
  | .readChain c =>
    if c < 2 then pure () else do let _ ← readDev fun d => readChainLoop b d rounds c []
  | .growChain c => do
    let tail ← readDev fun d => walkToTail b d rounds c
    let _ ← extendAt b tail
  | .clusterAtIndex c t extend =>
    -- one round for each link
    if rounds < t then throw .hang
    else if extend then do let _ ← clusterAtIndexExtend b t c
    else do let _ ← readDev fun d => clusterAtIndexWalk b d t c
  | .freeChain c => if c < 2 then pure () else freeChainLoop b rounds c

/-- The call returns within so many rounds, with a result or an error. -/
def Returns (b : Bpb) (v : Vol) (rounds : ℕ) (w : Walk) : Prop :=
  wp (w.run b rounds) (fun _ _ => True) (fun e _ => e ≠ .hang) v

end Walk

/-- `read_chain` goes on from an entry that is neither an end of chain nor free. -/
def readLink (b : Bpb) (d : Dev) (c : ℕ) : Option ℕ :=
  if isEoc (fatAt b d c) || isFree (fatAt b d c) then none else some (fatAt b d c)

/-- `grow_chain` takes the number of a free entry for a link to cluster 0. -/
def tailLink (b : Bpb) (d : Dev) (c : ℕ) : Option ℕ :=
  if isEoc (fatAt b d c) then none else some (fatAt b d c)

def Walk.Ends (b : Bpb) (d : Dev) : Walk → Prop
  | .readChain c => c < 2 ∨ ∃ l, Lib.Linked (readLink b d) c l
  | .growChain c => ∃ l, Lib.Linked (tailLink b d) c l
  | .clusterAtIndex _ _ _ | .freeChain _ => True

/-- There are `2 ^ 28` values of an entry, and the walk may start from another number. -/
def Walk.bound (w : Walk) : ℕ := max w.targetIndex (2 ^ 28 + 2)

def LinksInside (b : Bpb) (d : Dev) : Prop :=
  ∀ c < b.clusterEnd, fatAt b d c < b.clusterEnd ∨ isEoc (fatAt b d c)

section
variable {b : Bpb} {d : Dev} {v : Vol} {c n : ℕ} {S : Finset ℕ} {α : Type}

theorem fatAt_lt : fatAt b d c < 2 ^ 28 := Nat.mod_lt _ (by norm_num)

/-! ## Walks that only read -/

theorem readChainLoop_ne_hang_iff (hd : d.Healthy) (hb : b.Valid) : ∀ {n c : ℕ} {out : List UInt8},
    readChainLoop b d n c out ≠ .error .hang ↔ ∃ l, Lib.Linked (readLink b d) c l ∧ l.length ≤ n
  | 0, c, out => iff_of_false (fun h => h rfl) not_exists_linked_zero
  | n + 1, c, out => by
    rw [readChainLoop, readSectors_eq hd (Shows.clusterSize_mod hb) hb.clusterSize_pos, readFatEntry_eq hd]
    simp only [bind, Except.bind]
    by_cases heoc : isEoc (fatAt b d c) = true
    · have hnone : readLink b d c = none := by rw [readLink, heoc, Bool.true_or, if_pos rfl]
      rw [if_pos heoc]
      exact iff_of_true (by simp [pure, Except.pure]) (exists_linked_of_none hnone n)
    by_cases hfree : isFree (fatAt b d c) = true
    · have hnone : readLink b d c = none := by rw [readLink, hfree, Bool.or_true, if_pos rfl]
      rw [if_neg heoc, if_pos hfree]
      exact iff_of_true (by simp [throw, throwThe, MonadExceptOf.throw]) (exists_linked_of_none hnone n)
    · have hsome : readLink b d c = some (fatAt b d c) := by
        rw [readLink, if_neg (by simp [heoc, hfree])]
      rw [if_neg heoc, if_neg hfree, exists_linked_succ hsome]
      exact readChainLoop_ne_hang_iff hd hb

theorem walkToTail_ne_hang_iff (hd : d.Healthy) :
    ∀ {n c : ℕ}, walkToTail b d n c ≠ .error .hang ↔ ∃ l, Lib.Linked (tailLink b d) c l ∧ l.length ≤ n
  | 0, c => iff_of_false (fun h => h rfl) not_exists_linked_zero
  | n + 1, c => by
    rw [walkToTail, readFatEntry_eq hd]
    simp only [bind, Except.bind]
    by_cases heoc : isEoc (fatAt b d c) = true
    · have hnone : tailLink b d c = none := by rw [tailLink, if_pos heoc]
      rw [if_pos heoc]
      exact iff_of_true (by simp [pure, Except.pure]) (exists_linked_of_none hnone n)
    · have hsome : tailLink b d c = some (fatAt b d c) := by rw [tailLink, if_neg heoc]
      rw [if_neg heoc, exists_linked_succ hsome]
      exact walkToTail_ne_hang_iff hd

/-! ## Freeing -/

theorem fatAt_put_zero (copy c existing x : ℕ) :
    fatAt b (d.put (b.fatAddr copy c) (toLe 4 (mergeEntry existing 0))) x =
      if b.fatAddr 0 x = b.fatAddr copy c then 0 else fatAt b d x := by
  split_ifs with heq
  · have h1 := load_store_self d.bytes (b.fatAddr 0 x) (toLe 4 (mergeEntry existing 0))
    rw [length_toLe] at h1
    rw [fatAt, Dev.put, ← heq, h1, ofLe_toLe, Nat.mod_mod_of_dvd _ (by decide), mergeEntry_mod, Nat.zero_mod]
  · rw [fatAt, Dev.put, load_store_of_disjoint, fatAt]
    rw [length_toLe]
    simp only [Bpb.fatAddr, SECTOR_SIZE] at heq ⊢
    omega

/-- The first copy of the entry of `c` is free, and every other entry is as before or free. -/
structure Freed (b : Bpb) (d d' : Dev) (c : ℕ) : Prop where
  healthy : d'.Healthy
  self : fatAt b d' c = 0
  other : ∀ x, fatAt b d' x = fatAt b d x ∨ fatAt b d' x = 0

theorem writeFatCopies_zero (c : ℕ) : ∀ {copies : List ℕ} {v : Vol}, v.dev.Healthy →
    wp (writeFatCopies b c 0 copies) (fun _ w => w.dev.Healthy ∧
      (∀ x, fatAt b w.dev x = fatAt b v.dev x ∨ fatAt b w.dev x = 0) ∧
      (0 ∈ copies → fatAt b w.dev c = 0)) (fun _ _ => False) v
  | [], v, hv => ⟨hv, fun _ => .inl rfl, by simp⟩
  | copy :: copies, v, hv => by
    have hlen : ∀ x, (splice (load v.dev.bytes ((fatSectorAndOffset b copy c).1 * SECTOR_SIZE)
        SECTOR_SIZE) (fatSectorAndOffset b copy c).2 (toLe 4 x)).length = SECTOR_SIZE := by
      intro x
      rw [length_splice (by rw [length_load, length_toLe]; exact b.fatSectorAndOffset_off copy c), length_load]
    rw [writeFatCopies]
    simp only
    rw [wp_bind, wp_readDev (readSectors_eq hv (by decide) (by decide)), wp_bind,
      wp_of_ok (writeSectors_eq hv (by rw [hlen]; decide) (by rw [hlen]; decide)),
      put_entry copy c _ (length_toLe _ _)]
    refine (writeFatCopies_zero (v := { v with dev := v.dev.put (b.fatAddr copy c) _ }) c (hv.put _ _)).imp ?_
    rintro - w ⟨hw, hother, hself⟩
    refine ⟨hw, fun x => ?_, fun hmem => ?_⟩
    · rcases hother x with h1 | h1
      · rw [h1, fatAt_put_zero]
        split_ifs
        · exact .inr rfl
        · exact .inl rfl
      · exact .inr h1
    · rcases List.mem_cons.1 hmem with rfl | hmem
      · rcases hother c with h1 | h1
        · rw [h1, fatAt_put_zero, if_pos rfl]
        · exact h1
      · exact hself hmem

theorem writeFatEntry_zero (hv : v.dev.Healthy) (hb : b.Valid) (c : ℕ) :
    wp (writeFatEntry b c 0) (fun _ w => Freed b v.dev w.dev c) (fun _ _ => False) v := by
  refine (writeFatCopies_zero c hv).imp ?_
  rintro - w ⟨hw, hother, hself⟩
  refine ⟨hw, hself (List.mem_range.2 ?_), hother⟩
  have h0 : b.numFats.toNat ≠ 0 := fun h => hb.numFats (UInt8.toNat_inj.1 h)
  omega

def used (b : Bpb) (d : Dev) (S : Finset ℕ) : Finset ℕ := S.filter fun x => fatAt b d x ≠ 0

theorem Freed.card_used_lt {d' : Dev} (h : Freed b d d' c) (hc : c ∈ S)
    (hused : fatAt b d c ≠ 0) : (used b d' S).card < (used b d S).card := by
  refine Finset.card_lt_card ((Finset.ssubset_iff_of_subset fun x hx => ?_).2 ⟨c, ?_, ?_⟩)
  · obtain ⟨hxS, hx0⟩ := Finset.mem_filter.1 hx
    refine Finset.mem_filter.2 ⟨hxS, fun h0 => hx0 ?_⟩
    rcases h.other x with h1 | h1
    · rw [h1, h0]
    · exact h1
  · exact Finset.mem_filter.2 ⟨hc, hused⟩
  · exact fun hmem => (Finset.mem_filter.1 hmem).2 h.self

/-- **`free_chain` returns.**  Each round but the last makes an entry free that was in use. -/
theorem freeChainLoop_returns (hb : b.Valid) : ∀ {n c : ℕ} {v : Vol}, v.dev.Healthy →
    c ∈ S → (∀ x ∈ S, ∀ y, readLink b v.dev x = some y → y ∈ S) → (used b v.dev S).card < n →
    wp (freeChainLoop b n c) (fun _ _ => True) (fun e _ => e ≠ .hang) v
  | 0, _, _, _, _, _, h0 => absurd h0 (Nat.not_lt_zero _)
  | n + 1, c, v, hv, hc, hS, hn => by
    rw [freeChainLoop, wp_bind, wp_readDev (readFatEntry_eq hv c)]
    refine (writeFatEntry_zero hv hb c).seq ?_
    intro _ w hw
    by_cases hend : (isEoc (fatAt b v.dev c) || isFree (fatAt b v.dev c)) = true
    · rw [if_pos hend]
      trivial
    have hsome : readLink b v.dev c = some (fatAt b v.dev c) := by rw [readLink, if_neg hend]
    have hused : fatAt b v.dev c ≠ 0 := fun h0 => hend (by rw [h0]; rfl)
    rw [if_neg hend]
    refine freeChainLoop_returns hb hw.healthy (hS c hc _ hsome) (fun x hx y hy => ?_) ?_
    · -- the links that are left were there before
      rcases hw.other x with h1 | h1
      · exact hS x hx y (by rw [← hy, readLink, readLink, h1])
      · rw [readLink, h1] at hy
        cases hy
    · have := hw.card_used_lt hc hused
      omega

/-! ## Code without a walk -/

def NoHang {α : Type} (x : FsM α) : Prop := ∀ v, wp x (fun _ _ => True) (fun e _ => e ≠ .hang) v

theorem NoHang.bind {β : Type} {x : FsM α} {f : α → FsM β} (hx : NoHang x) (hf : ∀ a, NoHang (f a)) :
    NoHang (x >>= f) :=
  fun v => (hx v).seq' (fun a w _ => hf a w) fun _ _ he => he

theorem noHang_pure (a : α) : NoHang (pure a : FsM α) := fun _ => trivial

theorem noHang_modify (f : Vol → Vol) : NoHang (modify f : FsM PUnit) := fun _ => trivial

theorem noHang_readDev {f : Dev → Except Fault α} (h : ∀ d, f d ≠ .error .hang) : NoHang (readDev f) := by
  intro v
  rw [wp_readDev_iff]
  exact ⟨fun _ _ => trivial, fun e he hh => h v.dev (hh ▸ he)⟩

theorem readSectors_ne_hang (d : Dev) (lba len : ℕ) : readSectors d lba len ≠ .error .hang := by
  unfold readSectors
  split_ifs <;> simp

theorem readFatEntry_ne_hang (d : Dev) (c : ℕ) : readFatEntry b c d ≠ .error .hang := by
  have h := readSectors_ne_hang d (fatSectorAndOffset b 0 c).1 SECTOR_SIZE
  simp only [readFatEntry, bind, Except.bind]
  split
  · rename_i he
    rw [he] at h
    simpa using h
  · simp [pure, Except.pure]

theorem noHang_writeSectors (lba : ℕ) (buf : List UInt8) : NoHang (writeSectors lba buf) := by
  intro v
  unfold wp writeSectors
  split_ifs <;> simp

theorem noHang_writeFatEntry (c x : ℕ) : NoHang (writeFatEntry b c x) := by
  unfold writeFatEntry
  induction List.range b.numFats.toNat with
  | nil => exact noHang_pure _
  | cons copy copies ih =>
    exact (noHang_readDev fun d => readSectors_ne_hang d _ _).bind fun _ =>
      (noHang_writeSectors _ _).bind fun _ => ih

theorem noHang_claimFree : ∀ n c : ℕ, NoHang (claimFree b n c)
  | 0, _ => noHang_pure _
  | n + 1, c => by
    refine (noHang_readDev fun d => readFatEntry_ne_hang d c).bind fun x => ?_
    split_ifs
    · exact (noHang_writeFatEntry c _).bind fun _ => (noHang_modify _).bind fun _ => noHang_pure _
    · exact noHang_claimFree n (c + 1)

theorem noHang_allocClusterRaw : NoHang (allocClusterRaw b) := by
  refine (noHang_modify _).bind fun _ => NoHang.bind (fun _ => trivial) fun v => ?_
  refine (noHang_claimFree _ _).bind fun found => ?_
  cases found with
  | some c => exact noHang_pure c
  | none =>
    refine (noHang_claimFree _ _).bind fun found => ?_
    cases found with
    | some c => exact noHang_pure c
    | none => exact fun _ => by simp

theorem noHang_extendAt (c : ℕ) : NoHang (extendAt b c) :=
  noHang_allocClusterRaw.bind fun _ => (noHang_writeFatEntry _ _).bind fun _ =>
    (noHang_writeSectors _ _).bind fun _ => noHang_pure _

theorem noHang_clusterAtIndexExtend : ∀ n c : ℕ, NoHang (clusterAtIndexExtend b n c)
  | 0, _ => noHang_pure _
  | n + 1, c => by
    refine (noHang_readDev fun d => readFatEntry_ne_hang d c).bind fun x => ?_
    split_ifs
    · exact (noHang_extendAt c).bind fun c' => noHang_clusterAtIndexExtend n c'
    · exact noHang_clusterAtIndexExtend n x

theorem clusterAtIndexWalk_ne_hang (d : Dev) : ∀ n c : ℕ, clusterAtIndexWalk b d n c ≠ .error .hang
  | 0, c => by simp [clusterAtIndexWalk, pure, Except.pure]
  | n + 1, c => by
    have h := readFatEntry_ne_hang (b := b) d c
    simp only [clusterAtIndexWalk, bind, Except.bind]
    split
    · rename_i he
      rwa [he] at h
    · split_ifs
      · simp [throw, throwThe, MonadExceptOf.throw]
      · exact clusterAtIndexWalk_ne_hang d n _

/-! ## When a walk returns -/

namespace Walk

variable {w : Walk}

theorem returns_readChain_iff (hv : v.dev.Healthy) (hb : b.Valid) :
    (readChain c).Returns b v n ↔ c < 2 ∨ ∃ l, Lib.Linked (readLink b v.dev) c l ∧ l.length ≤ n := by
  rw [Returns, run]
  split_ifs with h2
  · exact iff_of_true trivial (.inl h2)
  · rw [or_iff_right h2, ← readChainLoop_ne_hang_iff hv hb, wp_bind, wp_readDev_iff]
    exact ⟨fun h he => h.2 _ he rfl, fun h => ⟨fun _ _ => trivial, fun e he hh => h (hh ▸ he)⟩⟩

theorem returns_growChain_iff (hv : v.dev.Healthy) :
    (growChain c).Returns b v n ↔ ∃ l, Lib.Linked (tailLink b v.dev) c l ∧ l.length ≤ n := by
  rw [Returns, run, ← walkToTail_ne_hang_iff hv, wp_bind, wp_readDev_iff]
  refine ⟨fun h he => h.2 _ he rfl, fun h => ⟨fun tail _ => ?_, fun e he hh => h (hh ▸ he)⟩⟩
  exact (noHang_extendAt tail).bind (fun _ => noHang_pure _) v

theorem returns_clusterAtIndex {t : ℕ} {extend : Bool} (ht : t ≤ n) : (clusterAtIndex c t extend).Returns b v n := by
  rw [Returns, run, if_neg (by omega)]
  split_ifs
  · exact (noHang_clusterAtIndexExtend t c).bind (fun _ => noHang_pure _) v
  · exact (noHang_readDev fun d => clusterAtIndexWalk_ne_hang d t c).bind (fun _ => noHang_pure _) v

/-- A walk that ends returns, given more rounds than a set has members that the links do not
leave. -/
theorem Ends.returns (h : w.Ends b v.dev) (hv : v.dev.Healthy) (hb : b.Valid) {S : Finset ℕ}
    (hfirst : w.first ∈ S) (hS : ∀ x ∈ S, ∀ y, tailLink b v.dev x = some y → y ∈ S)
    (ht : w.targetIndex ≤ n) (hn : S.card < n) : w.Returns b v n := by
  have hS' : ∀ x ∈ S, ∀ y, readLink b v.dev x = some y → y ∈ S := by
    intro x hx y hy
    refine hS x hx y ?_
    unfold readLink at hy
    unfold tailLink
    split_ifs at hy with h1
    rw [if_neg fun h2 => h1 (by rw [h2, Bool.true_or]), hy]
  cases w with
  | readChain c =>
    rw [returns_readChain_iff hv hb]
    refine h.imp_right fun ⟨l, hl⟩ => ⟨l, hl, ?_⟩
    exact (hl.length_le_card hfirst hS').trans hn.le
  | growChain c =>
    rw [returns_growChain_iff hv]
    obtain ⟨l, hl⟩ := h
    exact ⟨l, hl, (hl.length_le_card hfirst hS).trans hn.le⟩
  | clusterAtIndex c t extend => exact returns_clusterAtIndex ht
  | freeChain c =>
    rw [Returns, run]
    split_ifs
    · trivial
    · exact freeChainLoop_returns hb hv hfirst hS' ((Finset.card_le_card (Finset.filter_subset _ _)).trans_lt hn)

theorem Returns.ends (h : w.Returns b v n) (hv : v.dev.Healthy) (hb : b.Valid) : w.Ends b v.dev := by
  cases w with
  | readChain c =>
    exact ((returns_readChain_iff hv hb).1 h).imp_right fun ⟨l, hl, _⟩ => ⟨l, hl⟩
  | growChain c =>
    obtain ⟨l, hl, -⟩ := (returns_growChain_iff hv).1 h
    exact ⟨l, hl⟩
  | clusterAtIndex c t extend => trivial
  | freeChain c => trivial

/-- **Which walks return**: exactly those whose links come to an end.  If no link leads out of the volume, the
number of its clusters bounds the rounds. -/
theorem returns_iff (hv : v.dev.Healthy) (hb : b.Valid) (w : Walk) :
    (w.Returns b v w.bound ↔ w.Ends b v.dev) ∧ ((∃ n, w.Returns b v n) ↔ w.Ends b v.dev) ∧
      (LinksInside b v.dev → w.first < b.clusterEnd → w.Ends b v.dev →
        w.Returns b v (max w.targetIndex (b.numClusters + 3))) := by
  have hbound : w.Ends b v.dev → w.Returns b v w.bound := by
    intro h
    refine h.returns hv hb (S := insert w.first (Finset.range (2 ^ 28)))
      (Finset.mem_insert_self _ _) (fun x _ y hy => ?_) (le_max_left _ _) ?_
    · unfold tailLink at hy
      split_ifs at hy
      cases hy
      exact Finset.mem_insert_of_mem (Finset.mem_range.2 fatAt_lt)
    · have h1 := Finset.card_insert_le w.first (Finset.range (2 ^ 28))
      rw [Finset.card_range] at h1
      have h2 : 2 ^ 28 + 2 ≤ w.bound := le_max_right _ _
      omega
  refine ⟨⟨fun h => h.ends hv hb, hbound⟩, ⟨fun ⟨_, h⟩ => h.ends hv hb, fun h => ⟨_, hbound h⟩⟩, ?_⟩
  intro hin hfirst h
  refine h.returns hv hb (S := Finset.range b.clusterEnd) (Finset.mem_range.2 hfirst)
    (fun x hx y hy => ?_) (le_max_left _ _) ?_
  · unfold tailLink at hy
    split_ifs at hy with heoc
    cases hy
    exact Finset.mem_range.2 ((hin x (Finset.mem_range.1 hx)).resolve_right heoc)
  · rw [Finset.card_range, Bpb.clusterEnd]
    have h2 : b.numClusters + 3 ≤ max w.targetIndex (b.numClusters + 3) := le_max_right _ _
    omega

end Walk

end

/-- The chain of the root directory in `usedVol` is read to its end. -/
theorem Walk.returns_iff_root : usedVol.dev.Healthy ∧ tinyBpb.Valid ∧ (Walk.readChain 2).Returns
    tinyBpb usedVol (Walk.readChain 2).bound := by
  have h := usedVol_shows
  have hlast : readLink tinyBpb usedVol.dev 2 = none := by decide +kernel
  refine ⟨h.healthy, h.valid, ?_⟩
  generalize usedVol = v at h hlast ⊢
  exact (Walk.returns_iff h.healthy h.valid (.readChain 2)).1.2 (.inr ⟨[2], .last hlast⟩)

def loopImage : Image where
  fat c := if c = 2 then EOC else if c = 3 then 3 else 0
  data _ := List.replicate 512 0

def loopVol : Vol := .mount (devOf tinyBpb loopImage)

/-- **A walk that goes round for ever**, from a cluster that is linked to itself. -/
theorem selfLink_never_returns : loopVol.dev.Healthy ∧ getBpb loopVol.dev = .ok tinyBpb ∧ ∀ n,
    ¬ (Walk.readChain 3).Returns tinyBpb loopVol n ∧ ¬ (Walk.growChain 3).Returns tinyBpb loopVol
    n := by
  have hd : loopVol.dev.Healthy := fun _ _ => rfl
  have hv := tinyBpb_covers.valid
  have hread : readLink tinyBpb loopVol.dev 3 = some 3 := by decide +kernel
  have htail : tailLink tinyBpb loopVol.dev 3 = some 3 := by decide +kernel
  refine ⟨hd, by decide +kernel, ?_⟩
  generalize loopVol = v at *
  refine fun n => ⟨fun hr => ?_, fun hr => ?_⟩
  · rcases hr.ends hd hv with h2 | ⟨l, hl⟩
    · exact absurd h2 (by decide)
    · exact not_linked_of_self hread hl
  · obtain ⟨l, hl⟩ := hr.ends hd hv
    exact not_linked_of_self htail hl

end Archis.Fat32
