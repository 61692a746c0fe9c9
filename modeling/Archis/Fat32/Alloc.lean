/-
  Cluster allocation and cluster chains on an image (`modules/fat32/src/fat.rs`).

  A chain is the list of the clusters that the FAT links from a first one on (`IsChain`).  On a volume whose cluster
  numbers fit an entry (`Bpb.Fits`) chains are allocated, extended (`Grown`), read, replaced and freed.
-/
import Archis.Lib.Chain
import Archis.Fat32.View

namespace Archis.Fat32

open Archis.Lib
open List hiding IsChain drop

/-! ## Chains -/

namespace Bpb

def Cluster (b : Bpb) (c : ℕ) : Prop := 2 ≤ c ∧ c < b.clusterEnd

instance (b : Bpb) (c : ℕ) : Decidable (b.Cluster c) := inferInstanceAs (Decidable (_ ∧ _))

/-- Every cluster number fits the 28 bits of an entry and is below the end-of-chain marks. -/
def Fits (b : Bpb) : Prop := b.clusterEnd ≤ 0x0FFFFFF8

instance (b : Bpb) : Decidable b.Fits := inferInstanceAs (Decidable (_ ≤ _))

section
variable {b : Bpb} (h : b.Fits) {c : ℕ} (hc : b.Cluster c)
include h hc

theorem Fits.mod_eq : c % 2 ^ 28 = c := by
  have h1 := hc.2
  unfold Fits at h
  exact Nat.mod_eq_of_lt (by omega)

theorem Fits.not_eoc : isEoc c = false := by
  have h1 := hc.2
  unfold Fits at h
  simp only [isEoc, decide_eq_false_iff_not]; omega

theorem Fits.lt : c < 2 ^ 32 := by
  have h1 := hc.2
  unfold Fits at h
  omega

end

end Bpb

/-- The link of a cluster, none at an end-of-chain mark. -/
def Image.next (A : Image) (c : ℕ) : Option ℕ := if isEoc (A.fat c) then none else some (A.fat c)

def Image.Full (b : Bpb) (A : Image) : Prop := ∀ c, b.Cluster c → A.fat c ≠ 0

variable {A : Image} {c : ℕ}

theorem Image.next_congr {A' : Image} (h : A'.fat c = A.fat c) : A'.next c = A.next c := by
  rw [Image.next, Image.next, h]

theorem Image.next_eq_none : A.next c = none ↔ isEoc (A.fat c) = true := by
  unfold Image.next
  split_ifs with h <;> simp [h]

theorem Image.next_eq_some {n : ℕ} : A.next c = some n ↔ isEoc (A.fat c) = false ∧ A.fat c = n := by
  unfold Image.next
  split_ifs with h <;> simp [h]

/-- The clusters `l` are the chain from `a` on. -/
structure IsChain (b : Bpb) (A : Image) (a : ℕ) (l : List ℕ) : Prop where
  linked : Linked A.next a l
  range : ∀ c ∈ l, b.Cluster c

/-- The clusters of a file or a directory: none if its first cluster number is below 2. -/
def Owns (b : Bpb) (A : Image) (a : ℕ) (l : List ℕ) : Prop :=
  if a < 2 then l = [] else IsChain b A a l

def Image.bytes (A : Image) (l : List ℕ) : List UInt8 := l.flatMap A.data

namespace IsChain

variable {b : Bpb} {A A' : Image} {a c : ℕ} {l : List ℕ}

theorem first (h : IsChain b A a l) : b.Cluster a := h.range a h.linked.mem

theorem not_free (h : IsChain b A a l) (hc : c ∈ l) : A.fat c ≠ 0 := by
  intro h0
  rcases h.linked.next_mem hc with h1 | ⟨y, hy, h1⟩
  · rw [Image.next_eq_none, h0] at h1
    exact absurd h1 (by decide)
  · rw [Image.next_eq_some, h0] at h1
    have h2 := (h.range y hy).1
    omega

theorem congr (h : IsChain b A a l) (hA : ∀ c ∈ l, A'.fat c = A.fat c) : IsChain b A' a l :=
  ⟨h.linked.congr fun c hc => Image.next_congr (hA c hc), h.range⟩

theorem unique {l' : List ℕ} (h : IsChain b A a l) (h' : IsChain b A a l') : l = l' :=
  h.linked.unique h'.linked

theorem drop (h : IsChain b A a l) {n : ℕ} (hn : l[n]? = some c) : IsChain b A c (l.drop n) :=
  ⟨h.linked.drop hn, fun x hx => h.range x (mem_of_mem_drop hx)⟩

theorem exists_last (h : IsChain b A a l) : ∃ t, l.getLast? = some t :=
  Option.isSome_iff_exists.1 (by simpa using h.linked.ne_nil)

theorem length_le (h : IsChain b A a l) : l.length ≤ b.clusterEnd := by
  have h1 : l.toFinset ⊆ Finset.range b.clusterEnd := by
    intro c hc
    exact Finset.mem_range.2 (h.range c (mem_toFinset.1 hc)).2
  have h2 := Finset.card_le_card h1
  rwa [toFinset_card_of_nodup h.linked.nodup, Finset.card_range] at h2

theorem length_lt (h : IsChain b A a l) (hf : b.Fits) : l.length < walkFuel := by
  have h1 : b.clusterEnd ≤ 0x0FFFFFF8 := hf
  have h2 := h.length_le
  rw [walkFuel]; omega

end IsChain

theorem length_bytes {n : ℕ} : ∀ {l : List ℕ}, (∀ c ∈ l, (A.data c).length = n) → (A.bytes l).length = l.length * n
  | [], _ => by simp [Image.bytes]
  | c :: l, h => by
    have ih := length_bytes (l := l) fun x hx => h x (by simp [hx])
    simp only [Image.bytes, flatMap_cons, length_append, length_cons] at ih ⊢
    rw [ih, h c (by simp)]; ring

theorem Shows.length_bytes {b : Bpb} {d : Dev} (h : Shows b d A) {l : List ℕ}
    (hl : ∀ c ∈ l, b.Cluster c) : (A.bytes l).length = l.length * b.clusterSize :=
  Fat32.length_bytes fun c hc => h.length_data (hl c hc).1 (hl c hc).2

theorem Image.bytes_congr {A' : Image} {l : List ℕ} (h : ∀ c ∈ l, A'.data c = A.data c) : A'.bytes l = A.bytes l := by
  unfold Image.bytes
  exact flatMap_congr h

/-! ## Taking a free cluster -/

/-- What an allocation does: a free cluster becomes the end of a chain. -/
structure Claimed (b : Bpb) (v : Vol) (A : Image) (c : ℕ) (w : Vol) : Prop where
  cluster : b.Cluster c
  free : A.fat c = 0
  becomes : Becomes b v (A.setFat c EOC) w

section
variable {b : Bpb} {v : Vol} {fat : ℕ → ℕ} {P : ℕ → Vol → Prop}

theorem wp_claimFree (hread : ∀ c < b.clusterEnd, readFatEntry b c v.dev = .ok (fat c))
    (hwrite : ∀ c, b.Cluster c → fat c = 0 →
      wp (writeFatEntry b c EOC) (fun _ w => P c { w with nextFreeHint := c + 1 }) (fun _ _ => False) v) :
    ∀ (n c : ℕ), 2 ≤ c → c + n ≤ b.clusterEnd → wp (claimFree b n c)
        (fun r w => (∀ k, r = some k → P k w) ∧ (r = none → w = v ∧ ∀ k, c ≤ k → k < c + n → fat k ≠ 0))
        (fun _ _ => False) v
  | 0, c, _, _ => by
    rw [claimFree, wp_pure]
    exact ⟨fun k hk => by simp at hk, fun _ => ⟨rfl, fun k h1 h2 => absurd h2 (by omega)⟩⟩
  | n + 1, c, h2, hn => by
    rw [claimFree, wp_bind, wp_readDev (hread c (by omega))]
    by_cases h0 : fat c = 0
    · rw [if_pos (by simp [isFree, h0])]
      refine (hwrite c ⟨h2, by omega⟩ h0).seq fun _ w hw => ?_
      rw [wp_bind, wp_modify, wp_pure]
      refine ⟨fun k hk => ?_, fun hk => by simp at hk⟩
      obtain rfl : c = k := by simpa using hk
      exact hw
    · rw [if_neg (by simp [isFree, h0])]
      refine (wp_claimFree hread hwrite n (c + 1) (by omega) (by omega)).imp ?_
      rintro r w ⟨h3, h4⟩
      refine ⟨h3, fun hr => ⟨(h4 hr).1, fun k hk hk' => ?_⟩⟩
      rcases Nat.eq_or_lt_of_le hk with rfl | hlt
      · exact h0
      · exact (h4 hr).2 k hlt (by omega)

theorem wp_allocClusterRaw (hread : ∀ c < b.clusterEnd, readFatEntry b c v.dev = .ok (fat c))
    (hwrite : ∀ u, SameFiles v u → u.dev = v.dev → ∀ c, b.Cluster c → fat c = 0 →
      wp (writeFatEntry b c EOC) (fun _ w => P c { w with nextFreeHint := c + 1 }) (fun _ _ => False) u) :
    wp (allocClusterRaw b) P
      (fun e w => e = .err .oom ∧ SameFiles v w ∧ w.dev = v.dev ∧ ∀ c, b.Cluster c → fat c ≠ 0) v := by
  rw [allocClusterRaw, wp_bind, wp_modify, wp_bind, wp_get]
  generalize hu : bootstrap b v = u
  have hsame : SameFiles v u := by
    subst hu; unfold bootstrap
    split_ifs
    · exact .refl v
    · exact ⟨rfl, rfl, rfl⟩
  have hdev : u.dev = v.dev := by subst hu; unfold bootstrap; split_ifs <;> rfl
  rw [← hdev] at hread
  generalize hhint : min (max u.nextFreeHint 2) (b.numClusters + 2) = hint
  have hend : b.clusterEnd = b.numClusters + 2 := rfl
  refine (wp_claimFree hread (hwrite u hsame hdev) (b.numClusters + 2 - hint) hint (by omega) (by omega)).seq ?_
  rintro r w ⟨hsome, hnone⟩
  cases r with
  | some k => exact hsome k rfl
  | none =>
    obtain ⟨rfl, hhigh⟩ := hnone rfl
    refine (wp_claimFree hread (hwrite w hsame hdev) (hint - 2) 2 le_rfl (by omega)).seq ?_
    rintro r u ⟨hsome, hnone⟩
    cases r with
    | some k => exact hsome k rfl
    | none =>
      obtain ⟨rfl, hlow⟩ := hnone rfl
      refine ⟨rfl, hsame, hdev, fun c hc => ?_⟩
      obtain ⟨hc2, hc3⟩ := hc
      by_cases hch : c < hint
      · exact hlow c hc2 (by omega)
      · exact hhigh c (by omega) (by omega)

end

/-- **`alloc_cluster_raw`** takes a free cluster wherever the hint points, and fails only if there is none. -/
theorem Shows.allocClusterRaw {b : Bpb} {v : Vol} {A : Image} (h : Shows b v.dev A) (hb : b.Covers) :
    wp (Fat32.allocClusterRaw b) (Claimed b v A)
      (fun e w => e = .err .oom ∧ Becomes b v A w ∧ A.Full b) v := by
  refine (wp_allocClusterRaw (fun c hc => h.readEntry hc) fun u hsame hdev c hc h0 => ?_).mono (fun _ _ h => h) ?_
  · refine (Shows.writeFatEntry (hdev ▸ h) hb hc.2 EOC).imp fun _ w hw => ?_
    have hw' := hsame.trans hw.same
    exact ⟨hc, h0, ⟨⟨hw'.1, hw'.2, hw'.3⟩, hw.image⟩⟩
  · rintro e w ⟨he, hsame, hdev, hfull⟩
    exact ⟨he, ⟨hsame, hdev ▸ h⟩, hfull⟩

/-! ## Longer chains -/

/-- The clusters `news`, free before and zero now, are linked behind `t`; nothing else has changed. -/
structure Grown (b : Bpb) (A : Image) (t : ℕ) (news : List ℕ) (A' : Image) : Prop where
  chain : IsChain b A' t (t :: news)
  free : ∀ c ∈ news, A.fat c = 0
  zero : ∀ c ∈ news, A'.data c = replicate b.clusterSize 0
  fat : ∀ c, c ≠ t → c ∉ news → A'.fat c = A.fat c
  data : ∀ c, c ∉ news → A'.data c = A.data c

namespace Grown

variable {b : Bpb} {A A' A'' : Image} {t t' a c : ℕ} {news news' l : List ℕ}

theorem refl (ht : b.Cluster t) (h0 : isEoc (A.fat t) = true) : Grown b A t [] A where
  chain := ⟨.last (Image.next_eq_none.2 h0), by simpa using ht⟩
  free := by simp
  zero := by simp
  fat := fun _ _ _ => rfl
  data := fun _ _ => rfl

section
variable (h : Grown b A t news A')
include h

theorem range (hc : c ∈ news) : b.Cluster c :=
  h.chain.range c (by simp [hc])

theorem nodup : news.Nodup :=
  (nodup_cons.1 h.chain.linked.nodup).2

theorem notMem (hl : IsChain b A a l) (hc : c ∈ l) : c ∉ news :=
  fun hn => hl.not_free hc (h.free c hn)

theorem isChain (hl : IsChain b A a l) (ht : l.getLast? = some t) : IsChain b A' a (l ++ news) where
  linked := hl.linked.append ht (fun c hc hct => Image.next_congr (h.fat c hct (h.notMem hl hc))) h.chain.linked
  range := fun c hc => (mem_append.1 hc).elim (hl.range c) h.range

theorem trans (h' : Grown b A' t' news' A'')
    (ht : (t :: news).getLast? = some t') : Grown b A t (news ++ news') A'' := by
  have hdisj : ∀ c ∈ t :: news, c ∉ news' := fun c hc => h'.notMem h.chain hc
  refine ⟨h'.isChain h.chain ht, ?_, ?_, ?_, ?_⟩
  · intro c hc
    rcases mem_append.1 hc with hc | hc
    · exact h.free c hc
    · have h1 : c ∉ t :: news := fun h2 => hdisj c h2 hc
      rw [mem_cons, not_or] at h1
      rw [← h.fat c h1.1 h1.2]
      exact h'.free c hc
  · intro c hc
    rcases mem_append.1 hc with hc | hc
    · rw [h'.data c (hdisj c (by simp [hc])), h.zero c hc]
    · exact h'.zero c hc
  · intro c hct hc
    rw [mem_append, not_or] at hc
    have hct' : c ≠ t' := by
      rintro rfl
      rcases mem_cons.1 (mem_of_getLast? ht) with h1 | h1
      · exact hct h1
      · exact hc.1 h1
    rw [h'.fat c hct' hc.2, h.fat c hct hc.1]
  · intro c hc
    rw [mem_append, not_or] at hc
    rw [h'.data c hc.2, h.data c hc.1]

end

end Grown

namespace Shows

variable {b : Bpb} {v : Vol} {A : Image} {a : ℕ} {d : Dev} {l : List ℕ}

/-- The error of an allocation: nothing has been done, and no cluster is free. -/
def Exhausted (b : Bpb) (v : Vol) (A : Image) (e : Fault) (w : Vol) : Prop :=
  e = .err .oom ∧ Becomes b v A w ∧ A.Full b

theorem extendAt (h : Shows b v.dev A) (hb : b.Covers) (hf : b.Fits) {t : ℕ} (ht : b.Cluster t) (h0 : A.fat t ≠ 0) :
    wp (Fat32.extendAt b t) (fun c w => ∃ A', Becomes b v A' w ∧ Grown b A t [c] A') (Exhausted b v A) v := by
  rw [Fat32.extendAt, wp_bind]
  refine (h.allocClusterRaw hb).mono ?_ fun e w hw => hw
  rintro c w ⟨hc, hfree, hw⟩
  have hct : c ≠ t := by rintro rfl; exact h0 hfree
  refine (hw.image.writeFatEntry hb ht.2 c).seq ?_
  intro _ u hu
  rw [hf.mod_eq hc] at hu
  refine (hu.image.writeCluster hb hc.1 hc.2 (length_replicate ..)).seq ?_
  intro _ x hx
  rw [wp_pure]
  refine ⟨_, (hw.trans hu).trans hx, ⟨⟨.cons (b := c) ?_ (.last ?_), ?_⟩, ?_, ?_, ?_, ?_⟩⟩
  · rw [Image.next_eq_some, Image.setData_fat, Image.setFat_fat, if_pos rfl]
    exact ⟨hf.not_eoc hc, rfl⟩
  · rw [Image.next_eq_none, Image.setData_fat, Image.setFat_fat, if_neg hct, Image.setFat_fat, if_pos rfl]
    rfl
  · simpa using ⟨ht, hc⟩
  · simpa using hfree
  · simp [Image.setData_data]
  · intro k hk hk'
    rw [mem_singleton] at hk'
    rw [Image.setData_fat, Image.setFat_fat, if_neg hk, Image.setFat_fat, if_neg hk']
  · intro k hk
    rw [mem_singleton] at hk
    rw [Image.setData_data, if_neg hk]
    rfl

theorem walkToTail (h : Shows b d A) : ∀ {fuel a : ℕ} {l : List ℕ}, IsChain b A a l →
    l.length < fuel → ∃ t, l.getLast? = some t ∧ Fat32.walkToTail b d fuel a = .ok t
  | 0, _, _, _, hlen => absurd hlen (by omega)
  | fuel + 1, a, l, ⟨hl, hr⟩, hlen => by
    have hread := h.readEntry (hr a hl.mem).2
    cases hl with
    | last h0 =>
      rw [Image.next_eq_none] at h0
      refine ⟨a, rfl, ?_⟩
      simp only [Fat32.walkToTail, hread, bind, Except.bind, h0, if_true]
      rfl
    | @cons _ n l h0 h1 =>
      rw [Image.next_eq_some] at h0
      have hlen' : l.length < fuel := by simp only [length_cons] at hlen; omega
      obtain ⟨t, ht, hw⟩ := walkToTail h ⟨h1, fun c hc => hr c (by simp [hc])⟩ hlen'
      refine ⟨t, by rw [getLast?_cons_of_ne_nil h1.ne_nil, ht], ?_⟩
      rw [h0.2] at hread h0
      simp only [Fat32.walkToTail, hread, bind, Except.bind, h0.1]
      exact hw

/-- **`grow_chain`** appends one zeroed cluster to a chain. -/
theorem growChain (h : Shows b v.dev A) (hb : b.Covers) (hf : b.Fits)
    (hl : IsChain b A a l) : wp (Fat32.growChain b a) (fun c w => ∃ t A', l.getLast? = some t ∧
    Becomes b v A' w ∧ Grown b A t [c] A') (Exhausted b v A) v := by
  obtain ⟨t, ht, hwalk⟩ := h.walkToTail hl (hl.length_lt hf)
  have htl : t ∈ l := mem_of_getLast? ht
  rw [Fat32.growChain, wp_bind, wp_readDev hwalk]
  refine (h.extendAt hb hf (hl.range t htl) (hl.not_free htl)).mono ?_ fun e w hw => hw
  rintro c w ⟨A', hw, hg⟩
  exact ⟨t, A', ht, hw, hg⟩

/-- **`cluster_at_index` with `extend`** follows the chain and appends zeroed clusters, which stay if it runs
out. -/
theorem clusterAtIndexExtend (hb : b.Covers) (hf : b.Fits) : ∀ (n : ℕ) {v : Vol} {A : Image} {a t : ℕ} {l : List ℕ},
    Shows b v.dev A → IsChain b A a l → l.getLast? = some t → wp (Fat32.clusterAtIndexExtend b n a)
    (fun c w => ∃ news A', Becomes b v A' w ∧ Grown b A t news A' ∧ (l ++ news)[n]? = some c ∧
    news.length = n + 1 - l.length) (fun e w => e = .err .oom ∧ ∃ news A', Becomes b v A' w ∧ Grown b A t news A' ∧
    A'.Full b ∧ news.length < n + 1 - l.length) v
  | 0, v, A, a, t, l, h, hl, ht => by
    rw [Fat32.clusterAtIndexExtend, wp_pure]
    have hlast := Image.next_eq_none.1 (hl.linked.next_last ht)
    obtain ⟨s, rfl⟩ := hl.linked.exists_tail
    exact ⟨[], A, h.becomes, .refl (hl.range t (mem_of_getLast? ht)) hlast, by simp, by simp⟩
  | n + 1, v, A, a, t, l, h, ⟨hl, hr⟩, ht => by
    have ha : b.Cluster a := hr a hl.mem
    rw [Fat32.clusterAtIndexExtend, wp_bind, wp_readDev (h.readEntry ha.2)]
    cases hl with
    | last h0 =>
      obtain rfl : a = t := by simpa using ht
      rw [Image.next_eq_none] at h0
      rw [if_pos h0]
      have hne : A.fat a ≠ 0 := fun h1 => by rw [h1] at h0; exact absurd h0 (by decide)
      rw [wp_bind]
      refine (h.extendAt hb hf ha hne).mono ?_ ?_
      · rintro c w ⟨A', hw, hg⟩
        have hc : IsChain b A' c [c] := hg.chain.drop (n := 1) rfl
        refine (clusterAtIndexExtend hb hf n hw.image hc rfl).mono ?_ ?_
        · rintro k u ⟨news, A'', hu, hg', hk, hlen⟩
          exact ⟨c :: news, A'', hw.trans hu, hg.trans hg' rfl, by simpa using hk,
            by simp only [length_cons, length_nil] at hlen ⊢; omega⟩
        · rintro e u ⟨he, news, A'', hu, hg', hfull, hlen⟩
          exact ⟨he, c :: news, A'', hw.trans hu, hg.trans hg' rfl, hfull,
            by simp only [length_cons, length_nil] at hlen ⊢; omega⟩
      · rintro e w ⟨he, hw, hfull⟩
        exact ⟨he, [], A, hw, .refl ha h0, hfull, by simp⟩
    | @cons _ y l h0 h1 =>
      rw [Image.next_eq_some] at h0
      rw [h0.1, h0.2, if_neg (by simp)]
      rw [getLast?_cons_of_ne_nil h1.ne_nil] at ht
      refine (clusterAtIndexExtend hb hf n h ⟨h1, fun c hc => hr c (by simp [hc])⟩ ht).mono ?_ ?_
      · rintro k u ⟨news, A', hu, hg, hk, hlen⟩
        exact ⟨news, A', hu, hg, by simpa using hk, by rw [length_cons]; omega⟩
      · rintro e u ⟨he, news, A', hu, hg, hfull, hlen⟩
        exact ⟨he, news, A', hu, hg, hfull, by rw [length_cons]; omega⟩

/-- `cluster_at_index` without `extend` returns the cluster at an index of the chain. -/
theorem clusterAtIndexWalk (h : Shows b d A) : ∀ {n a c : ℕ} {l : List ℕ},
    IsChain b A a l → l[n]? = some c → Fat32.clusterAtIndexWalk b d n a = .ok c
  | 0, a, c, l, hl, hn => by
    obtain ⟨s, rfl⟩ := hl.linked.exists_tail
    obtain rfl : a = c := by simpa using hn
    rfl
  | n + 1, a, c, l, ⟨hl, hr⟩, hn => by
    have hread := h.readEntry (hr a hl.mem).2
    cases hl with
    | last h0 => simp at hn
    | @cons _ y l h0 h1 =>
      rw [Image.next_eq_some] at h0
      rw [h0.2] at hread h0
      simp only [Fat32.clusterAtIndexWalk, hread, bind, Except.bind, h0.1]
      exact clusterAtIndexWalk h ⟨h1, fun c hc => hr c (by simp [hc])⟩ (by simpa using hn)

/-! ## Whole chains -/

theorem readChainLoop (h : Shows b d A) : ∀ {fuel a : ℕ} {l : List ℕ} (out : List UInt8),
    IsChain b A a l → l.length < fuel → Fat32.readChainLoop b d fuel a out = .ok (out ++ A.bytes l)
  | 0, _, _, _, _, hlen => absurd hlen (by omega)
  | fuel + 1, a, l, out, ⟨hl, hr⟩, hlen => by
    have ha := hr a hl.mem
    have hread := h.readEntry ha.2
    have hdata := h.readCluster ha.1 ha.2
    cases hl with
    | last h0 =>
      rw [Image.next_eq_none] at h0
      simp only [Fat32.readChainLoop, hread, hdata, bind, Except.bind, h0, if_true, Image.bytes,
        flatMap_cons, flatMap_nil, append_nil]
      rfl
    | @cons _ y l h0 h1 =>
      rw [Image.next_eq_some] at h0
      have hy : isFree y = false := by
        have h2 := (hr y (by simp [h1.mem])).1
        simp only [isFree, decide_eq_false_iff_not]; omega
      rw [h0.2] at hread h0
      simp only [Fat32.readChainLoop, hread, hdata, bind, Except.bind, h0.1, hy]
      refine (readChainLoop h (out ++ A.data a) ⟨h1, fun c hc => hr c (by simp [hc])⟩
        (by simp only [length_cons] at hlen; omega)).trans ?_
      rw [append_assoc]
      rfl

/-- **`read_chain`** returns the bytes of the chain. -/
theorem readChain (h : Shows b d A) (hf : b.Fits)
    (hl : IsChain b A a l) : Fat32.readChain b a d = .ok (A.bytes l) := by
  have h2 := hl.first.1
  rw [Fat32.readChain, if_neg (by omega), h.readChainLoop [] hl (hl.length_lt hf), nil_append]

end Shows

/-- The clusters of the list hold the bytes, one cluster after the other. -/
def Image.setBytes (A : Image) (n : ℕ) : List ℕ → List UInt8 → Image
  | [], _ => A
  | c :: l, buf => (A.setData c (buf.take n)).setBytes n l (buf.drop n)

namespace Image

variable {A : Image} {n : ℕ}

@[simp] theorem setBytes_fat : ∀ (A : Image) (l : List ℕ) (buf : List UInt8), (A.setBytes n l buf).fat = A.fat
  | _, [], _ => rfl
  | A, c :: l, buf => by rw [setBytes, setBytes_fat, setData_fat]

theorem setBytes_data_of_notMem : ∀ (A : Image) (l : List ℕ) (buf : List UInt8) {c : ℕ}, c ∉ l →
    (A.setBytes n l buf).data c = A.data c
  | _, [], _, _, _ => rfl
  | A, x :: l, buf, c, hc => by
    rw [mem_cons, not_or] at hc
    rw [setBytes, setBytes_data_of_notMem _ l _ hc.2, setData_data, if_neg hc.1]

theorem bytes_setBytes : ∀ (A : Image) {l : List ℕ} {buf : List UInt8}, l.Nodup →
    buf.length = l.length * n → (A.setBytes n l buf).bytes l = buf
  | A, [], buf, _, hlen => by simpa [bytes, eq_comm] using hlen
  | A, x :: l, buf, hnd, hlen => by
    obtain ⟨hx, hnd⟩ := nodup_cons.1 hnd
    rw [length_cons, add_mul, one_mul] at hlen
    have ih : ((A.setData x (buf.take n)).setBytes n l (buf.drop n)).bytes l = buf.drop n :=
      bytes_setBytes _ hnd (by rw [length_drop]; omega)
    rw [bytes] at ih
    rw [setBytes, bytes, flatMap_cons, ih, setBytes_data_of_notMem _ l _ hx, setData_data,
      if_pos rfl, take_append_drop]

end Image

namespace Shows

variable {b : Bpb}

/-- **`write_chain`** puts the buffer into the clusters of the chain. -/
theorem writeChainLoop (hb : b.Covers) : ∀ {n : ℕ} {v : Vol} {A : Image} {a : ℕ} {l : List ℕ} {buf : List UInt8},
    Shows b v.dev A → IsChain b A a l → buf.length = l.length * b.clusterSize → l.length ≤ n → wp
    (Fat32.writeChainLoop b n a buf) (fun _ => Becomes b v (A.setBytes b.clusterSize l buf)) (fun _ _ => False) v
  | 0, _, _, _, l, _, _, hl, _, hn => absurd (length_pos_of_ne_nil hl.linked.ne_nil) (by omega)
  | n + 1, v, A, a, l, buf, h, ⟨hl, hr⟩, hlen, hn => by
    have ha := hr a hl.mem
    have hcs := hb.valid.clusterSize_pos
    obtain ⟨s, hs⟩ := hl.exists_tail
    have hlen' : buf.length = s.length * b.clusterSize + b.clusterSize := by
      rw [hlen, hs, length_cons, add_mul, one_mul]
    have hne : buf ≠ [] := ne_nil_of_length_pos (by omega)
    have htake : (buf.take b.clusterSize).length = b.clusterSize := by
      rw [length_take]; omega
    rw [Fat32.writeChainLoop, if_neg hne, if_neg (by omega)]
    refine (h.writeCluster hb ha.1 ha.2 htake).seq ?_
    intro _ w hw
    cases hl with
    | last h0 =>
      have hrest : buf.drop b.clusterSize = [] := by
        rw [drop_eq_nil_iff]
        simp only [length_singleton, one_mul] at hlen; omega
      rw [if_pos hrest, wp_pure]
      exact hw
    | @cons _ y l h0 h1 =>
      have h0' := h0
      rw [Image.next_eq_some] at h0
      obtain rfl : l = s := by simpa using hs
      have hl0 := length_pos_of_ne_nil h1.ne_nil
      have hpos : b.clusterSize ≤ l.length * b.clusterSize := Nat.le_mul_of_pos_left _ hl0
      have hrest : buf.drop b.clusterSize ≠ [] := by
        rw [Ne, drop_eq_nil_iff]; omega
      rw [if_neg hrest, wp_bind, wp_readDev (hw.image.readEntry ha.2), Image.setData_fat, h0.2]
      refine (writeChainLoop hb hw.image (l := l) ⟨?_, fun c hc => hr c (by simp [hc])⟩
        (by rw [length_drop]; omega) (by simp only [length_cons] at hn; omega)).imp ?_
      · exact h1.congr fun c _ => rfl
      · exact fun _ u hu => hw.trans hu

theorem writeChain (hb : b.Covers) {v : Vol} {A : Image} {a : ℕ} {l : List ℕ} {buf : List UInt8} (h : Shows b v.dev A)
    (hl : IsChain b A a l) (hlen : buf.length = l.length * b.clusterSize) : wp (Fat32.writeChain b a buf)
      (fun _ => Becomes b v (A.setBytes b.clusterSize l buf)) (fun _ _ => False) v :=
  h.writeChainLoop hb hl hlen (by rw [hlen]; exact Nat.le_mul_of_pos_right _ hb.valid.clusterSize_pos)

end Shows

def Image.freeAll (A : Image) : List ℕ → Image
  | [] => A
  | c :: l => (A.setFat c 0).freeAll l

namespace Image

@[simp] theorem freeAll_data : ∀ (A : Image) (l : List ℕ), (A.freeAll l).data = A.data
  | _, [] => rfl
  | A, c :: l => by rw [freeAll, freeAll_data, setFat_data]

theorem freeAll_fat : ∀ (A : Image) (l : List ℕ) (c : ℕ), (A.freeAll l).fat c = if c ∈ l then 0 else A.fat c
  | _, [], _ => by simp [freeAll]
  | A, x :: l, c => by
    rw [freeAll, freeAll_fat, setFat_fat]
    by_cases h1 : c ∈ l <;> by_cases h2 : c = x <;> simp [h1, h2]

end Image

namespace Shows

variable {b : Bpb}

theorem freeChainLoop (hb : b.Covers) : ∀ {fuel : ℕ} {v : Vol} {A : Image} {a : ℕ} {l : List ℕ},
    Shows b v.dev A → IsChain b A a l → l.length < fuel →
    wp (Fat32.freeChainLoop b fuel a) (fun _ => Becomes b v (A.freeAll l)) (fun _ _ => False) v
  | 0, _, _, _, _, _, _, hlen => absurd hlen (by omega)
  | fuel + 1, v, A, a, l, h, ⟨hl, hr⟩, hlen => by
    have ha := hr a hl.mem
    rw [Fat32.freeChainLoop, wp_bind, wp_readDev (h.readEntry ha.2)]
    refine (h.writeFatEntry hb ha.2 0).seq ?_
    intro _ w hw
    cases hl with
    | last h0 =>
      rw [Image.next_eq_none] at h0
      rw [h0, Bool.true_or, if_pos rfl, wp_pure]
      exact hw
    | @cons _ y l h0 h1 =>
      have hnd := (nodup_cons.1 (Linked.cons h0 h1).nodup).1
      rw [Image.next_eq_some] at h0
      have hy : isFree y = false := by
        have h2 := (hr y (by simp [h1.mem])).1
        simp only [isFree, decide_eq_false_iff_not]; omega
      rw [h0.1, h0.2, hy, Bool.false_or, if_neg (by simp)]
      refine (freeChainLoop hb hw.image (l := l) ⟨?_, fun c hc => hr c (by simp [hc])⟩
        (by simp only [length_cons] at hlen; omega)).imp ?_
      · refine h1.congr fun c hc => Image.next_congr ?_
        rw [Image.setFat_fat, if_neg]
        rintro rfl; exact hnd hc
      · exact fun _ u hu => hw.trans hu

/-- **`free_chain`** frees the clusters of the chain. -/
theorem freeChain (hb : b.Covers) (hf : b.Fits) {v : Vol} {A : Image} {a : ℕ} {l : List ℕ} (h : Shows b v.dev A)
    (hl : IsChain b A a l) : wp (Fat32.freeChain b a) (fun _ => Becomes b v (A.freeAll l)) (fun _ _ => False) v := by
  have h2 := hl.first.1
  rw [Fat32.freeChain, if_neg (by omega)]
  exact h.freeChainLoop hb hl (hl.length_lt hf)

end Shows

/-! ## Counting free clusters -/

def Image.free (b : Bpb) (A : Image) : ℕ :=
  ((Finset.range b.clusterEnd).filter fun c => 2 ≤ c ∧ A.fat c = 0).card

/-- The free clusters, each once. -/
structure FreeList (b : Bpb) (A : Image) (l : List ℕ) : Prop where
  nodup : l.Nodup
  mem : ∀ c, c ∈ l ↔ b.Cluster c ∧ A.fat c = 0

namespace FreeList

variable {b : Bpb} {A A' : Image} {l news : List ℕ} {c t : ℕ}

theorem free_eq (h : FreeList b A l) : A.free b = l.length := by
  rw [Image.free, ← toFinset_card_of_nodup h.nodup]
  congr 1
  ext c
  rw [Finset.mem_filter, Finset.mem_range, mem_toFinset, h.mem, Bpb.Cluster]
  tauto

theorem of_full (h : A.Full b) : FreeList b A [] :=
  ⟨nodup_nil, fun c => iff_of_false (by simp) fun hc => h c hc.1 hc.2⟩

theorem of_taken (h : FreeList b A' l) (hnd : news.Nodup) (hfree : ∀ c ∈ news, b.Cluster c ∧ A.fat c = 0 ∧
    A'.fat c ≠ 0) (hrest : ∀ c, c ∉ news → (A'.fat c = 0 ↔ A.fat c = 0)) : FreeList b A (news ++ l) := by
  refine ⟨nodup_append.2 ⟨hnd, h.nodup, ?_⟩, fun c => ?_⟩
  · rintro x hx y hy rfl
    exact (hfree x hx).2.2 ((h.mem x).1 hy).2
  · rw [mem_append]
    by_cases hc : c ∈ news
    · exact iff_of_true (.inl hc) ⟨(hfree c hc).1, (hfree c hc).2.1⟩
    · rw [or_iff_right hc, h.mem, hrest c hc]

theorem of_claimed (h : FreeList b (A.setFat c EOC) l) (hc : b.Cluster c) (h0 : A.fat c = 0) :
    FreeList b A (c :: l) := by
  rw [← singleton_append]
  refine h.of_taken (nodup_singleton c) ?_ ?_
  · intro x hx
    rw [mem_singleton] at hx
    subst hx
    refine ⟨hc, h0, ?_⟩
    rw [Image.setFat_fat, if_pos rfl]
    decide
  · intro x hx
    rw [Image.setFat_fat, if_neg (by simpa using hx)]

theorem of_grown (h : FreeList b A' l) (hg : Grown b A t news A') (h0 : A.fat t ≠ 0) : FreeList b A (news ++ l) := by
  refine h.of_taken hg.nodup (fun c hc => ⟨hg.range hc, hg.free c hc, ?_⟩) fun c hc => ?_
  · exact hg.chain.not_free (by simp [hc])
  · by_cases hct : c = t
    · subst hct
      exact iff_of_false (hg.chain.not_free (by simp)) h0
    · rw [hg.fat c hct hc]

theorem congr (h : FreeList b A' l) (hfat : ∀ c, A'.fat c = A.fat c) : FreeList b A l :=
  ⟨h.nodup, fun c => by rw [h.mem, hfat]⟩

end FreeList

end Archis.Fat32
