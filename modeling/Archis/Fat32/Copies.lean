/-
  The copies of the FAT, entry by entry (`modules/fat32/src/fat.rs`).

  An entry has 32 bits, of which the code uses 28.  `copies_agree`: an allocation finds a free cluster if there is one,
  and the copies stay equal if no link leads out of the table.  Behind the end of the first copy `free_chain` comes to
  the second (`freeChain_splits_copies`).
-/
import Archis.Lib.Run
import Archis.Fat32.Alloc

namespace Archis.Fat32

open Archis.Lib

section
variable (b : Bpb) (d : Dev)

def rawEntry (m : ℕ → UInt8) (copy c : ℕ) : ℕ := ofLe (load m (b.fatAddr copy c) 4)

def setEntry (c x : ℕ) (m : ℕ → UInt8) (copy : ℕ) : ℕ → UInt8 :=
  store m (b.fatAddr copy c) (toLe 4 (mergeEntry (rawEntry b m copy c) x))

/-- The entry `c` of each copy gets the low bits of `x`; all other entries are as before. -/
structure Sets (b : Bpb) (d : Dev) (c x : ℕ) (d' : Dev) : Prop where
  healthy : d'.Healthy
  entry : ∀ copy < b.numFats.toNat, ∀ c' < b.entries, rawEntry b d'.bytes copy c' =
    if c' = c then mergeEntry (rawEntry b d.bytes copy c) x else rawEntry b d.bytes copy c'

/-- The copies have the same low 28 bits. -/
def Agree : Prop := ∀ copy < b.numFats.toNat, ∀ c < b.entries,
  rawEntry b d.bytes copy c % 2 ^ 28 = rawEntry b d.bytes 0 c % 2 ^ 28

instance : Decidable (Agree b d) := inferInstanceAs (Decidable (∀ _ < _, ∀ _ < _, _ = _))

/-- No link leads out of the table. -/
def Linked : Prop := ∀ c < b.entries, isEoc (fatAt b d c) = true ∨ fatAt b d c < b.entries

instance : Decidable (Linked b d) := inferInstanceAs (Decidable (∀ _ < _, _ ∨ _))

def SameUpper (d d' : Dev) : Prop := ∀ copy < b.numFats.toNat, ∀ c < b.entries,
  rawEntry b d'.bytes copy c / 2 ^ 28 = rawEntry b d.bytes copy c / 2 ^ 28

end

/-! ## One entry -/

section
variable {b : Bpb} {m : ℕ → UInt8} {v : Vol} {d d' : Dev} {c c' x k k' : ℕ}

theorem mergeEntry_div (existing value : ℕ) : mergeEntry existing value / 2 ^ 28 = existing / 2 ^ 28 := by
  rw [mergeEntry, Nat.add_mul_div_right _ _ (by norm_num), Nat.div_eq_of_lt (Nat.mod_lt _ (by norm_num)), zero_add]

theorem rawEntry_lt : rawEntry b m k c < 2 ^ 32 := by
  have h := ofLe_lt (load m (b.fatAddr k c) 4)
  rwa [length_load] at h

theorem rawEntry_setEntry (hc : c < b.entries) (hc' : c' < b.entries) : rawEntry b (setEntry b c x m
    k) k' c' = if k' = k ∧ c' = c then mergeEntry (rawEntry b m k c) x else rawEntry b m k' c' := by
  split_ifs with h
  · obtain ⟨rfl, rfl⟩ := h
    have h1 := load_store_self m (b.fatAddr k' c') (toLe 4 (mergeEntry (rawEntry b m k' c') x))
    rw [length_toLe] at h1
    have h2 : mergeEntry (rawEntry b m k' c') x < 256 ^ 4 := by
      have := rawEntry_lt (b := b) (m := m) (k := k') (c := c')
      rw [mergeEntry]
      omega
    rw [rawEntry, setEntry, h1, ofLe_toLe_of_lt h2]
  · rw [rawEntry, setEntry, load_store_of_disjoint (by rw [length_toLe]; exact Bpb.fatAddr_apart hc hc' h), rawEntry]

theorem rawEntry_foldl (hc : c < b.entries) (hc' : c' < b.entries) : ∀ {copies : List ℕ} (m : ℕ → UInt8), copies.Nodup →
    rawEntry b (copies.foldl (setEntry b c x) m) k' c' =
      if k' ∈ copies ∧ c' = c then mergeEntry (rawEntry b m k' c) x else rawEntry b m k' c'
  | [], m, _ => by simp
  | k :: copies, m, hn => by
    obtain ⟨hk, hn⟩ := List.nodup_cons.1 hn
    rw [List.foldl_cons, rawEntry_foldl hc hc' _ hn, rawEntry_setEntry hc hc, rawEntry_setEntry hc hc']
    by_cases h1 : k' = k
    · subst h1
      simp [hk]
    · simp [h1]

/-- **`write_fat_entry`**, as the stores that it makes. -/
theorem wp_writeFatCopies (c x : ℕ) : ∀ (copies : List ℕ) {v : Vol}, v.dev.Healthy → wp (writeFatCopies b c x copies)
      (fun _ w => w.dev.Healthy ∧ w.dev.bytes = copies.foldl (setEntry b c x) v.dev.bytes) (fun _ _ => False) v
  | [], _, hd => ⟨hd, rfl⟩
  | k :: copies, v, hd => by
    rw [wp_writeFatCopies_cons hd]
    exact wp_writeFatCopies c x copies (hd.put _ _)

theorem wp_writeFatEntry (hd : v.dev.Healthy) (hc : c < b.entries) (x : ℕ) :
    wp (writeFatEntry b c x) (fun _ w => Sets b v.dev c x w.dev) (fun _ _ => False) v := by
  refine (wp_writeFatCopies c x _ hd).imp fun _ w hw => ⟨hw.1, fun k hk c' hc' => ?_⟩
  rw [hw.2, rawEntry_foldl hc hc' _ List.nodup_range]
  simp [hk]

/-! ## Runs -/

/-- The table is as a run needs it: equal copies, no link out of it, and a device that does not fail. -/
structure Mirrored (b : Bpb) (d : Dev) : Prop where
  healthy : d.Healthy
  agree : Agree b d
  linked : Linked b d

theorem Mirrored.sets (h : Mirrored b d) (hb : b.Valid) (hs : Sets b d c x d')
    (hx : isEoc (x % 2 ^ 28) = true ∨ x % 2 ^ 28 < b.entries) : Mirrored b d' ∧ SameUpper b d d' := by
  refine ⟨⟨hs.healthy, fun k hk c' hc' => ?_, fun c' hc' => ?_⟩, fun k hk c' hc' => ?_⟩
  · rw [hs.entry k hk c' hc', hs.entry 0 hb.numFats_pos c' hc']
    split_ifs
    · rw [mergeEntry_mod, mergeEntry_mod]
    · exact h.agree k hk c' hc'
  · have heq : fatAt b d' c' = if c' = c then x % 2 ^ 28 else fatAt b d c' := by
      rw [fatAt, ← rawEntry, hs.entry 0 hb.numFats_pos c' hc']
      split_ifs
      · rw [mergeEntry_mod]
      · rfl
    rw [heq]
    split_ifs
    · exact hx
    · exact h.linked c' hc'
  · rw [hs.entry k hk c' hc']
    split_ifs with hcc
    · rw [mergeEntry_div, hcc]
    · rfl

/-- **`free_chain`** keeps the table, wherever it ends. -/
theorem Mirrored.freeChainLoop (hb : b.Valid) : ∀ (fuel : ℕ) {c : ℕ} {v : Vol}, Mirrored b v.dev → c < b.entries →
    wp (Fat32.freeChainLoop b fuel c) (fun _ w => Mirrored b w.dev ∧ SameUpper b v.dev w.dev)
      (fun _ w => Mirrored b w.dev ∧ SameUpper b v.dev w.dev) v
  | 0, _, _, h, _ => ⟨h, fun _ _ _ _ => rfl⟩
  | fuel + 1, c, v, h, hc => by
    rw [Fat32.freeChainLoop, wp_bind, wp_readDev (readFatEntry_eq h.healthy c)]
    refine (wp_writeFatEntry h.healthy hc 0).seq fun _ u hu => ?_
    obtain ⟨hm, hup⟩ := h.sets hb hu (.inr (Nat.zero_lt_of_lt hc))
    split_ifs with hend
    · exact ⟨hm, hup⟩
    have hnext := (h.linked c hc).resolve_left fun he => hend (by rw [he]; rfl)
    have htrans : ∀ w : Vol, Mirrored b w.dev ∧ SameUpper b u.dev w.dev →
        Mirrored b w.dev ∧ SameUpper b v.dev w.dev :=
      fun w hw => ⟨hw.1, fun k hk e he => (hw.2 k hk e he).trans (hup k hk e he)⟩
    exact (freeChainLoop hb fuel hm hnext).mono (fun _ w => htrans w) fun _ w => htrans w

theorem wp_alloc (hd : v.dev.Healthy) (hcov : b.clusterEnd ≤ b.entries) :
    wp (allocCluster b) (fun c w => b.Cluster c ∧ fatAt b v.dev c = 0 ∧ Sets b v.dev c EOC w.dev)
      (fun e w => e = .err .oom ∧ w.dev = v.dev ∧ ∀ c, b.Cluster c → fatAt b v.dev c ≠ 0) v := by
  refine (wp_allocClusterRaw (fun c _ => readFatEntry_eq hd c) fun u _ hu c hc h0 => ?_).mono (fun _ _ h => h)
    fun e w hw => ⟨hw.1, hw.2.2⟩
  refine (wp_writeFatEntry (hu ▸ hd) (hc.2.trans_le hcov) EOC).imp fun _ w hw => ⟨hc, h0, ?_⟩
  rw [← hu]
  exact hw

end

inductive FatOp where
  | alloc
  | free (startCluster : ℕ)

def FatOp.run (b : Bpb) : FatOp → FsM Unit
  | .alloc => do let _ ← allocCluster b
  | .free c => freeChain b c

def fatStep (b : Bpb) (v : Vol) (op : FatOp) : Option Vol :=
  match op.run b v with
  | .ok _ w | .error (.err _) w => some w
  | .error _ _ => none

/-- A chain that is freed starts in the table. -/
def FatOp.Inside (b : Bpb) : FatOp → Prop
  | .alloc => True
  | .free c => c < b.entries

section
variable {b : Bpb} {v w : Vol} {op : FatOp}

theorem Mirrored.run (h : Mirrored b v.dev) (hb : b.Valid) (hcov : b.clusterEnd ≤ b.entries) (hop : op.Inside b) :
    wp (op.run b) (fun _ w => Mirrored b w.dev ∧ SameUpper b v.dev w.dev)
      (fun _ w => Mirrored b w.dev ∧ SameUpper b v.dev w.dev) v := by
  have hself : Mirrored b v.dev ∧ SameUpper b v.dev v.dev := ⟨h, fun _ _ _ _ => rfl⟩
  cases op with
  | alloc =>
    refine (wp_alloc h.healthy hcov).seq' (fun c w hw => ?_) fun e w hw => ?_
    · exact h.sets hb hw.2.2 (.inl rfl)
    · rw [hw.2.1]
      exact hself
  | free c =>
    rw [FatOp.run, freeChain]
    split_ifs
    · exact hself
    · exact h.freeChainLoop hb _ hop

theorem fatStep_of_wp {P : Vol → Prop} (h : wp (op.run b) (fun _ => P) (fun _ => P) v) (hstep : fatStep b v op = some w) :
    P w := by
  unfold wp at h
  unfold fatStep at hstep
  split at hstep <;> simp_all

end

/-- **Allocation and the copies.**  An allocation takes a free cluster and changes no other entry, or there is none.
In every run from a table without links out of it, with chains freed from inside it, the copies keep agreeing and each
entry keeps its upper bits. -/
theorem copies_agree (b : Bpb) (hb : b.Valid) (hcov : b.clusterEnd ≤ b.entries) :
    (∀ v : Vol, v.dev.Healthy → wp (allocCluster b)
      (fun c w => (2 ≤ c ∧ c < b.numClusters + 2) ∧ fatAt b v.dev c = 0 ∧ Sets b v.dev c EOC w.dev)
      (fun e w => e = .err .oom ∧ w.dev = v.dev ∧ ∀ c, 2 ≤ c ∧ c < b.numClusters + 2 → fatAt b v.dev c ≠ 0) v) ∧
    ∀ v : Vol, v.dev.Healthy → Agree b v.dev → Linked b v.dev → ∀ ops : List FatOp, (∀ op ∈ ops, op.Inside b) →
      ∀ w, exec (fatStep b) v ops = some w → Agree b w.dev ∧ SameUpper b v.dev w.dev := by
  refine ⟨fun v hd => wp_alloc hd hcov, fun v hd ha hl ops hops w hrun => ?_⟩
  have h := exec_induction (I := fun u : Vol => Mirrored b u.dev ∧ SameUpper b v.dev u.dev) ?_
    ⟨⟨hd, ha, hl⟩, fun _ _ _ _ => rfl⟩ (Along.of_forall fun op hop _ => hops op hop) hrun
  · exact ⟨h.1.agree, h.2⟩
  · rintro s op t ⟨hm, hup⟩ hop hstep
    obtain ⟨hm', hup'⟩ := fatStep_of_wp (hm.run hb hcov hop) hstep
    exact ⟨hm', fun k hk e he => (hup' k hk e he).trans (hup k hk e he)⟩

def twoFats : Bpb := ⟨512, 1, 1, 2, 1, 2, 0, 13, 0⟩

def volOn (bytes : ℕ → UInt8) : Vol := .mount ⟨bytes, 13, 0, fun _ _ => true⟩

theorem copies_agree_twoFats : ∃ w, exec (fatStep twoFats) (volOn fun _ => 0) [.alloc] = some w ∧
    Agree twoFats w.dev ∧ SameUpper twoFats (volOn fun _ => 0).dev w.dev := by
  have hrun : (exec (fatStep twoFats) (volOn fun _ => 0) [.alloc]).isSome = true := by decide +kernel
  obtain ⟨w, hw⟩ := Option.isSome_iff_exists.1 hrun
  exact ⟨w, hw, (copies_agree twoFats ⟨by decide, by decide, by decide, by decide⟩ (by decide)).2 _ (fun _ _ => rfl)
    (by decide +kernel) (by decide +kernel) [.alloc] (by simp [FatOp.Inside]) w hw⟩

def wildLink (a : ℕ) : UInt8 :=
  if a % 512 = 8 then 131 else if a % 512 ∈ [12, 13, 14] then 255 else if a % 512 = 15 then 15 else 0

/-- Entry 131 of the first copy is entry 3 of the second. -/
theorem freeChain_splits_copies : twoFats.Valid ∧ twoFats.clusterEnd ≤ twoFats.entries ∧
    ∃ v w : Vol, v.dev.Healthy ∧ Agree twoFats v.dev ∧ exec (fatStep twoFats) v [.free 2] = some w ∧
      ¬ Agree twoFats w.dev := by
  have hrun : (exec (fatStep twoFats) (volOn wildLink) [.free 2]).map (fun w =>
      (rawEntry twoFats w.dev.bytes 0 3, rawEntry twoFats w.dev.bytes 1 3)) = some (0x0FFFFFFF, 0) := by
    decide +kernel
  obtain ⟨w, hw, hraw⟩ := Option.map_eq_some_iff.1 hrun
  refine ⟨⟨by decide, by decide, by decide, by decide⟩, by decide, volOn wildLink, w, fun _ _ => rfl, by decide +kernel,
    hw, fun hagree => ?_⟩
  have h3 := hagree 1 (by decide) 3 (by decide)
  rw [(Prod.mk.inj hraw).1, (Prod.mk.inj hraw).2] at h3
  exact absurd h3 (by decide)

end Archis.Fat32
