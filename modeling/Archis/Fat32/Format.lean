/-
  Making a FAT32 volume (`modules/fat32/src/format.rs`).

  `do_format` sizes the FAT in one pass, for the clusters that a first estimate of its size leaves.  The volume is
  consistent exactly for the sizes in `OnePassFits` (`consistent_formatBpb_iff`).
-/
import Archis.Fat32.View

namespace Archis.Fat32

open Archis.Lib
open List hiding Disjoint

def SECTORS_PER_CLUSTER : ℕ := 8
def RESERVED_SECTOR_COUNT : ℕ := 32
def NUM_FATS : ℕ := 2

section
variable (lbaCount : ℕ) (b : Bpb)

def firstFatSize : ℕ :=
  (lbaCount / SECTORS_PER_CLUSTER * 4 + SECTOR_SIZE - 1) / SECTOR_SIZE

def firstNumClusters : ℕ :=
  (lbaCount - RESERVED_SECTOR_COUNT - NUM_FATS * firstFatSize lbaCount) / SECTORS_PER_CLUSTER

def refinedFatSize : ℕ :=
  ((firstNumClusters lbaCount + 2) * 4 + SECTOR_SIZE - 1) / SECTOR_SIZE

def formatBpb : Bpb where
  bytesPerSector := UInt16.ofNat SECTOR_SIZE
  sectorsPerCluster := UInt8.ofNat SECTORS_PER_CLUSTER
  reservedSectorCount := UInt16.ofNat RESERVED_SECTOR_COUNT
  numFats := UInt8.ofNat NUM_FATS
  fatSize32 := UInt32.ofNat (refinedFatSize lbaCount)
  rootCluster := 2
  fsInfoSector := 1
  totalSectors32 := UInt32.ofNat lbaCount
  volumeId := 0x41524331

def zeroSectors : ℕ → ℕ → FsM Unit
  | 0, _ => pure ()
  | n + 1, lba => do
    writeSectors lba (replicate SECTOR_SIZE 0)
    zeroSectors n (lba + 1)

def zeroFats (b : Bpb) : List ℕ → FsM Unit
  | [] => pure ()
  | copy :: copies => do
    zeroSectors b.fatSize32.toNat (b.reservedSectorCount.toNat + copy * b.fatSize32.toNat)
    zeroFats b copies

/-- What `do_format` writes behind the two header sectors. -/
def writeTables : FsM Unit := do
  zeroFats b (List.range b.numFats.toNat)
  -- the two reserved entries, and the root directory as a chain of one cluster
  writeFatEntry b 0 0x0FFFFFF8
  writeFatEntry b 1 0x0FFFFFFF
  writeFatEntry b 2 0x0FFFFFFF
  writeSectors (clusterToLba b b.rootCluster.toNat) (replicate b.clusterSize 0)

def doFormat : FsM Unit := do
  let lbaCount ← readDev getDiskInfo
  let b := formatBpb lbaCount
  writeSectors 0 b.encode
  writeSectors b.fsInfoSector.toNat encodeFsinfo
  writeTables b

/-! ## The layout of a fresh volume -/

def reservedArea : Set ℕ := Set.Ico 0 b.reservedSectorCount.toNat

def fatCopy (k : ℕ) : Set ℕ :=
  Set.Ico (b.reservedSectorCount.toNat + k * b.fatSize32.toNat)
    (b.reservedSectorCount.toNat + (k + 1) * b.fatSize32.toNat)

def dataArea : Set ℕ :=
  {s | ∃ c, 2 ≤ c ∧ c < b.numClusters + 2 ∧
    s ∈ Set.Ico (clusterToLba b c) (clusterToLba b c + b.sectorsPerCluster.toNat)}

/-- The FAT has an entry for every cluster, no two areas share a sector, and the last cluster ends on the device.
-/
structure Consistent (b : Bpb) (lbaCount : ℕ) : Prop where
  entries : ∀ c, 2 ≤ c → c < b.numClusters + 2 → 4 * c + 4 ≤ b.fatSize32.toNat * SECTOR_SIZE
  fat_fat : ∀ j k, j < k → k < b.numFats.toNat → Disjoint (fatCopy b j) (fatCopy b k)
  reserved_fat : ∀ k < b.numFats.toNat, Disjoint (reservedArea b) (fatCopy b k)
  reserved_data : Disjoint (reservedArea b) (dataArea b)
  fat_data : ∀ k < b.numFats.toNat, Disjoint (fatCopy b k) (dataArea b)
  last : clusterToLba b (b.numClusters + 1) + b.sectorsPerCluster.toNat - 1 < lbaCount

/-- With `l = lbaCount`, `(l - 24) / 1026 + 1` is the least size of a FAT that covers the clusters behind its two
copies; the estimate may exceed it by no more than half of what is left of `l`. -/
def OnePassFits : Prop :=
  2 * ((lbaCount / 8 + 127) / 128) ≤ 2 * ((lbaCount - 24) / 1026) + (lbaCount - 24) % 1026

instance : Decidable (OnePassFits lbaCount) := by
  unfold OnePassFits; infer_instance

end

section
variable {l : ℕ}

theorem refinedFatSize_lt (h : l < 2 ^ 32) : refinedFatSize l < 2 ^ 32 := by
  simp only [refinedFatSize, firstNumClusters, SECTORS_PER_CLUSTER, SECTOR_SIZE]; omega

theorem formatBpb_fatSize32 (h : l < 2 ^ 32) : (formatBpb l).fatSize32.toNat = refinedFatSize l := by
  have h1 := refinedFatSize_lt h
  simp only [formatBpb, UInt32.toNat_ofNat']; omega

theorem formatBpb_totalSectors32 (h : l < 2 ^ 32) : (formatBpb l).totalSectors32.toNat = l := by
  simp only [formatBpb, UInt32.toNat_ofNat']; omega

theorem formatBpb_reserved (l : ℕ) : 1 ≤ (formatBpb l).reservedSectorCount.toNat :=
  show 1 ≤ (UInt16.ofNat RESERVED_SECTOR_COUNT).toNat by decide

theorem formatBpb_fatArea (h : l < 2 ^ 32) : (formatBpb l).fatArea = 2 * refinedFatSize l := by
  rw [Bpb.fatArea, formatBpb_fatSize32 h]; rfl

theorem formatBpb_numClusters (h : l < 2 ^ 32) : (formatBpb l).numClusters = (l - 32 - 2 * refinedFatSize l) / 8 := by
  rw [Bpb.numClusters, formatBpb_totalSectors32 h, formatBpb_fatArea h]; rfl

theorem formatBpb_valid (h : l < 2 ^ 32) : (formatBpb l).Valid where
  bytesPerSector := rfl
  fatSize32 := by
    intro h0
    have h1 := formatBpb_fatSize32 h
    rw [h0] at h1
    simp only [refinedFatSize, SECTOR_SIZE, UInt32.toNat_zero] at h1; omega
  numFats := show UInt8.ofNat NUM_FATS ≠ 0 by decide
  sectorsPerCluster := show UInt8.ofNat SECTORS_PER_CLUSTER ≠ 0 by decide

/-- The FAT that `do_format` writes has an entry for every cluster exactly when one pass was
enough. -/
theorem refinedFatSize_covers_iff (hn : 1 ≤ (l - 32 - 2 * refinedFatSize l) / 8) :
    4 * ((l - 32 - 2 * refinedFatSize l) / 8 + 1) + 4 ≤ refinedFatSize l * 512 ↔ OnePassFits l := by
  have h0 : firstFatSize l = (l / 8 + 127) / 128 := by
    simp only [firstFatSize, SECTORS_PER_CLUSTER, SECTOR_SIZE]; omega
  have h1 : 4 * ((l - 32 - 2 * refinedFatSize l) / 8 + 1) + 4 ≤ refinedFatSize l * 512 ↔
      l - 24 < 1026 * refinedFatSize l := by omega
  have h2 : l - 24 < 1026 * refinedFatSize l ↔ 128 * ((l - 24) / 1026) < firstNumClusters l + 2 := by
    simp only [refinedFatSize, SECTOR_SIZE]; omega
  rw [h1, h2, OnePassFits, ← h0]
  simp only [refinedFatSize, firstNumClusters, RESERVED_SECTOR_COUNT, NUM_FATS,
    SECTORS_PER_CLUSTER, SECTOR_SIZE] at hn ⊢
  omega

end

section
variable (b : Bpb)

theorem disjoint_fatCopy {j k : ℕ} (h : j < k) : Disjoint (fatCopy b j) (fatCopy b k) := by
  have h1 : (j + 1) * b.fatSize32.toNat ≤ k * b.fatSize32.toNat := Nat.mul_le_mul_right _ h
  refine Set.disjoint_left.2 fun s hs hs' => ?_
  simp only [fatCopy, Set.mem_Ico] at hs hs'; omega

theorem disjoint_reservedArea_fatCopy (k : ℕ) : Disjoint (reservedArea b) (fatCopy b k) := by
  refine Set.disjoint_left.2 fun s hs hs' => ?_
  simp only [reservedArea, fatCopy, Set.mem_Ico] at hs hs'; omega

theorem le_of_mem_dataArea {s : ℕ} (h : s ∈ dataArea b) : b.reservedSectorCount.toNat + b.fatArea ≤ s := by
  obtain ⟨c, h2, hc, hs⟩ := h
  rw [Bpb.clusterToLba_eq h2 hc, Set.mem_Ico] at hs; omega

theorem disjoint_reservedArea_dataArea : Disjoint (reservedArea b) (dataArea b) := by
  refine Set.disjoint_left.2 fun s hs hs' => ?_
  have h1 := le_of_mem_dataArea b hs'
  simp only [reservedArea, Set.mem_Ico] at hs; omega

theorem disjoint_fatCopy_dataArea {k : ℕ} (hk : k < b.numFats.toNat) : Disjoint (fatCopy b k) (dataArea b) := by
  refine Set.disjoint_left.2 fun s hs hs' => ?_
  have h1 := le_of_mem_dataArea b hs'
  have h2 : (k + 1) * b.fatSize32.toNat ≤ b.fatArea := Nat.mul_le_mul_right _ hk
  simp only [fatCopy, Set.mem_Ico] at hs; omega

end

/-- The areas lie apart and the clusters fit on the device, so only the entries can fail. -/
theorem consistent_formatBpb_iff {l : ℕ} (hl : l < 2 ^ 32) (hn : 1 ≤ (formatBpb l).numClusters) :
    Consistent (formatBpb l) l ↔ OnePassFits l := by
  have hsize := formatBpb_fatSize32 hl
  have hnum := formatBpb_numClusters hl
  rw [← refinedFatSize_covers_iff (by rw [← hnum]; exact hn), ← hnum]
  constructor
  · intro h
    have h1 := h.entries ((formatBpb l).numClusters + 1) (by omega) (by omega)
    rwa [hsize] at h1
  intro h
  refine ⟨fun c _ hc => ?_, fun j k hjk _ => disjoint_fatCopy _ hjk, fun k _ => disjoint_reservedArea_fatCopy _ k,
    disjoint_reservedArea_dataArea _, fun k hk => disjoint_fatCopy_dataArea _ hk, ?_⟩
  · rw [hsize, SECTOR_SIZE]; omega
  · rw [Bpb.clusterToLba_eq (by omega) (by rw [Bpb.clusterEnd]; omega), formatBpb_fatArea hl]
    have h8 : (formatBpb l).sectorsPerCluster.toNat = 8 := rfl
    have h32 : (formatBpb l).reservedSectorCount.toNat = 32 := rfl
    rw [h8, h32]; omega

/-! ## Running the format -/

/-- The boot sector is the same, and no request has failed. -/
structure SameBoot (v w : Vol) : Prop where
  same : SameFiles v w
  healthy : w.dev.Healthy
  boot : load w.dev.bytes 0 SECTOR_SIZE = load v.dev.bytes 0 SECTOR_SIZE

theorem SameBoot.trans {u v w : Vol} (h : SameBoot u v) (h' : SameBoot v w) : SameBoot u w :=
  ⟨h.same.trans h'.same, h'.healthy, h'.boot.trans h.boot⟩

theorem wp_writeSectors_boot {v : Vol} {lba : ℕ} {l : List UInt8} (hd : v.dev.Healthy)
    (hlba : 1 ≤ lba) (h : l.length % SECTOR_SIZE = 0) (hpos : 0 < l.length) :
    wp (writeSectors lba l) (fun _ => SameBoot v) (fun _ _ => False) v := by
  rw [wp_of_ok (writeSectors_eq hd h hpos)]
  refine ⟨⟨rfl, rfl, rfl⟩, hd, ?_⟩
  simp only [SECTOR_SIZE, Dev.put]
  rw [load_store_of_disjoint (by omega)]

theorem wp_writeFatCopies_boot {b : Bpb} (hb : 1 ≤ b.reservedSectorCount.toNat) (c x : ℕ) :
    ∀ (copies : List ℕ) {v : Vol}, v.dev.Healthy →
      wp (writeFatCopies b c x copies) (fun _ => SameBoot v) (fun _ _ => False) v
  | [], v, hd => ⟨.refl v, hd, rfl⟩
  | k :: copies, v, hd => by
    have hfar : SECTOR_SIZE ≤ b.fatAddr k c := by
      simp only [Bpb.fatAddr, SECTOR_SIZE, add_mul]; omega
    rw [wp_writeFatCopies_cons hd]
    refine wp.imp (wp_writeFatCopies_boot hb c x copies ?_) fun _ w hw =>
      ⟨⟨hw.1.1, hw.1.2, hw.1.3⟩, hw.2, hw.3.trans (load_store_of_disjoint (by omega))⟩
    exact hd

theorem wp_zeroSectors (n : ℕ) : ∀ (lba : ℕ) {v : Vol}, v.dev.Healthy → wp (zeroSectors n lba)
    (fun _ w => SameFiles v w ∧ w.dev.Healthy ∧ ∀ a, w.dev.bytes a = if lba ≤ a / SECTOR_SIZE ∧
    a / SECTOR_SIZE < lba + n then 0 else v.dev.bytes a) (fun _ _ => False) v := by
  induction n with
  | zero => exact fun lba v hd => ⟨.refl v, hd, fun a => by rw [if_neg (by omega)]⟩
  | succ n ih =>
    intro lba v hd
    have hlen : (replicate SECTOR_SIZE (0 : UInt8)).length = SECTOR_SIZE :=
      length_replicate
    rw [zeroSectors, wp_bind, wp_of_ok (writeSectors_eq hd (by rw [hlen]; exact Nat.mod_self _)
      (by rw [hlen]; exact Nat.zero_lt_succ _))]
    refine wp.imp (ih (lba + 1) ?_) ?_
    · exact hd
    rintro - w ⟨hs, hw, hbytes⟩
    refine ⟨⟨hs.1, hs.2, hs.3⟩, hw, fun a => ?_⟩
    rw [hbytes a]
    have hzero (i : ℕ) : (replicate SECTOR_SIZE (0 : UInt8)).getD i 0 = 0 := by
      rw [getD_eq_getElem?_getD, getElem?_replicate]
      split_ifs <;> rfl
    have hdiv : lba * SECTOR_SIZE ≤ a ∧ a < lba * SECTOR_SIZE + SECTOR_SIZE ↔
        a / SECTOR_SIZE = lba := by simp only [SECTOR_SIZE]; omega
    simp only [Dev.put, store, hlen, hzero, hdiv]
    generalize a / SECTOR_SIZE = q
    split_ifs <;> first | rfl | omega

theorem wp_zeroFats (b : Bpb) : ∀ (copies : List ℕ) {v : Vol}, v.dev.Healthy →
    wp (zeroFats b copies) (fun _ w => SameFiles v w ∧ w.dev.Healthy ∧ ∀ a,
      ((∃ k ∈ copies, a / SECTOR_SIZE ∈ fatCopy b k) → w.dev.bytes a = 0) ∧
      ((∀ k ∈ copies, a / SECTOR_SIZE ∉ fatCopy b k) → w.dev.bytes a = v.dev.bytes a))
      (fun _ _ => False) v
  | [], v, hd => ⟨.refl v, hd, fun a => by simp⟩
  | k :: copies, v, hd => by
    rw [zeroFats]
    refine (wp_zeroSectors b.fatSize32.toNat _ hd).seq ?_
    rintro - u ⟨hs, hu, hbytes⟩
    refine (wp_zeroFats b copies hu).imp ?_
    rintro - w ⟨hs', hw, hrest⟩
    refine ⟨hs.trans hs', hw, fun a => ?_⟩
    have hk0 : a / SECTOR_SIZE ∈ fatCopy b k → u.dev.bytes a = 0 := by
      intro ha
      rw [hbytes a, if_pos (by rwa [fatCopy, Set.mem_Ico, add_mul, one_mul, ← add_assoc] at ha)]
    have hk1 : a / SECTOR_SIZE ∉ fatCopy b k → u.dev.bytes a = v.dev.bytes a := by
      intro ha
      rw [hbytes a, if_neg (by rwa [fatCopy, Set.mem_Ico, add_mul, one_mul, ← add_assoc] at ha)]
    obtain ⟨h1, h2⟩ := hrest a
    constructor
    · rintro ⟨j, hj, ha⟩
      by_cases hc : ∃ k ∈ copies, a / SECTOR_SIZE ∈ fatCopy b k
      · exact h1 hc
      have hjk : j = k := by
        rcases mem_cons.1 hj with h | h
        · exact h
        · exact absurd ⟨j, h, ha⟩ hc
      subst hjk
      rw [h2 fun i hi hmem => hc ⟨i, hi, hmem⟩, hk0 ha]
    · intro ha
      rw [h2 fun i hi => ha i (by simp [hi]), hk1 (ha k (by simp))]

section
variable {v : Vol}

theorem length_encodeFsinfo : encodeFsinfo.length = SECTOR_SIZE := by
  rw [encodeFsinfo, length_spliceAll, length_replicate]
  rw [length_replicate]
  simp [SECTOR_SIZE]

theorem wp_doFormat_headers {Q : Unit → Vol → Prop} (hd : v.dev.Healthy) (h : ∀ w : Vol, SameFiles v w →
    w.dev.Healthy → load w.dev.bytes 0 SECTOR_SIZE = (formatBpb v.dev.lbaCount).encode →
    wp (writeTables (formatBpb v.dev.lbaCount)) Q (fun _ _ => False) w) : wp doFormat Q (fun _ _ => False) v := by
  have hinfo : getDiskInfo v.dev = .ok v.dev.lbaCount := by rw [getDiskInfo, hd, if_pos rfl]
  have hlen := (formatBpb v.dev.lbaCount).length_encode
  simp only [doFormat, wp_bind]
  rw [wp_readDev hinfo, wp_bind, wp_of_ok (writeSectors_eq hd
    (by rw [hlen]; exact Nat.mod_self _) (by rw [hlen]; exact Nat.zero_lt_succ _))]
  have hfs : 1 ≤ (formatBpb v.dev.lbaCount).fsInfoSector.toNat := show 1 ≤ (1 : UInt16).toNat by decide
  generalize (formatBpb v.dev.lbaCount).fsInfoSector.toNat = k at hfs ⊢
  have hput := hd.put (0 * SECTOR_SIZE) (formatBpb v.dev.lbaCount).encode
  have hboot : load (v.dev.put (0 * SECTOR_SIZE) (formatBpb v.dev.lbaCount).encode).bytes 0
      SECTOR_SIZE = (formatBpb v.dev.lbaCount).encode := by
    rw [Dev.put, zero_mul, ← hlen, load_store_self]
  generalize (formatBpb v.dev.lbaCount).encode = l at h hput hboot ⊢
  have hfsl := length_encodeFsinfo
  generalize encodeFsinfo = l' at hfsl ⊢
  refine wp.seq (wp_writeSectors_boot (by exact hput) hfs ?_ ?_) ?_
  · rw [hfsl]; exact Nat.mod_self _
  · rw [hfsl]; exact Nat.zero_lt_succ _
  · rintro - w hw
    exact h w ⟨hw.same.1, hw.same.2, hw.same.3⟩ hw.healthy (hw.boot.trans hboot)

theorem wp_writeTables_boot {b : Bpb} (hb : 1 ≤ b.reservedSectorCount.toNat) (hs : b.clusterSize % SECTOR_SIZE = 0 ∧
    0 < b.clusterSize) (hroot : 1 ≤ clusterToLba b b.rootCluster.toNat) (hd : v.dev.Healthy) : wp (writeTables b)
    (fun _ => SameBoot v) (fun _ _ => False) v := by
  have hentry (c x : ℕ) {u : Vol} (hu : SameBoot v u) :
      wp (writeFatEntry b c x) (fun _ => SameBoot v) (fun _ _ => False) u :=
    (wp_writeFatCopies_boot hb c x _ hu.healthy).imp fun _ _ h => hu.trans h
  rw [writeTables]
  refine (wp_zeroFats b _ hd).seq ?_
  rintro - u ⟨hsame, hu, hbytes⟩
  have h0 : SameBoot v u := by
    refine ⟨hsame, hu, load_congr fun k hk => (hbytes _).2 fun j _ hmem => ?_⟩
    rw [zero_add, fatCopy, Set.mem_Ico, Nat.div_eq_of_lt hk] at hmem
    omega
  refine (hentry 0 _ h0).seq fun _ u₁ h1 => (hentry 1 _ h1).seq fun _ u₂ h2 =>
    (hentry 2 _ h2).seq fun _ u₃ h3 => ?_
  exact (wp_writeSectors_boot h3.healthy hroot (by simpa using hs.1) (by simpa using hs.2)).imp
    fun _ _ h => h3.trans h

/-- **The parameter block of a fresh volume** is the one that was computed from the size of the device. -/
theorem doFormat_getBpb (hd : v.dev.Healthy) (hl : v.dev.lbaCount < 2 ^ 32) :
    ∃ w, doFormat v = .ok () w ∧ getBpb w.dev = .ok (formatBpb v.dev.lbaCount) := by
  have hv := formatBpb_valid hl
  have h : wp doFormat (fun _ w => getBpb w.dev = .ok (formatBpb v.dev.lbaCount)) (fun _ _ => False) v := by
    refine wp_doFormat_headers hd fun u hsame hu hboot => ?_
    refine (wp_writeTables_boot ?_ ⟨Shows.clusterSize_mod hv, hv.clusterSize_pos⟩ ?_ hu).imp ?_
    · exact formatBpb_reserved _
    · show 1 ≤ clusterToLba (formatBpb v.dev.lbaCount) (2 : UInt32).toNat
      rw [Bpb.clusterToLba_of_lt (by decide) (by decide)]
      exact (formatBpb_reserved _).trans (by rw [add_assoc]; exact Nat.le_add_right _ _)
    · rintro - w hw
      have hb : Bpb.decode (load w.dev.bytes 0 SECTOR_SIZE) = some (formatBpb v.dev.lbaCount) := by
        rw [hw.boot, hboot, Bpb.decode_encode _ hv]
      exact (shows_imageOf hw.healthy hb).getBpb_eq
  obtain ⟨⟨⟩, w, hw, hb⟩ := exists_of_wp h
  exact ⟨w, hw, hb⟩

end

/-- **When the one-pass sizing is right**: the volume, if it has a cluster at all, is consistent exactly if one
pass was enough. -/
theorem doFormat_consistent_iff (v : Vol) (hd : v.dev.Healthy) (hl : v.dev.lbaCount < 2 ^ 32) :
    ∃ w b, doFormat v = .ok () w ∧ getBpb w.dev = .ok b ∧
      (1 ≤ b.numClusters → (Consistent b v.dev.lbaCount ↔ OnePassFits v.dev.lbaCount)) := by
  obtain ⟨w, hw, hb⟩ := doFormat_getBpb hd hl
  exact ⟨w, _, hw, hb, fun hn => consistent_formatBpb_iff hl hn⟩

/-- A blank device of `l` sectors on which every request succeeds. -/
def blankDev (l : ℕ) : Dev := ⟨fun _ => 0, l, 0, fun _ _ => true⟩

theorem doFormat_consistent_2MiB : ∃ w b, doFormat (Vol.mount (blankDev 4096)) = .ok () w ∧
    getBpb w.dev = .ok b ∧ (1 ≤ b.numClusters → (Consistent b 4096 ↔ OnePassFits 4096)) :=
  doFormat_consistent_iff (.mount (blankDev 4096)) (fun _ _ => rfl) (by decide)

/-- On 1050 sectors the FAT gets one sector; there is room for 127 clusters, and the entry of the last is not in
the FAT. -/
theorem doFormat_1050_inconsistent : ∃ w b, doFormat (Vol.mount (blankDev 1050)) = .ok () w ∧
    getBpb w.dev = .ok b ∧ 1 ≤ b.numClusters ∧ ¬ Consistent b 1050 := by
  obtain ⟨w, hw, hb⟩ := doFormat_getBpb (v := .mount (blankDev 1050)) (fun _ _ => rfl) (by decide : 1050 < 2 ^ 32)
  have hn : (formatBpb 1050).numClusters = 127 := by
    rw [formatBpb_numClusters (by decide)]; rfl
  refine ⟨w, _, hw, hb, ?_, fun h => ?_⟩
  · show 1 ≤ (formatBpb 1050).numClusters
    omega
  · have h1 := (consistent_formatBpb_iff (l := 1050) (by decide) (by omega)).1 h
    exact absurd h1 (by decide)

end Archis.Fat32
