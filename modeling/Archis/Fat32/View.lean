/-
  What a FAT32 volume holds, without the layout of its sectors.

  `Shows b d A`: the healthy device `d` holds the image `A`, with one FAT entry and one cluster of bytes for each cluster
  number.  Functions that read return parts of `A`; those that write turn it into another image, because the boot
  sector, the FAT copies and the clusters lie apart (`Bpb.Covers`).
-/
import Archis.Fat32.Fat

namespace Archis.Fat32

open Archis.Lib

/-! ## The layout -/

namespace Bpb

def clusterEnd (b : Bpb) : ℕ := b.numClusters + 2

/-- The volume has a boot sector in front of its FAT, and the FAT has an entry for every
    cluster. -/
structure Covers (b : Bpb) : Prop where
  valid : b.Valid
  reserved : 1 ≤ b.reservedSectorCount.toNat
  entries : b.clusterEnd * 4 ≤ b.fatSize32.toNat * SECTOR_SIZE

def fatAddr (b : Bpb) (copy c : ℕ) : ℕ :=
  (b.reservedSectorCount.toNat + copy * b.fatSize32.toNat) * SECTOR_SIZE + c * 4

def clusterAddr (b : Bpb) (c : ℕ) : ℕ :=
  (b.reservedSectorCount.toNat + b.fatArea) * SECTOR_SIZE + (c - 2) * b.clusterSize

variable {b : Bpb}

theorem Valid.spc_pos (h : b.Valid) : 0 < b.sectorsPerCluster.toNat :=
  Nat.pos_of_ne_zero fun h0 => h.sectorsPerCluster (UInt8.toNat_inj.1 h0)

theorem Valid.numFats_pos (h : b.Valid) : 0 < b.numFats.toNat :=
  Nat.pos_of_ne_zero fun h0 => h.numFats (UInt8.toNat_inj.1 h0)

theorem Valid.clusterSize_eq (h : b.Valid) : b.clusterSize = SECTOR_SIZE * b.sectorsPerCluster.toNat := by
  rw [clusterSize, h.bytesPerSector]

theorem Valid.clusterSize_slots (h : b.Valid) : b.clusterSize = 16 * b.sectorsPerCluster.toNat * 32 := by
  rw [h.clusterSize_eq, SECTOR_SIZE]
  ring

theorem Valid.clusterSize_pos (h : b.Valid) : 0 < b.clusterSize := by
  rw [h.clusterSize_eq]
  exact Nat.mul_pos (by decide) h.spc_pos

theorem numClusters_lt (b : Bpb) : b.numClusters < 2 ^ 32 :=
  (Nat.div_le_self _ _).trans_lt (((Nat.sub_le _ _).trans (Nat.sub_le _ _)).trans_lt b.totalSectors32.toNat_lt)

/-- The sector of a cluster number does not wrap, in the range of all 32-bit numbers. -/
theorem clusterToLba_of_lt {c : ℕ} (h2 : 2 ≤ c) (hc : c < 2 ^ 32 + 2) : clusterToLba b c =
    b.reservedSectorCount.toNat + b.fatArea + (c - 2) * b.sectorsPerCluster.toNat := by
  have hs : b.sectorsPerCluster.toNat < 2 ^ 8 := b.sectorsPerCluster.toNat_lt
  have hr : b.reservedSectorCount.toNat < 2 ^ 16 := b.reservedSectorCount.toNat_lt
  have hf : b.fatArea ≤ 2 ^ 8 * 2 ^ 32 :=
    Nat.mul_le_mul b.numFats.toNat_lt.le b.fatSize32.toNat_lt.le
  have hm : (c - 2) * b.sectorsPerCluster.toNat ≤ 2 ^ 32 * 2 ^ 8 :=
    Nat.mul_le_mul (by omega) hs.le
  rw [clusterToLba, wsub_eq h2 (by omega), wmul_eq (by omega), wadd_eq (by omega)]

theorem clusterToLba_eq {c : ℕ} (h2 : 2 ≤ c) (hc : c < b.clusterEnd) : clusterToLba b c =
    b.reservedSectorCount.toNat + b.fatArea + (c - 2) * b.sectorsPerCluster.toNat := by
  have h1 := b.numClusters_lt
  exact clusterToLba_of_lt h2 (by unfold clusterEnd at hc; omega)

theorem Valid.clusterToLba_mul {c : ℕ} (h : b.Valid) (h2 : 2 ≤ c) (hc : c < b.clusterEnd) :
    clusterToLba b c * SECTOR_SIZE = b.clusterAddr c := by
  rw [clusterToLba_eq h2 hc, clusterAddr, h.clusterSize_eq]; ring

theorem fatSectorAndOffset_addr (b : Bpb) (copy c : ℕ) : (fatSectorAndOffset b copy c).1 *
    SECTOR_SIZE + (fatSectorAndOffset b copy c).2 = b.fatAddr copy c := by
  simp only [fatSectorAndOffset, fatAddr, SECTOR_SIZE, add_mul]; omega

theorem fatSectorAndOffset_off (b : Bpb) (copy c : ℕ) : (fatSectorAndOffset b copy c).2 + 4 ≤ SECTOR_SIZE := by
  simp only [fatSectorAndOffset, SECTOR_SIZE]; omega

def entries (b : Bpb) : ℕ := b.fatSize32.toNat * 128

theorem fatAddr_apart {c c' k k' : ℕ} (hc : c < b.entries) (hc' : c' < b.entries) (hne : ¬ (k' = k ∧ c' = c)) :
    b.fatAddr k' c' + 4 ≤ b.fatAddr k c ∨ b.fatAddr k c + 4 ≤ b.fatAddr k' c' := by
  have key : ∀ {k k' e e' : ℕ}, e < b.entries → k < k' → b.fatAddr k e + 4 ≤ b.fatAddr k' e' := by
    intro k k' e e' he hk
    have h2 : (k + 1) * b.fatSize32.toNat ≤ k' * b.fatSize32.toNat := Nat.mul_le_mul_right _ hk
    simp only [fatAddr, entries, SECTOR_SIZE, add_mul, one_mul] at he h2 ⊢
    omega
  rcases Nat.lt_trichotomy k k' with hlt | rfl | hlt
  · exact .inr (key hc hlt)
  · have : c' ≠ c := fun h => hne ⟨rfl, h⟩
    simp only [fatAddr]
    omega
  · exact .inl (key hc' hlt)

namespace Covers

variable (h : b.Covers)

include h

theorem boot_lt (copy c : ℕ) : SECTOR_SIZE ≤ b.fatAddr copy c := by
  have h1 := h.reserved
  simp only [fatAddr, SECTOR_SIZE, add_mul]; omega

theorem fatAddr_lt (copy : ℕ) {c : ℕ} (hc : c < b.clusterEnd) : b.fatAddr copy c + 4 ≤
    (b.reservedSectorCount.toNat + (copy + 1) * b.fatSize32.toNat) * SECTOR_SIZE := by
  have h1 := h.entries
  simp only [fatAddr, add_mul, one_mul] at h1 ⊢; omega

theorem fatAddr_ne (copy copy' : ℕ) {c c' : ℕ} (hc : c < b.clusterEnd) (hc' : c' < b.clusterEnd) (hne : copy ≠ copy' ∨
    c ≠ c') : b.fatAddr copy c + 4 ≤ b.fatAddr copy' c' ∨ b.fatAddr copy' c' + 4 ≤ b.fatAddr copy c := by
  have hle : b.clusterEnd ≤ b.entries := by
    have h1 := h.entries
    simp only [Bpb.entries, SECTOR_SIZE] at h1 ⊢
    omega
  exact fatAddr_apart (hc'.trans_le hle) (hc.trans_le hle) (by tauto)

theorem fatAddr_lt_clusterAddr {copy c : ℕ} (c' : ℕ) (hcopy : copy < b.numFats.toNat)
    (hc : c < b.clusterEnd) : b.fatAddr copy c + 4 ≤ b.clusterAddr c' := by
  have h1 := h.fatAddr_lt copy hc
  have h2 : (copy + 1) * b.fatSize32.toNat ≤ b.fatArea := Nat.mul_le_mul_right _ hcopy
  have h3 : (b.reservedSectorCount.toNat + (copy + 1) * b.fatSize32.toNat) * SECTOR_SIZE ≤
      (b.reservedSectorCount.toNat + b.fatArea) * SECTOR_SIZE := Nat.mul_le_mul_right _ (by omega)
  rw [clusterAddr]; omega

theorem boot_lt_clusterAddr (c : ℕ) : SECTOR_SIZE ≤ b.clusterAddr c := by
  have h1 := h.reserved
  simp only [clusterAddr, SECTOR_SIZE, add_mul]; omega

end Covers

theorem clusterAddr_ne {c c' : ℕ} (h2 : 2 ≤ c) (h2' : 2 ≤ c') (hne : c ≠ c') : b.clusterAddr c +
    b.clusterSize ≤ b.clusterAddr c' ∨ b.clusterAddr c' + b.clusterSize ≤ b.clusterAddr c := by
  have key : ∀ {e e' : ℕ}, 2 ≤ e → e < e' → b.clusterAddr e + b.clusterSize ≤ b.clusterAddr e' := by
    intro e e' he hlt
    have h1 : (e - 2 + 1) * b.clusterSize ≤ (e' - 2) * b.clusterSize :=
      Nat.mul_le_mul_right _ (by omega)
    simp only [clusterAddr, add_mul, one_mul] at h1 ⊢; omega
  rcases Nat.lt_or_gt_of_ne hne with hlt | hlt
  · exact .inl (key h2 hlt)
  · exact .inr (key h2' hlt)

end Bpb

/-! ## Images -/

/-- The FAT entries and the clusters of a volume. -/
structure Image where
  fat : ℕ → ℕ
  data : ℕ → List UInt8

namespace Image

def setFat (A : Image) (c x : ℕ) : Image := { A with fat := Function.update A.fat c x }

def setData (A : Image) (c : ℕ) (l : List UInt8) : Image :=
  { A with data := Function.update A.data c l }

variable {A : Image} {c x : ℕ} {l : List UInt8}

@[simp] theorem setFat_data : (A.setFat c x).data = A.data := rfl

@[simp] theorem setData_fat : (A.setData c l).fat = A.fat := rfl

theorem setFat_fat (c' : ℕ) : (A.setFat c x).fat c' = if c' = c then x else A.fat c' := by
  simp only [setFat, Function.update_apply]

theorem setData_data (c' : ℕ) : (A.setData c l).data c' = if c' = c then l else A.data c' := by
  simp only [setData, Function.update_apply]

theorem setFat_setFat (y : ℕ) : (A.setFat c x).setFat c y = A.setFat c y := by
  simp only [setFat, Function.update_idem]

end Image

/-- The entry of a cluster, in the first copy of the FAT. -/
def fatAt (b : Bpb) (d : Dev) (c : ℕ) : ℕ := ofLe (load d.bytes (b.fatAddr 0 c) 4) % 2 ^ 28

def clusterAt (b : Bpb) (d : Dev) (c : ℕ) : List UInt8 :=
  load d.bytes (b.clusterAddr c) b.clusterSize

/-- The device holds the image. -/
structure Shows (b : Bpb) (d : Dev) (A : Image) : Prop where
  healthy : d.Healthy
  boot : Bpb.decode (load d.bytes 0 SECTOR_SIZE) = some b
  fat : ∀ c < b.clusterEnd, fatAt b d c = A.fat c
  data : ∀ c, 2 ≤ c → c < b.clusterEnd → clusterAt b d c = A.data c

def imageOf (b : Bpb) (d : Dev) : Image := ⟨fatAt b d, clusterAt b d⟩

variable {b : Bpb} {d : Dev} {v : Vol}

theorem shows_imageOf (hh : d.Healthy)
    (hb : Bpb.decode (load d.bytes 0 SECTOR_SIZE) = some b) : Shows b d (imageOf b d) :=
  ⟨hh, hb, fun _ _ => rfl, fun _ _ _ => rfl⟩

/-! ## Requests to a healthy device -/

theorem readSectors_eq {lba len : ℕ} (hd : d.Healthy) (h : len % SECTOR_SIZE = 0)
    (hpos : 0 < len) : readSectors d lba len = .ok (load d.bytes (lba * SECTOR_SIZE) len) := by
  rw [readSectors, if_pos ⟨h, hpos⟩, hd, if_pos rfl]

def Dev.put (d : Dev) (a : ℕ) (l : List UInt8) : Dev :=
  { d with bytes := store d.bytes a l, writes := d.writes + 1 }

theorem Dev.Healthy.put (hd : d.Healthy) (a : ℕ) (l : List UInt8) : (d.put a l).Healthy :=
  hd

theorem writeSectors_eq {lba : ℕ} {l : List UInt8} (hd : v.dev.Healthy) (h : l.length % SECTOR_SIZE = 0)
    (hpos : 0 < l.length) : writeSectors lba l v = .ok () { v with dev := v.dev.put (lba * SECTOR_SIZE) l } := by
  rw [writeSectors, if_pos ⟨h, hpos⟩, hd, if_pos rfl]; rfl

section
variable {α : Type} {f : Dev → Except Fault α} {v : Vol}
variable {Q : α → Vol → Prop} {E : Fault → Vol → Prop}

theorem wp_readDev {a : α} (h : f v.dev = .ok a) : wp (readDev f) Q E v ↔ Q a v := by
  simp only [wp, readDev, h]

theorem wp_readDev_error {e : Fault} (h : f v.dev = .error e) : wp (readDev f) Q E v ↔ E e v := by
  simp only [wp, readDev, h]

theorem wp_readDev_iff : wp (readDev f) Q E v ↔ (∀ a, f v.dev = .ok a → Q a v) ∧ ∀ e, f v.dev = .error e → E e v := by
  cases h : f v.dev with
  | ok a => simp [wp_readDev h]
  | error e => simp [wp_readDev_error h]

end

theorem readFatEntry_eq (hd : d.Healthy) (c : ℕ) : readFatEntry b c d = .ok (fatAt b d c) := by
  have h1 := b.fatSectorAndOffset_addr 0 c
  have h2 := b.fatSectorAndOffset_off 0 c
  simp only [readFatEntry, readSectors_eq hd (by decide : SECTOR_SIZE % SECTOR_SIZE = 0) (by decide),
    fatAt, ← h1, ← slice_load h2]
  rfl

theorem put_entry (copy c : ℕ) (x : List UInt8) (hx : x.length = 4) :
    d.put ((fatSectorAndOffset b copy c).1 * SECTOR_SIZE)
    (splice (load d.bytes ((fatSectorAndOffset b copy c).1 * SECTOR_SIZE) SECTOR_SIZE)
    (fatSectorAndOffset b copy c).2 x) = d.put (b.fatAddr copy c) x := by
  have h := b.fatSectorAndOffset_off copy c
  rw [Dev.put, Dev.put, store_splice_load (by omega), b.fatSectorAndOffset_addr]

theorem wp_writeFatCopies_cons {v : Vol} (hd : v.dev.Healthy) {c x k : ℕ} {copies : List ℕ}
    {Q : Unit → Vol → Prop} {E : Fault → Vol → Prop} :
    wp (writeFatCopies b c x (k :: copies)) Q E v ↔ wp (writeFatCopies b c x copies) Q E { v with
      dev := v.dev.put (b.fatAddr k c) (toLe 4 (mergeEntry (ofLe (load v.dev.bytes (b.fatAddr k c) 4)) x)) } := by
  have hread : readSectors v.dev (fatSectorAndOffset b k c).1 SECTOR_SIZE = _ :=
    readSectors_eq hd (by decide) (by decide)
  have hoff := b.fatSectorAndOffset_off k c
  have hlen (m : ℕ) : (splice (load v.dev.bytes ((fatSectorAndOffset b k c).1 * SECTOR_SIZE)
      SECTOR_SIZE) (fatSectorAndOffset b k c).2 (toLe 4 m)).length = SECTOR_SIZE := by
    rw [length_splice (by rw [length_load, length_toLe]; exact hoff), length_load]
  simp only [writeFatCopies, wp_bind]
  rw [wp_readDev hread, wp_bind, wp_of_ok (writeSectors_eq hd (by rw [hlen]; rfl) (by rw [hlen]; decide)),
    put_entry k c _ (length_toLe 4 _), slice_load hoff, b.fatSectorAndOffset_addr]

theorem mergeEntry_mod (existing value : ℕ) : mergeEntry existing value % 2 ^ 28 = value % 2 ^ 28 := by
  rw [mergeEntry, Nat.add_mul_mod_self_right, Nat.mod_mod]

namespace Shows

variable {b : Bpb} {d : Dev} {A : Image} {v : Vol}

theorem getBpb_eq (h : Shows b d A) : getBpb d = .ok b := by
  simp only [getBpb, readSectors_eq h.healthy (by decide : SECTOR_SIZE % SECTOR_SIZE = 0) (by decide)]
  have h1 := h.boot
  simp only [bind, Except.bind, zero_mul, h1]
  rfl

theorem valid (h : Shows b d A) : b.Valid := Bpb.valid_of_decode h.boot

theorem readEntry (h : Shows b d A) {c : ℕ} (hc : c < b.clusterEnd) : readFatEntry b c d = .ok (A.fat c) := by
  rw [readFatEntry_eq h.healthy, h.fat c hc]

theorem clusterSize_mod (h : b.Valid) : b.clusterSize % SECTOR_SIZE = 0 := by
  rw [h.clusterSize_eq]; exact Nat.mul_mod_right _ _

theorem readCluster (h : Shows b d A) {c : ℕ} (h2 : 2 ≤ c) (hc : c < b.clusterEnd) :
    readSectors d (clusterToLba b c) b.clusterSize = .ok (A.data c) := by
  rw [readSectors_eq h.healthy (clusterSize_mod h.valid) h.valid.clusterSize_pos,
    h.valid.clusterToLba_mul h2 hc, ← h.data c h2 hc, clusterAt]

theorem length_data (h : Shows b d A) {c : ℕ} (h2 : 2 ≤ c) (hc : c < b.clusterEnd) :
    (A.data c).length = b.clusterSize := by
  rw [← h.data c h2 hc, clusterAt, length_load]

/-- A write that makes the entries and clusters those of `A'` and leaves the rest alone. -/
theorem put (h : Shows b d A) {A' : Image} {a : ℕ} {l : List UInt8} (ha : SECTOR_SIZE ≤ a) (hfat : ∀ c < b.clusterEnd,
    fatAt b (d.put a l) c = A'.fat c) (hdata : ∀ c, 2 ≤ c → c < b.clusterEnd →
    clusterAt b (d.put a l) c = A'.data c) : Shows b (d.put a l) A' where
  healthy := h.healthy.put a l
  boot := by
    rw [Dev.put, load_store_of_disjoint (by omega)]; exact h.boot
  fat := hfat
  data := hdata

theorem putEntry (h : Shows b d A) (hb : b.Covers) {copy c : ℕ} (hcopy : copy < b.numFats.toNat)
    (hc : c < b.clusterEnd) (existing value : ℕ) :
    Shows b (d.put (b.fatAddr copy c) (toLe 4 (mergeEntry existing value)))
      (if copy = 0 then A.setFat c (value % 2 ^ 28) else A) := by
  refine h.put (hb.boot_lt copy c) ?_ ?_
  · intro c' hc'
    by_cases heq : copy = 0 ∧ c' = c
    · obtain ⟨rfl, rfl⟩ := heq
      have h1 : load (store d.bytes (b.fatAddr 0 c') (toLe 4 (mergeEntry existing value)))
          (b.fatAddr 0 c') 4 = toLe 4 (mergeEntry existing value) := by
        have := load_store_self d.bytes (b.fatAddr 0 c') (toLe 4 (mergeEntry existing value))
        rwa [length_toLe] at this
      rw [fatAt, Dev.put, h1, ofLe_toLe, Nat.mod_mod_of_dvd _ (by decide), mergeEntry_mod,
        if_pos rfl, Image.setFat_fat, if_pos rfl]
    · have h1 := hb.fatAddr_ne 0 copy hc' hc (by omega)
      have h2 : fatAt b (d.put (b.fatAddr copy c) (toLe 4 (mergeEntry existing value))) c' =
          fatAt b d c' := by
        rw [fatAt, Dev.put, load_store_of_disjoint (by rw [length_toLe]; omega), fatAt]
      rw [h2, h.fat c' hc']
      split_ifs with h0
      · rw [Image.setFat_fat, if_neg (by tauto)]
      · rfl
  · intro c' h2 hc'
    have h1 := hb.fatAddr_lt_clusterAddr c' hcopy hc
    rw [clusterAt, Dev.put, load_store_of_disjoint (by rw [length_toLe]; omega), ← clusterAt, h.data c' h2 hc']
    split_ifs <;> rfl

end Shows

/-! ## Writes -/

structure SameFiles (v w : Vol) : Prop where
  openFiles : w.openFiles = v.openFiles
  handles : w.handles = v.handles
  nextHandle : w.nextHandle = v.nextHandle

theorem SameFiles.refl (v : Vol) : SameFiles v v := ⟨rfl, rfl, rfl⟩

theorem SameFiles.trans {u w : Vol} (h : SameFiles u v) (h' : SameFiles v w) : SameFiles u w :=
  ⟨h'.1.trans h.1, h'.2.trans h.2, h'.3.trans h.3⟩

/-- The volume now holds the image, with the same files open as in `v`. -/
structure Becomes (b : Bpb) (v : Vol) (A : Image) (w : Vol) : Prop where
  same : SameFiles v w
  image : Shows b w.dev A

theorem Becomes.trans {u w : Vol} {A A' : Image} (h : Becomes b u A v)
    (h' : Becomes b v A' w) : Becomes b u A' w := ⟨h.same.trans h'.same, h'.image⟩

namespace Shows

variable {b : Bpb} {v : Vol} {A : Image}

theorem becomes (h : Shows b v.dev A) : Becomes b v A v := ⟨.refl v, h⟩

theorem writeFatCopies (hb : b.Covers) {c : ℕ} (hc : c < b.clusterEnd) (x : ℕ) : ∀ (copies : List ℕ)
    {v : Vol} {A : Image}, Shows b v.dev A → (∀ k ∈ copies, k < b.numFats.toNat) →
    wp (Fat32.writeFatCopies b c x copies) (fun _ => Becomes b v
    (if 0 ∈ copies then A.setFat c (x % 2 ^ 28) else A)) (fun _ _ => False) v
  | [], v, A, h, _ => by simpa [Fat32.writeFatCopies] using h.becomes
  | k :: copies, v, A, h, hk => by
    rw [wp_writeFatCopies_cons h.healthy]
    have hput := h.putEntry hb (hk k (by simp)) hc (ofLe (load v.dev.bytes (b.fatAddr k c) 4)) x
    refine (writeFatCopies hb hc x copies hput fun j hj => hk j (by simp [hj])).mono ?_ ?_
    · rintro - w hw
      refine ⟨⟨hw.same.1, hw.same.2, hw.same.3⟩, ?_⟩
      -- a second write of the first copy would write the same value
      have himg := hw.image
      by_cases h0 : k = 0
      · simpa [h0, Image.setFat_setFat] using himg
      · simpa [h0, Ne.symm h0] using himg
    · exact fun _ _ hF => hF

/-- **`write_fat_entry`** sets the entry to the low 28 bits of the value. -/
theorem writeFatEntry (h : Shows b v.dev A) (hb : b.Covers) {c : ℕ} (hc : c < b.clusterEnd) (x : ℕ) : wp
    (Fat32.writeFatEntry b c x) (fun _ => Becomes b v (A.setFat c (x % 2 ^ 28))) (fun _ _ => False) v := by
  have h1 := h.writeFatCopies hb hc x (List.range b.numFats.toNat) fun k hk => List.mem_range.1 hk
  rwa [if_pos (List.mem_range.2 h.valid.numFats_pos)] at h1

/-- **`write_sectors` on a cluster** replaces its bytes. -/
theorem writeCluster (h : Shows b v.dev A) (hb : b.Covers) {c : ℕ} (h2 : 2 ≤ c)
    (hc : c < b.clusterEnd) {l : List UInt8} (hl : l.length = b.clusterSize) :
    wp (writeSectors (clusterToLba b c) l) (fun _ => Becomes b v (A.setData c l))
      (fun _ _ => False) v := by
  rw [wp_of_ok (writeSectors_eq h.healthy (by rw [hl]; exact clusterSize_mod h.valid)
    (by rw [hl]; exact h.valid.clusterSize_pos)), h.valid.clusterToLba_mul h2 hc]
  refine ⟨⟨rfl, rfl, rfl⟩, h.put (hb.boot_lt_clusterAddr c) ?_ ?_⟩
  · intro c' hc'
    have h1 := hb.fatAddr_lt_clusterAddr c h.valid.numFats_pos hc'
    rw [fatAt, Dev.put, load_store_of_disjoint (by omega), ← fatAt, h.fat c' hc', Image.setData_fat]
  intro c' h2' hc'
  rw [Image.setData_data]
  split_ifs with heq
  · subst heq
    rw [clusterAt, Dev.put, ← hl, load_store_self]
  · have h1 := Bpb.clusterAddr_ne (b := b) h2' h2 heq
    rw [clusterAt, Dev.put, load_store_of_disjoint (by rw [hl]; omega), ← clusterAt, h.data c' h2' hc']

end Shows

/-! ## A device for an image -/

/-- A healthy device with the parameter block, the entries in every copy of the FAT, and the clusters. -/
def devOf (b : Bpb) (A : Image) : Dev where
  bytes a :=
    if a < SECTOR_SIZE then b.encode.getD a 0
    else if a < b.reservedSectorCount.toNat * SECTOR_SIZE then 0
    else if a < (b.reservedSectorCount.toNat + b.fatArea) * SECTOR_SIZE then
      let o := (a - b.reservedSectorCount.toNat * SECTOR_SIZE) % (b.fatSize32.toNat * SECTOR_SIZE)
      (toLe 4 (A.fat (o / 4))).getD (o % 4) 0
    else
      let o := a - (b.reservedSectorCount.toNat + b.fatArea) * SECTOR_SIZE
      (A.data (o / b.clusterSize + 2)).getD (o % b.clusterSize) 0
  lbaCount := b.totalSectors32.toNat
  writes := 0
  ok _ _ := true

/-- **Every image is held by a device.** -/
theorem shows_devOf {A : Image} (hb : b.Covers) (hfat : ∀ c < b.clusterEnd, A.fat c < 2 ^ 28) (hdata : ∀ c, 2 ≤ c →
    c < b.clusterEnd → (A.data c).length = b.clusterSize) : Shows b (devOf b A) A where
  healthy := fun _ _ => rfl
  boot := by
    have h1 : load (devOf b A).bytes 0 b.encode.length = b.encode := by
      refine load_eq_of_getD fun k hk => ?_
      rw [Bpb.length_encode] at hk
      simp only [devOf, zero_add, if_pos hk]
    rw [Bpb.length_encode] at h1
    rw [h1, Bpb.decode_encode _ hb.valid]
  fat := by
    intro c hc
    have h1 : load (devOf b A).bytes (b.fatAddr 0 c) (toLe 4 (A.fat c)).length = toLe 4 (A.fat c) := by
      refine load_eq_of_getD fun k hk => ?_
      rw [length_toLe] at hk
      have h2 := hb.boot_lt 0 c
      have h3 := hb.entries
      have h4 : b.fatSize32.toNat ≤ b.fatArea := Nat.le_mul_of_pos_left _ hb.valid.numFats_pos
      have h5 : b.fatSize32.toNat * SECTOR_SIZE ≤ b.fatArea * SECTOR_SIZE := Nat.mul_le_mul_right _ h4
      have h6 : b.fatAddr 0 c + k - b.reservedSectorCount.toNat * SECTOR_SIZE = c * 4 + k := by
        simp only [Bpb.fatAddr, zero_mul, add_zero]; omega
      have h7 : b.fatAddr 0 c = b.reservedSectorCount.toNat * SECTOR_SIZE + c * 4 := by
        simp only [Bpb.fatAddr, zero_mul, add_zero]
      simp only [devOf]
      rw [if_neg (by omega), if_neg (by omega), if_pos (by rw [add_mul]; omega), h6, Nat.mod_eq_of_lt (by omega)]
      congr 1
      · congr 2; omega
      · omega
    rw [length_toLe] at h1
    rw [fatAt, h1, ofLe_toLe_of_lt ((hfat c hc).trans (by norm_num)), Nat.mod_eq_of_lt (hfat c hc)]
  data := by
    intro c h2 hc
    have hlen := hdata c h2 hc
    have hcs := hb.valid.clusterSize_pos
    have h1 : load (devOf b A).bytes (b.clusterAddr c) (A.data c).length = A.data c := by
      refine load_eq_of_getD fun k hk => ?_
      have h3 := hb.boot_lt_clusterAddr c
      have h4 : b.clusterAddr c + k - (b.reservedSectorCount.toNat + b.fatArea) * SECTOR_SIZE =
          (c - 2) * b.clusterSize + k := by rw [Bpb.clusterAddr]; omega
      have h5 : (b.reservedSectorCount.toNat + b.fatArea) * SECTOR_SIZE ≤ b.clusterAddr c := by
        rw [Bpb.clusterAddr]; omega
      have h6 : ((c - 2) * b.clusterSize + k) / b.clusterSize + 2 = c := by
        rw [mul_comm, Nat.mul_add_div hcs, Nat.div_eq_of_lt (by omega)]; omega
      have h7 : ((c - 2) * b.clusterSize + k) % b.clusterSize = k := by
        rw [mul_comm, Nat.mul_add_mod, Nat.mod_eq_of_lt (by omega)]
      simp only [devOf]
      rw [if_neg (by omega), if_neg (by rw [add_mul] at h5; omega), if_neg (by omega), h4, h6, h7]
    rw [hlen] at h1
    rw [clusterAt, h1]

end Archis.Fat32
