/-
  Runs of reads and writes on the files of a volume.

  A file is meant to be a byte array (`ByteFile`).  `exec_readFile`: every read returns what the writes before it have
  put there, if there is no gap in a first cluster (`NoFirstGap`).
-/
import Archis.Fat32.FileIo

namespace Archis.Fat32

open Archis.Lib List
open Function (update update_eq_self update_of_ne update_self)

/-! ## Byte arrays -/

/-- A file as a byte array.  The bytes from `size` on are those that a later gap would show. -/
structure ByteFile where
  size : ℕ
  byte : ℕ → UInt8

namespace ByteFile

def empty : ByteFile := ⟨0, fun _ => 0⟩

def write (m : ByteFile) (offset : ℕ) (data : List UInt8) : ByteFile :=
  if data = [] then m
  else ⟨max m.size (offset + data.length), fun p =>
    if offset ≤ p ∧ p < offset + data.length then data.getD (p - offset) 0 else m.byte p⟩

def read (m : ByteFile) (offset len : ℕ) : List UInt8 :=
  (List.range (min len (m.size - offset))).map fun k => m.byte (offset + k)

end ByteFile

/-! ## Runs -/

section
variable {ι : Type*} [DecidableEq ι]

/-- The calls, on the files that `ι` names. -/
inductive FileOp (ι : Type*) where
  | read (i : ι) (offset len : ℕ)
  | write (i : ι) (offset : ℕ) (data : List UInt8)

/-- A volume and what the owners of its files know of them. -/
structure Files (ι : Type*) where
  vol : Vol
  files : ι → File

def fileStep (b : Bpb) (s : Files ι) : FileOp ι → Option (Files ι)
  | .read i offset len =>
    match readFile b (s.files i).firstCluster (s.files i).fileSize offset len s.vol.dev with
    | .ok _ => some s
    | .error _ => none
  | .write i offset data =>
    match writeFile b (s.files i) offset data s.vol with
    | .ok f v => some ⟨v, update s.files i f⟩
    | .error _ _ => none

/-- What the call does to the byte arrays. -/
def ByteFile.step (m : ι → ByteFile) : FileOp ι → ι → ByteFile
  | .read _ _ _ => m
  | .write i offset data => update m i ((m i).write offset data)

/-- The write leaves no gap in the first cluster: it starts inside the file, or that cluster is full. -/
def NoFirstGap (b : Bpb) (s : Files ι) : FileOp ι → Prop
  | .read _ _ _ => True
  | .write i offset data =>
    data = [] ∨ offset ≤ (s.files i).fileSize ∨ b.clusterSize ≤ (s.files i).fileSize

/-! ## The simulation -/

/-- The clusters `l` hold the array, and zeros behind it except in the rest of the first cluster. -/
structure Holds (b : Bpb) (A : Image) (f : File) (l : List ℕ) (m : ByteFile) : Prop where
  owns : Owns b A f.firstCluster l
  size : f.fileSize = m.size
  room : m.size ≤ l.length * b.clusterSize
  byte : ∀ p < l.length * b.clusterSize, p < m.size ∨ b.clusterSize ≤ p → (A.bytes l)[p]? = some (m.byte p)
  zero : ∀ p, m.size ≤ p → m.byte p = 0

/-- The volume stores the arrays, each in clusters of its own. -/
structure StoresIn (b : Bpb) (s : Files ι) (m : ι → ByteFile) (A : Image) (l : ι → List ℕ) :
    Prop where
  shows_ : Shows b s.vol.dev A
  holds : ∀ i, Holds b A (s.files i) (l i) (m i)
  disjoint : ∀ i j, i ≠ j → (l i).Disjoint (l j)

def Stores (b : Bpb) (s : Files ι) (m : ι → ByteFile) : Prop := ∃ A l, StoresIn b s m A l

end

variable {b : Bpb} {A : Image} {a : ℕ} {l : List ℕ}

theorem Owns.range (h : Owns b A a l) : ∀ c ∈ l, b.Cluster c := by
  unfold Owns at h
  split_ifs at h with ha
  · simp [h]
  · exact h.range

theorem Owns.not_free {c : ℕ} (h : Owns b A a l) (hc : c ∈ l) : A.fat c ≠ 0 := by
  unfold Owns at h
  split_ifs at h with ha
  · simp [h] at hc
  · exact h.not_free hc

theorem Owns.congr {A' : Image} (h : Owns b A a l) (hA : ∀ c ∈ l, A'.fat c = A.fat c) : Owns b A' a l := by
  unfold Owns at h ⊢
  split_ifs at h ⊢ with ha
  · exact h
  · exact h.congr hA

theorem Extends.owns {A' : Image} {news : List ℕ} (h : Extends b A l news a A') : Owns b A' a (l ++ news) := by
  have h2 := h.chain.first.1
  rw [Owns, if_neg (by omega)]
  exact h.chain

namespace Holds

variable {b : Bpb} {A A' : Image} {f f' : File} {l news : List ℕ} {m : ByteFile}

theorem congr (h : Holds b A f l m) (hfat : ∀ c ∈ l, A'.fat c = A.fat c)
    (hdata : ∀ c ∈ l, A'.data c = A.data c) : Holds b A' f l m where
  owns := h.owns.congr hfat
  size := h.size
  room := h.room
  byte := by rw [Image.bytes_congr hdata]; exact h.byte
  zero := h.zero

theorem readFile {d : Dev} (h : Holds b A f l m) (hd : Shows b d A) (off len : ℕ) :
    Fat32.readFile b f.firstCluster f.fileSize off len d = .ok (m.read off len) := by
  have hroom := h.room
  rw [hd.readFile h.owns (by rw [h.size]; exact hroom), ByteFile.read, h.size]
  congr 1
  refine ext_getElem? fun k => ?_
  by_cases hk : k < min len (m.size - off)
  · rw [getElem?_slice hk, h.byte _ (by omega) (.inl (by omega)), getElem?_map, getElem?_range hk]
    rfl
  · rw [getElem?_slice_eq_none (by omega), getElem?_eq_none]
    rw [length_map, length_range]; omega

theorem write {v w : Vol} {off : ℕ} {data old : List UInt8} (h : Holds b A f l m) (hs : Shows b v.dev A)
    (hw : FileWrote b v A l f off data f' w news A' old) (h0 : data ≠ []) (hgap : off ≤ f.fileSize ∨
    b.clusterSize ≤ f.fileSize) : Holds b A' f' (l ++ news) (m.write off data) := by
  obtain ⟨k, hbytes, hlen⟩ := hw.bytes
  have hcs := hs.valid.clusterSize_pos
  have hl : (A.bytes l).length = l.length * b.clusterSize := hs.length_bytes h.owns.range
  have hsize := h.size
  have hroom := h.room
  rw [ByteFile.write, if_neg h0]
  refine ⟨hw.extends_.owns, ?_, ?_, ?_, ?_⟩
  · rw [hw.size, h.size]
  · have h1 := hw.fits
    have h2 : l.length * b.clusterSize ≤ (l ++ news).length * b.clusterSize :=
      Nat.mul_le_mul_right _ (by rw [length_append]; omega)
    simp only; omega
  · intro p hp hp'
    have hfit := hw.fits
    rw [hbytes, getElem?_splice (by omega)]
    simp only at hp' ⊢
    split_ifs with hin
    · rw [getD_eq_getElem?_getD, getElem?_eq_getElem (by omega)]
      rfl
    -- a byte that the data does not cover: of the old file, of its new first cluster, or a zero
    by_cases hpl : p < l.length * b.clusterSize
    · rw [append_assoc, getElem?_append_left (by omega)]
      exact h.byte p hpl (by omega)
    have hz : m.byte p = 0 := h.zero p (by omega)
    have hpo : ¬ p - l.length * b.clusterSize < old.length := by
      intro hlt
      by_cases hnil : l = []
      · have hc := hw.extends_.chain.first
        rw [hw.old_first hnil, hs.length_data hc.1 hc.2] at hlt
        subst hnil
        simp only [length_nil, zero_mul] at hroom hlt; omega
      · rw [hw.old_nil hnil] at hlt; simp at hlt
    have hX : (A.bytes l ++ old).length ≤ p := by rw [length_append, hl]; omega
    rw [length_append, length_replicate] at hlen
    rw [getElem?_append_right hX, hz, getElem?_replicate, if_pos (by omega)]
  · intro p hp
    simp only at hp ⊢
    rw [if_neg (by omega)]
    exact h.zero p (by omega)

end Holds

section
variable {ι : Type*} [DecidableEq ι] {b : Bpb} {s t : Files ι} {m : ι → ByteFile}

theorem fileStep_stores (hb : b.Covers) (hf : b.Fits) {op : FileOp ι} (hs : Stores b s m) (hgap : NoFirstGap b s op)
    (hstep : fileStep b s op = some t) : Stores b t (ByteFile.step m op) := by
  obtain ⟨A, l, hA, hh, hdisj⟩ := hs
  cases op with
  | read i off len =>
    simp only [fileStep] at hstep
    split at hstep
    · obtain rfl := Option.some.inj hstep
      exact ⟨A, l, hA, hh, hdisj⟩
    · cases hstep
  | write i off data =>
    simp only [fileStep] at hstep
    by_cases h0 : data = []
    · subst h0
      simp only [writeFile, if_true] at hstep
      have h1 : (⟨s.vol, update s.files i (s.files i)⟩ : Files ι) = t :=
        Option.some.inj hstep
      rw [update_eq_self] at h1
      refine ⟨A, l, h1 ▸ hA, fun j => ?_, hdisj⟩
      have h2 : ByteFile.step m (.write i off []) j = m j := by
        rw [ByteFile.step, ByteFile.write, if_pos rfl, update_eq_self]
      rw [h2, ← h1]; exact hh j
    · have hspec := wp_iff.1 (hA.writeFile hb hf (hh i).owns h0 off)
      cases hres : writeFile b (s.files i) off data s.vol with
      | error e v => rw [hres] at hstep; cases hstep
      | ok f' v =>
        rw [hres] at hstep
        obtain rfl := Option.some.inj hstep
        obtain ⟨news, A', old, hw⟩ := hspec.1 f' v hres
        have hgap' := hgap.resolve_left h0
        -- the new clusters were free, so no other file has them
        have hnew : ∀ j, (l j).Disjoint news := fun j c hc hc' =>
          (hh j).owns.not_free hc (hw.extends_.free c hc')
        refine ⟨A', update l i (l i ++ news), hw.becomes.image, fun j => ?_, ?_⟩
        · by_cases hji : j = i
          · subst hji
            simp only [ByteFile.step, update_self]
            exact (hh j).write hA hw h0 hgap'
          · simp only [ByteFile.step, update_of_ne hji]
            exact (hh j).congr (fun c hc => hw.extends_.fat c (hdisj j i hji hc) (hnew j hc))
              (fun c hc => hw.extends_.data c (hdisj j i hji hc) (hnew j hc))
        · intro j k hjk
          by_cases hji : j = i
          · subst hji
            rw [update_self, update_of_ne (Ne.symm hjk)]
            exact disjoint_append_left.2 ⟨hdisj j k hjk, (hnew k).symm⟩
          rw [update_of_ne hji]
          by_cases hki : k = i
          · subst hki
            rw [update_self]
            exact disjoint_append_right.2 ⟨hdisj j k hjk, hnew j⟩
          · rw [update_of_ne hki]
            exact hdisj j k hjk

/-- **What is read is what was written**, in every run whose writes succeed and leave no gap in a first cluster.
-/
theorem exec_readFile (hb : b.Covers) (hf : b.Fits) (ops : List (FileOp ι)) (hs : Stores b s m)
    (hrun : exec (fileStep b) s ops = some t) (hgap : Along (fileStep b) (NoFirstGap b) s ops)
    (i : ι) (off len : ℕ) : readFile b (t.files i).firstCluster (t.files i).fileSize off len
    t.vol.dev = .ok ((ops.foldl ByteFile.step m i).read off len) := by
  have key : ∀ (ops : List (FileOp ι)) {s : Files ι} {m : ι → ByteFile}, Stores b s m → exec (fileStep b) s ops = some
      t → Along (fileStep b) (NoFirstGap b) s ops → Stores b t (ops.foldl ByteFile.step m) := by
    intro ops
    induction ops with
    | nil =>
      intro s m hs hrun _
      obtain rfl := Option.some.inj hrun
      exact hs
    | cons op ops ih =>
      intro s m hs hrun hgap
      obtain ⟨u, hu, hrun⟩ := exec_cons.1 hrun
      exact ih (fileStep_stores hb hf hs hgap.1 hu) hrun (hgap.2 u hu)
  obtain ⟨A, l, hA, hh, -⟩ := key ops hs hrun hgap
  exact (hh i).readFile hA off len

omit [DecidableEq ι] in
theorem stores_empty {A : Image} (hA : Shows b s.vol.dev A) (hs : ∀ i, (s.files i).firstCluster < 2
    ∧ (s.files i).fileSize = 0) : Stores b s fun _ => ByteFile.empty := by
  refine ⟨A, fun _ => [], hA, fun i => ⟨?_, (hs i).2, Nat.zero_le _, ?_, fun _ _ => rfl⟩, ?_⟩
  · rw [Owns, if_pos (hs i).1]
  · intro p hp
    rw [length_nil, zero_mul] at hp; omega
  · intro i j _ c hc
    cases hc

end

/-! ## A small volume with old bytes -/

def tinyBpb : Bpb := ⟨512, 1, 1, 2, 1, 2, 0, 13, 0⟩

/-- Only the root directory has a cluster; the other clusters still hold bytes of deleted files. -/
def usedImage : Image where
  fat c := if c = 2 then EOC else 0
  data c := replicate 512 (if c = 2 then 0 else 0xFF)

def usedVol : Vol := .mount (devOf tinyBpb usedImage)

theorem tinyBpb_covers : tinyBpb.Covers := ⟨⟨rfl, by decide, by decide, by decide⟩, by decide, by decide⟩

theorem usedVol_shows : Shows tinyBpb usedVol.dev usedImage := by
  refine shows_devOf tinyBpb_covers (fun c _ => ?_) fun c _ _ => length_replicate ..
  show (if c = 2 then EOC else 0) < 2 ^ 28
  split_ifs <;> decide

def usedFiles : Files Unit := ⟨usedVol, fun _ => ⟨0, 0⟩⟩

theorem usedFiles_stores : Stores tinyBpb usedFiles fun _ => ByteFile.empty :=
  stores_empty usedVol_shows fun _ => ⟨Nat.two_pos, rfl⟩

theorem exec_readFile_start : ∃ t, exec (fileStep tinyBpb) usedFiles [.write () 0 [7]] = some t ∧
    readFile tinyBpb (t.files ()).firstCluster (t.files ()).fileSize 0 5 t.vol.dev = .ok [7] := by
  have hrun : (exec (fileStep tinyBpb) usedFiles [.write () 0 [7]]).isSome = true := by decide +kernel
  obtain ⟨t, ht⟩ := Option.isSome_iff_exists.1 hrun
  exact ⟨t, ht, exec_readFile tinyBpb_covers (by decide) [.write () 0 [7]] usedFiles_stores ht
    ⟨.inr (.inl (by decide)), fun _ _ => trivial⟩ () 0 5⟩

/-- A byte written behind a gap of one byte: the gap reads as the old byte of the cluster, and not
as zero. -/
theorem gap_reads_old_byte : tinyBpb.Covers ∧ tinyBpb.Fits ∧ (Stores tinyBpb usedFiles fun _ => ByteFile.empty) ∧
      ∃ t, exec (fileStep tinyBpb) usedFiles [.write () 1 [7]] = some t ∧
        readFile tinyBpb (t.files ()).firstCluster (t.files ()).fileSize 0 1 t.vol.dev = .ok [0xFF] ∧
        ([FileOp.write () 1 [7]].foldl ByteFile.step (fun _ => ByteFile.empty) ()).read 0 1 = [0] := by
  have hrun : (exec (fileStep tinyBpb) usedFiles [.write () 1 [7]]).map (fun t =>
      readFile tinyBpb (t.files ()).firstCluster (t.files ()).fileSize 0 1 t.vol.dev) = some (.ok [0xFF]) := by
    decide +kernel
  obtain ⟨t, ht, hread⟩ := Option.map_eq_some_iff.1 hrun
  exact ⟨tinyBpb_covers, by decide, usedFiles_stores, t, ht, hread, by decide⟩

end Archis.Fat32
