/-
  Reading and writing files (`modules/fat32/src/file_io.rs`).

  A file is a cluster chain and a size; a read returns the bytes of the chain, and a write copies its data into them
  (`Extends`) or runs out of clusters.  A cluster that is appended is zeroed, the first cluster of a file is not.
-/
import Archis.Lib.Run
import Archis.Fat32.Alloc

namespace Archis.Fat32

open Archis.Lib
open List hiding IsChain

/-! ## The functions -/

/-- The cluster of the next offset, from the one last used: `if target_index > cluster_index` of
    `read_file`. -/
def seekWalk (b : Bpb) (d : Dev) (clusterIndex targetIndex cluster : ℕ) : Except Fault ℕ :=
  if clusterIndex < targetIndex then clusterAtIndexWalk b d (targetIndex - clusterIndex) cluster
  else pure cluster

/-- The same in `write_file`, where the chain may grow. -/
def seekExtend (b : Bpb) (clusterIndex targetIndex cluster : ℕ) : FsM ℕ :=
  if clusterIndex < targetIndex then clusterAtIndexExtend b (targetIndex - clusterIndex) cluster
  else pure cluster

/-- The loop of `read_file`: `left` bytes are still to be read.  The first argument bounds the
    rounds. -/
def readLoop (b : Bpb) (d : Dev) : ℕ → ℕ → ℕ → ℕ → ℕ → Except Fault (List UInt8)
  | 0, _, _, _, _ => pure []
  | n + 1, cluster, clusterIndex, curOffset, left =>
    if left = 0 then pure []
    else do
      let targetIndex := curOffset / b.clusterSize
      let cluster ← seekWalk b d clusterIndex targetIndex cluster
      let inClusterOff := curOffset % b.clusterSize
      let clusterBuf ← readSectors d (clusterToLba b cluster) b.clusterSize
      let chunk := min (b.clusterSize - inClusterOff) left
      let rest ← readLoop b d n cluster (max clusterIndex targetIndex) (wadd curOffset chunk) (left - chunk)
      return slice clusterBuf inClusterOff chunk ++ rest

/-- `read_file` into a buffer of `len` bytes: the bytes that it fills in. -/
def readFile (b : Bpb) (firstCluster fileSize offset len : ℕ) (d : Dev) : Except Fault (List UInt8) :=
  if firstCluster < 2 ∨ fileSize ≤ offset ∨ len = 0 then pure []
  else do
    let toRead := min len (fileSize - offset)
    let cluster ← clusterAtIndexWalk b d (offset / b.clusterSize) firstCluster
    readLoop b d toRead cluster (offset / b.clusterSize) offset toRead

/-- The loop of `write_file` on the bytes still to be written. -/
def writeLoop (b : Bpb) : ℕ → ℕ → ℕ → ℕ → List UInt8 → FsM Unit
  | 0, _, _, _, _ => pure ()
  | n + 1, cluster, clusterIndex, curOffset, data =>
    if data = [] then pure ()
    else do
      let targetIndex := curOffset / b.clusterSize
      let cluster ← seekExtend b clusterIndex targetIndex cluster
      let inClusterOff := curOffset % b.clusterSize
      let clusterBuf ← readDev (readSectors · (clusterToLba b cluster) b.clusterSize)
      let chunk := min (b.clusterSize - inClusterOff) data.length
      writeSectors (clusterToLba b cluster) (splice clusterBuf inClusterOff (data.take chunk))
      writeLoop b n cluster (max clusterIndex targetIndex) (wadd curOffset chunk) (data.drop chunk)

/-- What a file's owner knows of it: `first_cluster` (below 2 if it has none) and `file_size`. -/
structure File where
  firstCluster : ℕ
  fileSize : ℕ
  deriving DecidableEq, Repr

def firstOrAlloc (b : Bpb) (firstCluster : ℕ) : FsM ℕ :=
  if firstCluster < 2 then allocCluster b else pure firstCluster

/-- `write_file`: the file afterwards; on an error the caller keeps the old values. -/
def writeFile (b : Bpb) (f : File) (offset : ℕ) (data : List UInt8) : FsM File :=
  if data = [] then pure f
  else do
    let firstCluster ← firstOrAlloc b f.firstCluster
    let cluster ← clusterAtIndexExtend b (offset / b.clusterSize) firstCluster
    writeLoop b data.length cluster (offset / b.clusterSize) offset data
    let endOffset := wadd offset data.length
    return ⟨firstCluster, if f.fileSize < endOffset then endOffset else f.fileSize⟩

/-! ## The bytes of a chain -/

namespace Image

variable {A : Image} {n : ℕ}

theorem slice_bytes : ∀ {l : List ℕ} {k c j m : ℕ}, (∀ x ∈ l, (A.data x).length = n) →
    l[k]? = some c → j + m ≤ n → slice (A.bytes l) (k * n + j) m = slice (A.data c) j m
  | [], _, _, _, _, _, hk, _ => by simp at hk
  | x :: l, 0, c, j, m, hl, hk, hm => by
    obtain rfl : x = c := by simpa using hk
    have hx := hl x (by simp)
    rw [zero_mul, zero_add, bytes, flatMap_cons, slice, slice,
      drop_append_of_le_length (by omega), take_append_of_le_length]
    rw [length_drop]; omega
  | x :: l, k + 1, c, j, m, hl, hk, hm => by
    have hx := hl x (by simp)
    have hk' : l[k]? = some c := by simpa using hk
    have ih := slice_bytes (fun y hy => hl y (by simp [hy])) hk' hm
    have hadd : (k + 1) * n + j = (A.data x).length + (k * n + j) := by rw [hx]; ring
    rw [hadd, bytes, flatMap_cons, slice, drop_length_add_append]
    exact ih

theorem bytes_setData : ∀ {l : List ℕ} {k c j : ℕ} {d : List UInt8}, l.Nodup →
    (∀ x ∈ l, (A.data x).length = n) → l[k]? = some c → j + d.length ≤ n →
    (A.setData c (splice (A.data c) j d)).bytes l = splice (A.bytes l) (k * n + j) d
  | [], _, _, _, _, _, _, hk, _ => by simp at hk
  | x :: l, 0, c, j, d, hnd, hl, hk, hd => by
    obtain rfl : x = c := by simpa using hk
    have hx := hl x (by simp)
    have hrest : (A.setData x (splice (A.data x) j d)).bytes l = A.bytes l := by
      refine bytes_congr fun y hy => ?_
      rw [setData_data, if_neg]
      rintro rfl; exact (nodup_cons.1 hnd).1 hy
    rw [zero_mul, zero_add, bytes, flatMap_cons, ← bytes, hrest, setData_data, if_pos rfl,
      bytes, bytes, flatMap_cons, splice_append (by omega)]
  | x :: l, k + 1, c, j, d, hnd, hl, hk, hd => by
    have hx := hl x (by simp)
    have hk' : l[k]? = some c := by simpa using hk
    have hxc : x ≠ c := by
      rintro rfl
      exact (nodup_cons.1 hnd).1 (mem_of_getElem? hk')
    have ih := bytes_setData (nodup_cons.1 hnd).2 (fun y hy => hl y (by simp [hy])) hk' hd
    have hadd : (k + 1) * n + j = (A.data x).length + (k * n + j) := by rw [hx]; ring
    rw [hadd, bytes, flatMap_cons, ← bytes, ih, setData_data, if_neg hxc, bytes, bytes,
      flatMap_cons, append_splice]

end Image

/-! ## A read -/

theorem IsChain.length_mul_lt {b : Bpb} {A : Image} {a : ℕ} {l : List ℕ} (hv : b.Valid)
    (h : IsChain b A a l) : l.length * b.clusterSize < 2 ^ 50 := by
  have h2 := h.length_le
  have h3 := b.numClusters_lt
  have h4 : b.sectorsPerCluster.toNat < 2 ^ 8 := b.sectorsPerCluster.toNat_lt
  have h5 : b.clusterSize ≤ 2 ^ 17 := by
    rw [hv.clusterSize_eq, SECTOR_SIZE]; omega
  have h6 : l.length ≤ 2 ^ 32 + 1 := by unfold Bpb.clusterEnd at h2; omega
  calc l.length * b.clusterSize ≤ (2 ^ 32 + 1) * 2 ^ 17 := Nat.mul_le_mul h6 h5
    _ < 2 ^ 50 := by norm_num

namespace Shows

variable {b : Bpb} {d : Dev} {A : Image}

theorem readLoop (h : Shows b d A) {a : ℕ} {l : List ℕ} (hl : IsChain b A a l) :
    ∀ {n k c off left : ℕ}, l[k]? = some c → k ≤ off / b.clusterSize → off + left ≤ l.length *
    b.clusterSize → left ≤ n → Fat32.readLoop b d n c k off left = .ok (slice (A.bytes l) off left)
  | 0, k, c, off, left, _, _, _, hn => by
    obtain rfl : left = 0 := by omega
    simp only [Fat32.readLoop, slice, take_zero]
    rfl
  | n + 1, k, c, off, left, hk, hko, hlen, hn => by
    have hcs := h.valid.clusterSize_pos
    have hbound := hl.length_mul_lt h.valid
    by_cases h0 : left = 0
    · subst h0
      simp only [Fat32.readLoop, if_true, slice, take_zero]
      rfl
    -- the cluster of the offset
    have hti : off / b.clusterSize < l.length := by
      rw [Nat.div_lt_iff_lt_mul hcs]; omega
    obtain ⟨c', hc'⟩ : ∃ c', l[off / b.clusterSize]? = some c' :=
      ⟨_, getElem?_eq_getElem hti⟩
    have hseek : seekWalk b d k (off / b.clusterSize) c = .ok c' := by
      unfold seekWalk
      split_ifs with hlt
      · refine h.clusterAtIndexWalk (hl.drop hk) ?_
        rw [getElem?_drop, Nat.add_sub_cancel' hko, hc']
      · obtain rfl : k = off / b.clusterSize := by omega
        rw [hk, Option.some.injEq] at hc'
        rw [hc']; rfl
    have hrange := hl.range c' (mem_of_getElem? hc')
    have hdiv := Nat.div_add_mod off b.clusterSize
    have hmod := Nat.mod_lt off hcs
    generalize hchunk : min (b.clusterSize - off % b.clusterSize) left = chunk
    have hmax : max k (off / b.clusterSize) = off / b.clusterSize := by omega
    have ih : Fat32.readLoop b d n c' (off / b.clusterSize) (off + chunk) (left - chunk) =
        .ok (slice (A.bytes l) (off + chunk) (left - chunk)) :=
      readLoop h hl hc' (Nat.div_le_div_right (by omega)) (by omega) (by omega)
    have hslice : slice (A.data c') (off % b.clusterSize) chunk = slice (A.bytes l) off chunk := by
      have h1 := A.slice_bytes (n := b.clusterSize) (j := off % b.clusterSize) (m := chunk)
        (fun x hx => h.length_data (hl.range x hx).1 (hl.range x hx).2) hc' (by omega)
      rw [← h1]; congr 1; rw [mul_comm]; omega
    simp only [Fat32.readLoop, if_neg h0, hseek, bind, Except.bind, hmax, h.readCluster hrange.1 hrange.2, hchunk]
    rw [wadd_eq (by omega), ih]
    simp only [hslice, pure, Except.pure]
    rw [slice_append_slice, Nat.add_sub_cancel' (by omega)]

/-- **`read_file`** returns the bytes of the chain from the offset on, up to the size. -/
theorem readFile (h : Shows b d A) {f : File} {l : List ℕ} (hl : Owns b A f.firstCluster l)
    (hsize : f.fileSize ≤ l.length * b.clusterSize) (off len : ℕ) : Fat32.readFile b f.firstCluster
    f.fileSize off len d = .ok (slice (A.bytes l) off (min len (f.fileSize - off))) := by
  have hcs := h.valid.clusterSize_pos
  unfold Owns at hl
  rw [Fat32.readFile]
  by_cases h0 : f.firstCluster < 2 ∨ f.fileSize ≤ off ∨ len = 0
  · rw [if_pos h0]
    have hz : min len (f.fileSize - off) = 0 := by
      rcases h0 with h0 | h0 | h0
      · rw [if_pos h0] at hl
        subst hl
        simp only [length_nil, zero_mul] at hsize; omega
      · omega
      · omega
    rw [hz, slice, take_zero]
    rfl
  · rw [if_neg h0]
    push Not at h0
    rw [if_neg (by omega)] at hl
    have hti : off / b.clusterSize < l.length := by
      rw [Nat.div_lt_iff_lt_mul hcs]; omega
    have hc : l[off / b.clusterSize]? = some l[off / b.clusterSize] := getElem?_eq_getElem hti
    simp only [h.clusterAtIndexWalk hl hc, bind, Except.bind]
    exact h.readLoop hl hc le_rfl (by omega) le_rfl

end Shows

/-! ## A write -/

/-- The chain `l` starts at `a` now and goes on through `news`, which were free; nothing else has changed. -/
structure Extends (b : Bpb) (A : Image) (l news : List ℕ) (a : ℕ) (A' : Image) : Prop where
  chain : IsChain b A' a (l ++ news)
  free : ∀ c ∈ news, A.fat c = 0
  fat : ∀ c, c ∉ l → c ∉ news → A'.fat c = A.fat c
  data : ∀ c, c ∉ l → c ∉ news → A'.data c = A.data c

namespace Extends

variable {b : Bpb} {A A' A'' : Image} {a t : ℕ} {l news news' : List ℕ}

theorem refl (hl : IsChain b A a l) : Extends b A l [] a A where
  chain := by rwa [append_nil]
  free := by simp
  fat := fun _ _ _ => rfl
  data := fun _ _ _ => rfl

theorem of_grown (hl : IsChain b A a l) (ht : l.getLast? = some t) (h : Grown b A t news A') :
    Extends b A l news a A' where
  chain := h.isChain hl ht
  free := h.free
  fat := by
    intro c hc hc'
    refine h.fat c ?_ hc'
    rintro rfl; exact hc (mem_of_getLast? ht)
  data := fun c _ hc' => h.data c hc'

theorem of_setData {c : ℕ} {x : List UInt8} (hl : IsChain b A a l) (hc : c ∈ l) :
    Extends b A l [] a (A.setData c x) where
  chain := by
    rw [append_nil]
    exact hl.congr fun _ _ => rfl
  free := by simp
  fat := fun _ _ _ => rfl
  data := by
    intro k hk _
    rw [Image.setData_data, if_neg]
    rintro rfl; exact hk hc

theorem trans (h : Extends b A l news a A') (h' : Extends b A' (l ++ news) news' a A'') :
    Extends b A l (news ++ news') a A'' where
  chain := by rw [← append_assoc]; exact h'.chain
  free := by
    intro c hc
    rcases mem_append.1 hc with hc | hc
    · exact h.free c hc
    · have h1 : c ∉ l ++ news := fun h2 => h.chain.not_free h2 (h'.free c hc)
      rw [mem_append, not_or] at h1
      rw [← h.fat c h1.1 h1.2]
      exact h'.free c hc
  fat := by
    intro c hc hc'
    rw [mem_append, not_or] at hc'
    rw [h'.fat c (by simp [hc, hc'.1]) hc'.2, h.fat c hc hc'.1]
  data := by
    intro c hc hc'
    rw [mem_append, not_or] at hc'
    rw [h'.data c (by simp [hc, hc'.1]) hc'.2, h.data c hc hc'.1]

theorem freeList {m : List ℕ} (h : Extends b A l news a A') (hl : ∀ c ∈ l, A.fat c ≠ 0)
    (hm : FreeList b A' m) : FreeList b A (news ++ m) := by
  have hmem : ∀ c ∈ l ++ news, A'.fat c ≠ 0 := fun c hc => h.chain.not_free hc
  refine hm.of_taken (nodup_append.1 h.chain.linked.nodup).2.1 (fun c hc => ?_) fun c hc => ?_
  · exact ⟨h.chain.range c (by simp [hc]), h.free c hc, hmem c (by simp [hc])⟩
  · by_cases hcl : c ∈ l
    · exact iff_of_false (hmem c (by simp [hcl])) (hl c hcl)
    · rw [h.fat c hcl hc]

end Extends

theorem Grown.bytes {b : Bpb} {A A' : Image} {a t : ℕ} {l news : List ℕ} (h : Grown b A t news A')
    (hl : IsChain b A a l) : A'.bytes (l ++ news) = A.bytes l ++ replicate (news.length * b.clusterSize) 0 := by
  have h1 : A'.bytes l = A.bytes l := Image.bytes_congr fun c hc => h.data c (h.notMem hl hc)
  have h2 : ∀ {m : List ℕ}, (∀ c ∈ m, A'.data c = replicate b.clusterSize 0) →
      A'.bytes m = replicate (m.length * b.clusterSize) 0 := by
    intro m
    induction m with
    | nil => simp [Image.bytes]
    | cons c m ih =>
      intro hm
      have ih := ih fun x hx => hm x (by simp [hx])
      simp only [Image.bytes, flatMap_cons, length_cons] at ih ⊢
      rw [ih, hm c (by simp), ← replicate_add, add_comm b.clusterSize, add_mul, one_mul]
  rw [Image.bytes, flatMap_append, ← Image.bytes, ← Image.bytes, h1, h2 h.zero]

/-- How many clusters a chain needs for `len` bytes at an offset. -/
def clustersFor (b : Bpb) (off len : ℕ) : ℕ :=
  if len = 0 then 0 else (off + len - 1) / b.clusterSize + 1

/-- A write that ended: the chain has the clusters it needs, and zeros behind the old bytes where the data is
not. -/
structure Wrote (b : Bpb) (v : Vol) (A : Image) (l : List ℕ) (a off : ℕ) (data : List UInt8)
    (w : Vol) (news : List ℕ) (A' : Image) : Prop where
  becomes : Becomes b v A' w
  extends_ : Extends b A l news a A'
  bytes : A'.bytes (l ++ news) = splice (A.bytes l ++ replicate (news.length * b.clusterSize) 0) off data
  count : news.length = clustersFor b off data.length - l.length
  fits : off + data.length ≤ (l.length + news.length) * b.clusterSize ∨ data = []

/-- A write that ran out of clusters: those it had appended before stay in the chain. -/
def RanOut (b : Bpb) (v : Vol) (A : Image) (l : List ℕ) (a need : ℕ) (e : Fault) (w : Vol) : Prop :=
  e = .err .oom ∧ ∃ news A', Becomes b v A' w ∧ Extends b A l news a A' ∧ A'.Full b ∧ news.length < need - l.length

namespace Shows

variable {b : Bpb} {v : Vol} {A : Image} {a c i off : ℕ} {l : List ℕ}

theorem seekExtend (h : Shows b v.dev A) (hb : b.Covers) (hf : b.Fits) {k : ℕ}
    (hl : IsChain b A a l) (hk : l[k]? = some c) (hki : k ≤ i) : wp (Fat32.seekExtend b k i c)
    (fun c' w => ∃ news A' t, l.getLast? = some t ∧ Becomes b v A' w ∧ Grown b A t news A' ∧
    (l ++ news)[i]? = some c' ∧ news.length = i + 1 - l.length) (RanOut b v A l a (i + 1)) v := by
  obtain ⟨t, ht⟩ := hl.exists_last
  have hkl : k < l.length := (List.getElem?_eq_some_iff.1 hk).1
  have htc := hl.range t (mem_of_getLast? ht)
  have heoc := Image.next_eq_none.1 (hl.linked.next_last ht)
  unfold Fat32.seekExtend
  split_ifs with hlt
  · have ht' : (l.drop k).getLast? = some t := by
      rw [getLast?_drop, if_neg (by omega), ht]
    refine (clusterAtIndexExtend hb hf (i - k) h (hl.drop hk) ht').mono ?_ ?_
    · rintro c' w ⟨news, A', hw, hg, hc', hlen⟩
      rw [length_drop] at hlen
      refine ⟨news, A', t, ht, hw, hg, ?_, by omega⟩
      rw [← drop_append_of_le_length hkl.le, getElem?_drop, Nat.add_sub_cancel' hki] at hc'
      exact hc'
    · rintro e w ⟨he, news, A', hw, hg, hfull, hlen⟩
      rw [length_drop] at hlen
      exact ⟨he, news, A', hw, .of_grown hl ht hg, hfull, by omega⟩
  · obtain rfl : k = i := by omega
    rw [wp_pure]
    refine ⟨[], A, t, ht, h.becomes, .refl htc heoc, by simpa using hk, ?_⟩
    simp only [length_nil]; omega

theorem putChunk (h : Shows b v.dev A) (hb : b.Covers) {j : ℕ}
    {chunk : List UInt8} (hl : IsChain b A a l) (hc : l[i]? = some c)
    (hj : j + chunk.length ≤ b.clusterSize) {f : FsM Unit} {Q : Unit → Vol → Prop}
    {E : Fault → Vol → Prop} (hf : ∀ w A', Becomes b v A' w → Extends b A l [] a A' →
    A'.bytes l = splice (A.bytes l) (i * b.clusterSize + j) chunk → wp f Q E w) :
    wp (readDev (readSectors · (clusterToLba b c) b.clusterSize) >>= fun buf => writeSectors
    (clusterToLba b c) (splice buf j chunk) >>= fun _ => f) Q E v := by
  have hmem : c ∈ l := mem_of_getElem? hc
  have hcl := hl.range c hmem
  have hdata := h.length_data hcl.1 hcl.2
  rw [wp_bind, wp_readDev (h.readCluster hcl.1 hcl.2)]
  refine (h.writeCluster hb hcl.1 hcl.2 ?_).seq ?_
  · rw [length_splice (by omega), hdata]
  · intro _ w hw
    refine hf w _ hw (.of_setData hl hmem) ?_
    exact Image.bytes_setData hl.linked.nodup (fun x hx => h.length_data (hl.range x hx).1 (hl.range x hx).2) hc hj

theorem clustersFor_next (hv : b.Valid) {len chunk : ℕ} (hlen : 0 < len)
    (hchunk : min (b.clusterSize - off % b.clusterSize) len = chunk) : clustersFor b off len = max
    (off / b.clusterSize + 1) (clustersFor b (off + chunk) (len - chunk)) := by
  have hcs := hv.clusterSize_pos
  have hdiv := Nat.div_add_mod off b.clusterSize
  have hmod := Nat.mod_lt off hcs
  rw [clustersFor, clustersFor, if_neg (by omega)]
  split_ifs with h0
  · have h1 : (off + len - 1) / b.clusterSize = off / b.clusterSize := by
      rw [mul_comm] at hdiv
      refine Nat.div_eq_of_lt_le ?_ ?_
      · omega
      · rw [add_mul, one_mul]; omega
    rw [h1, Nat.max_zero]
  · have h1 : off + chunk + (len - chunk) - 1 = off + len - 1 := by omega
    have h2 : off / b.clusterSize ≤ (off + len - 1) / b.clusterSize :=
      Nat.div_le_div_right (by omega)
    rw [h1]; omega

/-- **The loop of `write_file`.** -/
theorem writeLoop (hb : b.Covers) (hf : b.Fits) :
    ∀ {n : ℕ} {v : Vol} {A : Image} {a k c off : ℕ} {l : List ℕ} {data : List UInt8}, Shows b v.dev A → IsChain b A a
    l → l[k]? = some c → k ≤ off / b.clusterSize → data.length ≤ n → wp (Fat32.writeLoop b n c k off data)
    (fun _ w => ∃ news A', Wrote b v A l a off data w news A') (RanOut b v A l a (clustersFor b off data.length)) v
  | 0, v, A, a, k, c, off, l, data, h, hl, _, _, hn => by
    obtain rfl : data = [] := length_eq_zero_iff.1 (by omega)
    rw [Fat32.writeLoop, wp_pure]
    exact ⟨[], A, h.becomes, .refl hl, by simp [splice], by simp [clustersFor], .inr rfl⟩
  | n + 1, v, A, a, k, c, off, l, data, h, hl, hk, hki, hn => by
    have hcs := hb.valid.clusterSize_pos
    by_cases h0 : data = []
    · subst h0
      rw [Fat32.writeLoop, if_pos rfl, wp_pure]
      exact ⟨[], A, h.becomes, .refl hl, by simp [splice], by simp [clustersFor], .inr rfl⟩
    have hpos : 0 < data.length := length_pos_of_ne_nil h0
    have hdiv := Nat.div_add_mod off b.clusterSize
    have hmod := Nat.mod_lt off hcs
    generalize hchunk : min (b.clusterSize - off % b.clusterSize) data.length = chunk
    have hneed := clustersFor_next hb.valid hpos hchunk
    have htake : (data.take chunk).length = chunk := by rw [length_take]; omega
    rw [Fat32.writeLoop, if_neg h0]
    simp only [hchunk]
    rw [wp_bind]
    refine (h.seekExtend hb hf hl hk hki).mono ?_ ?_
    · rintro c' w ⟨news, A₁, t, ht, hw, hg, hc', hlen⟩
      have hl₁ := hg.isChain hl ht
      have hti : off / b.clusterSize < (l ++ news).length := (List.getElem?_eq_some_iff.1 hc').1
      have hbound := hl₁.length_mul_lt hb.valid
      have hfit : off + chunk ≤ (l ++ news).length * b.clusterSize := by
        have h1 : (off / b.clusterSize + 1) * b.clusterSize ≤ (l ++ news).length * b.clusterSize :=
          Nat.mul_le_mul_right _ hti
        rw [add_mul, one_mul, mul_comm] at h1; omega
      rw [max_eq_right hki, wadd_eq (by omega)]
      refine hw.image.putChunk hb hl₁ hc' (by omega) fun u A₂ hu he₂ hbytes => ?_
      rw [mul_comm, hdiv, hg.bytes hl] at hbytes
      have he : Extends b A l news a A₂ := by
        have h1 := (Extends.of_grown hl ht hg).trans he₂
        rwa [append_nil] at h1
      refine (writeLoop hb hf hu.image (by simpa using he₂.chain) hc'
        (Nat.div_le_div_right (by omega)) (by rw [length_drop]; omega)).mono ?_ ?_
      · rintro - x ⟨news₂, A₃, hx₃, he₃, hb₃, hc₃, hf₃⟩
        rw [length_drop] at hc₃ hf₃
        rw [length_append] at hc₃ hf₃
        refine ⟨news ++ news₂, A₃, (hw.trans hu).trans hx₃, he.trans he₃, ?_, ?_, ?_⟩
        · -- the first chunk and then the rest are the data
          have hroom : ∀ m, news.length ≤ m → off + (data.take chunk).length ≤
              (A.bytes l ++ replicate (m * b.clusterSize) (0 : UInt8)).length := by
            intro m hm
            rw [htake, length_append, h.length_bytes hl.range, length_replicate, ← add_mul]
            refine hfit.trans (Nat.mul_le_mul_right _ ?_)
            rw [length_append]; omega
          have h1 := splice_splice_next (e := data.drop chunk)
            (hroom (news ++ news₂).length (by rw [length_append]; omega))
          rw [htake, take_append_drop] at h1
          rw [← append_assoc, hb₃, hbytes, ← splice_append (hroom _ le_rfl), append_assoc,
            ← replicate_add, ← add_mul, ← length_append, h1]
        · rw [length_append, hc₃, hneed, hlen]; omega
        · left
          rw [length_append]
          rcases hf₃ with hf₃ | hf₃
          · rw [← add_assoc]; omega
          have h1 : data.length = chunk := by
            have := congrArg List.length hf₃
            rw [length_drop, length_nil] at this; omega
          have h2 : (l.length + news.length) * b.clusterSize ≤
              (l.length + (news.length + news₂.length)) * b.clusterSize :=
            Nat.mul_le_mul_right _ (by omega)
          rw [length_append] at hfit; omega
      · rintro e x ⟨he', news₂, A₃, hx₃, he₃, hfull, hlen₂⟩
        refine ⟨he', news ++ news₂, A₃, (hw.trans hu).trans hx₃, he.trans he₃, hfull, ?_⟩
        rw [length_drop, length_append] at hlen₂
        rw [length_append, hneed]; omega
    · rintro e w ⟨he, news, A', hw, hx, hfull, hlen⟩
      exact ⟨he, news, A', hw, hx, hfull, by omega⟩

theorem writeAt (h : Shows b v.dev A) (hb : b.Covers) (hf : b.Fits)
    {data : List UInt8} (hl : IsChain b A a l) (h0 : data ≠ []) :
    wp (Fat32.clusterAtIndexExtend b (off / b.clusterSize) a >>= fun c => Fat32.writeLoop b
    data.length c (off / b.clusterSize) off data) (fun _ w => ∃ news A', Wrote b v A l a off data w
    news A') (RanOut b v A l a (clustersFor b off data.length)) v := by
  have hseek : Fat32.clusterAtIndexExtend b (off / b.clusterSize) a =
      Fat32.seekExtend b 0 (off / b.clusterSize) a := by
    unfold Fat32.seekExtend
    split_ifs with h1
    · rfl
    · rw [Nat.eq_zero_of_not_pos h1]; rfl
  have hneed : off / b.clusterSize + 1 ≤ clustersFor b off data.length := by
    have h1 := length_pos_of_ne_nil h0
    rw [clustersFor, if_neg (by omega)]
    exact Nat.succ_le_succ (Nat.div_le_div_right (by omega))
  have hfirst : l[0]? = some a := by
    obtain ⟨s, rfl⟩ := hl.linked.exists_tail
    rfl
  rw [hseek, wp_bind]
  refine (h.seekExtend hb hf hl hfirst (Nat.zero_le _)).mono ?_ ?_
  · rintro c w ⟨news, A₁, t, ht, hw, hg, hc, hlen⟩
    have he := Extends.of_grown hl ht hg
    refine (writeLoop hb hf hw.image he.chain hc le_rfl le_rfl).mono ?_ ?_
    · rintro - x ⟨news₂, A₂, hx, he₂, hbytes, hcount, hfit⟩
      refine ⟨news ++ news₂, A₂, hw.trans hx, he.trans he₂, ?_, ?_, ?_⟩
      · rw [← append_assoc, hbytes, hg.bytes hl, append_assoc, ← replicate_add,
          ← add_mul, length_append]
      · rw [length_append] at hcount ⊢; omega
      · rwa [length_append, add_assoc, ← length_append] at hfit
    · rintro e x ⟨he', news₂, A₂, hx, he₂, hfull, hlt⟩
      refine ⟨he', news ++ news₂, A₂, hw.trans hx, he.trans he₂, hfull, ?_⟩
      rw [length_append] at hlt ⊢; omega
  · rintro e w ⟨he, news, A', hw, hx, hfull, hlt⟩
    exact ⟨he, news, A', hw, hx, hfull, by omega⟩

end Shows

/-- A write to a file that ended; the bytes `old` come with the first cluster of a file that had none. -/
structure FileWrote (b : Bpb) (v : Vol) (A : Image) (l : List ℕ) (f : File) (off : ℕ)
    (data : List UInt8) (f' : File) (w : Vol) (news : List ℕ) (A' : Image) (old : List UInt8) :
    Prop where
  becomes : Becomes b v A' w
  extends_ : Extends b A l news f'.firstCluster A'
  first : l ≠ [] → f'.firstCluster = f.firstCluster
  size : f'.fileSize = max f.fileSize (off + data.length)
  old_nil : l ≠ [] → old = []
  old_first : l = [] → old = A.data f'.firstCluster
  bytes : ∃ k, A'.bytes (l ++ news) = splice (A.bytes l ++ old ++ replicate k 0) off data ∧
    (A.bytes l ++ old ++ replicate k (0 : UInt8)).length = (l ++ news).length * b.clusterSize
  fits : off + data.length ≤ (l ++ news).length * b.clusterSize
  count : news.length = clustersFor b off data.length - l.length

/-- A write that ran out of clusters; a file that had none may have got some that its owner does not learn of. -/
def FileRanOut (b : Bpb) (v : Vol) (A : Image) (l : List ℕ) (f : File) (need : ℕ) (e : Fault) (w : Vol) : Prop :=
  e = .err .oom ∧ ∃ news A', Becomes b v A' w ∧ A'.Full b ∧ news.length < need - l.length ∧
    ((l = [] ∧ news = [] ∧ A' = A) ∨
      ∃ a, (l ≠ [] → a = f.firstCluster) ∧ Extends b A l news a A')

namespace Shows

variable {b : Bpb} {v : Vol} {A : Image} {l : List ℕ} {data : List UInt8}

theorem wsize {a off : ℕ} {A' : Image} {news : List ℕ} (hb : b.Covers)
    (he : Extends b A l news a A') (hfit : off + data.length ≤ (l.length + news.length) * b.clusterSize) (n : ℕ) :
    (if n < wadd off data.length then wadd off data.length else n) = max n (off + data.length) := by
  have h1 := he.chain.length_mul_lt hb.valid
  rw [length_append] at h1
  rw [wadd_eq (by omega)]
  split_ifs <;> omega

theorem writeFile (h : Shows b v.dev A) (hb : b.Covers) (hf : b.Fits) {f : File}
    (hl : Owns b A f.firstCluster l) (h0 : data ≠ []) (off : ℕ) :
    wp (Fat32.writeFile b f off data) (fun f' w => ∃ news A' old, FileWrote b v A l f off data f' w
    news A' old) (FileRanOut b v A l f (clustersFor b off data.length)) v := by
  unfold Owns at hl
  rw [Fat32.writeFile, if_neg h0, wp_bind, firstOrAlloc]
  split_ifs at hl ⊢ with hfirst
  · subst hl
    refine (h.allocClusterRaw hb).mono ?_ ?_
    · rintro c w ⟨hc, hfree, hw⟩
      have hch : IsChain b (A.setFat c EOC) c [c] := by
        refine ⟨.last ?_, by simpa using hc⟩
        rw [Image.next_eq_none, Image.setFat_fat, if_pos rfl]
        rfl
      have he : Extends b A [] [c] c (A.setFat c EOC) := by
        refine ⟨hch, by simpa using hfree, ?_, fun _ _ _ => rfl⟩
        intro k _ hk
        rw [mem_singleton] at hk
        rw [Image.setFat_fat, if_neg hk]
      have hold : (A.setFat c EOC).bytes [c] = A.data c := by
        simp only [Image.bytes, flatMap_cons, flatMap_nil, append_nil, Image.setFat_data]
      refine wp_bind_assoc.2 ((hw.image.writeAt hb hf hch h0).seq' ?_ ?_)
      · rintro - x ⟨news, A', hx, he', hbytes, hcount, hfit⟩
        replace hfit := hfit.resolve_right h0
        rw [wp_pure]
        refine ⟨c :: news, A', A.data c, hw.trans hx, he.trans he', by simp,
          wsize hb he' hfit _, by simp, fun _ => rfl, ?_, ?_, ?_⟩
        · refine ⟨news.length * b.clusterSize, ?_, ?_⟩
          · rw [hold] at hbytes
            exact hbytes
          · simp only [Image.bytes, flatMap_nil, nil_append, length_append,
              length_replicate, length_cons, h.length_data hc.1 hc.2]
            ring
        · simp only [nil_append, length_cons, length_nil] at hfit ⊢
          rwa [zero_add, add_comm 1] at hfit
        · have h1 := length_pos_of_ne_nil h0
          have h2 : 0 < clustersFor b off data.length := by
            rw [clustersFor, if_neg (by omega)]; exact Nat.succ_pos _
          simp only [length_cons, length_nil] at hcount ⊢; omega
      · rintro e x ⟨he', news, A', hx, hx', hfull, hlt⟩
        refine ⟨he', c :: news, A', hw.trans hx, hfull, ?_, .inr ⟨c, by simp, he.trans hx'⟩⟩
        simp only [length_cons, length_nil] at hlt ⊢; omega
    · rintro e w ⟨he, hw, hfull⟩
      refine ⟨he, [], A, hw, hfull, ?_, .inl ⟨rfl, rfl, rfl⟩⟩
      have h1 := length_pos_of_ne_nil h0
      rw [clustersFor, if_neg (by omega)]
      simp
  · have hne : l ≠ [] := hl.linked.ne_nil
    rw [wp_pure]
    refine wp_bind_assoc.2 ((h.writeAt hb hf hl h0).seq' ?_ ?_)
    · rintro - x ⟨news, A', hx, he, hbytes, hcount, hfit⟩
      replace hfit := hfit.resolve_right h0
      rw [wp_pure]
      refine ⟨news, A', [], hx, he, fun _ => rfl, wsize hb he hfit _, fun _ => rfl, fun h => absurd h hne,
        ⟨news.length * b.clusterSize, by rw [append_nil]; exact hbytes, ?_⟩, ?_, hcount⟩
      · rw [append_nil, length_append, h.length_bytes hl.range, length_replicate,
          length_append, add_mul]
      · rwa [length_append]
    · rintro e x ⟨he, news, A', hx, hx', hfull, hlt⟩
      exact ⟨he, news, A', hx, hfull, hlt, .inr ⟨_, fun _ => rfl, hx'⟩⟩

end Shows

end Archis.Fat32
