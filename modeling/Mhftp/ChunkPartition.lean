import Mathlib.Data.Int.ConditionallyCompleteOrder
import Mathlib.Data.Rat.Floor
import Mathlib.Order.CompletePartialOrder
import Mathlib.Order.Interval.Set.Basic
import Mathlib.Tactic.Linarith
import Mhftp.Library.Tiling
import Mhftp.TableLoops

/-! # The chunks of a file are a partition of it

The client cuts a file into the sizes that `initControlData` sets, the server and the upload
worker into those of `getPayLoadArray`.  They are the same, and the ranges of the chunks
tile the file (`chunks_partition`).

`StoreMetadata` takes the size of the file a second time, after the MD5 pass of `create`.
What it stores is consistent exactly if both sizes make the same number of chunks, and not
more than `tableEntries` (`stored_consistent_iff`).
-/

namespace Mhftp
open Library

/-- The bytes of chunk `i`, if it has `size` of them. -/
def chunkRange (chunkSize : Int) (i : Nat) (size : Int) : Set Int :=
  Set.Ico (i * chunkSize) (i * chunkSize + size)

/-- Sizes of chunks that cut a file into pieces: none is empty or too long, and their ranges
are disjoint and cover the file. -/
structure Partition (fileSize chunkSize : Int) (sizes : List Int) : Prop where
  bounds : ∀ size ∈ sizes, 1 ≤ size ∧ size ≤ chunkSize
  disjoint : ∀ (i j : Nat) (a b : Int), sizes[i]? = some a → sizes[j]? = some b → i ≠ j →
    Disjoint (chunkRange chunkSize i a) (chunkRange chunkSize j b)
  cover : ∀ x, (∃ (i : Nat) (a : Int), sizes[i]? = some a ∧ x ∈ chunkRange chunkSize i a) ↔
    x ∈ Set.Ico 0 fileSize
  sum : sizes.sum = fileSize

section Partition
variable {fileSize chunkSize : Int}

/-- Sizes whose ranges tile the file. -/
theorem partition_of_tiles {sizes : List Int}
    (hbounds : ∀ size ∈ sizes, 1 ≤ size ∧ size ≤ chunkSize)
    (htiles : Tiles 0 fileSize (sizes.mapIdx fun i size => ((i : Int) * chunkSize, size))) :
    Partition fileSize chunkSize sizes where
  bounds := hbounds
  disjoint := by
    intro i j a b hi hj hij
    -- one of the two chunks is in front of the other
    wlog hlt : i < j generalizing i j a b
    · exact (this j i b a hj hi (Ne.symm hij) (by omega)).symm
    obtain ⟨hi', rfl⟩ := List.getElem?_eq_some_iff.mp hi
    obtain ⟨hj', rfl⟩ := List.getElem?_eq_some_iff.mp hj
    have hle := List.pairwise_iff_getElem.mp htiles.pairwise i j (by simpa using hi')
      (by simpa using hj') hlt
    rw [List.getElem_mapIdx, List.getElem_mapIdx] at hle
    exact Set.disjoint_left.mpr fun x hx hx' => by
      have := hx.2
      have := hx'.1
      omega
  cover := by
    intro x
    have hcover := htiles.cover (x := x)
    rw [Set.mem_Ico, ← hcover]
    constructor
    · rintro ⟨i, a, hi, hx⟩
      refine ⟨((i : Int) * chunkSize, a), List.mem_iff_getElem?.mpr ⟨i, ?_⟩, hx⟩
      rw [List.getElem?_mapIdx, hi]
      rfl
    · rintro ⟨r, hr, hx⟩
      obtain ⟨i, hi⟩ := List.mem_iff_getElem?.mp hr
      rw [List.getElem?_mapIdx] at hi
      obtain ⟨a, ha, rfl⟩ := Option.map_eq_some_iff.mp hi
      exact ⟨i, a, ha, hx⟩
  sum := by
    have hsame : (sizes.mapIdx fun i size => ((i : Int) * chunkSize, size)).map Prod.snd =
        sizes := by
      apply List.ext_getElem?
      intro i
      rw [List.getElem?_map, List.getElem?_mapIdx, Option.map_map]
      exact Option.map_id'
    have hsum := htiles.sum
    rw [hsame, zero_add] at hsum
    exact hsum

/-- The chunks follow each other; the place behind the last one is the end of the file. -/
theorem tiles_payLoad (hf : 0 ≤ fileSize ∧ fileSize < 2 ^ 63) (hc : 1 ≤ chunkSize) {n : Nat}
    (hn : chunkCount fileSize chunkSize = n) :
    Tiles 0 fileSize ((List.range n).map fun i : Nat =>
      (min ((i : Int) * chunkSize) fileSize, payLoad fileSize chunkSize i)) := by
  have htiles := Tiles.of_range (fun i : Nat => min ((i : Int) * chunkSize) fileSize)
    (payLoad fileSize chunkSize) (n := n) (fun i hi => ?_) (fun i hi => ?_)
  · have hstart : min (((0 : Nat) : Int) * chunkSize) fileSize = 0 := by
      rw [Int.natCast_zero, Int.zero_mul]
      exact min_eq_left hf.1
    have hstop : min ((n : Int) * chunkSize) fileSize = fileSize := by
      have hend : fileSize ≤ chunkSize * chunkCount fileSize chunkSize := le_chunkCount_mul hc
      rw [hn, mul_comm] at hend
      exact min_eq_right hend
    rwa [hstart, hstop] at htiles
  · obtain ⟨hlt, hsize⟩ := payLoad_place hf hc (i := i) (by omega)
    rw [hsize]
    omega
  · obtain ⟨hlt, hsize⟩ := payLoad_place hf hc (i := i) (by omega)
    have hnext : ((i + 1 : Nat) : Int) * chunkSize = i * chunkSize + chunkSize := by
      push_cast
      ring
    show min ((i : Int) * chunkSize) fileSize + payLoad fileSize chunkSize i =
      min (((i + 1 : Nat) : Int) * chunkSize) fileSize
    rw [hsize, hnext, min_eq_left hlt.le]
    omega

/-- **The sizes that the code computes are those of a partition.** -/
theorem partition_getPayLoadArray (hf : 0 ≤ fileSize ∧ fileSize < 2 ^ 63) (hc : 1 ≤ chunkSize) :
    Partition fileSize chunkSize
      (getPayLoadArray fileSize chunkSize (chunkCount fileSize chunkSize)) := by
  obtain ⟨n, hn⟩ := Int.eq_ofNat_of_zero_le (chunkCount_nonneg hf.1 hc)
  refine partition_of_tiles (fun size hmem => ?_) ?_
  · obtain ⟨i, hi, rfl⟩ := List.mem_map.mp hmem
    rw [List.mem_range] at hi
    obtain ⟨hlt, hsize⟩ := payLoad_place hf hc (i := i) (by omega)
    rw [hsize]
    omega
  · have hlist : (getPayLoadArray fileSize chunkSize (chunkCount fileSize chunkSize)).mapIdx
        (fun i size => ((i : Int) * chunkSize, size)) = (List.range n).map fun i : Nat =>
          (min ((i : Int) * chunkSize) fileSize, payLoad fileSize chunkSize i) := by
      apply List.ext_getElem?
      intro i
      rw [getPayLoadArray, hn, Int.toNat_natCast, List.getElem?_mapIdx, List.getElem?_map,
        List.getElem?_map]
      by_cases hi : i < n
      · obtain ⟨hlt, -⟩ := payLoad_place hf hc (i := i) (by omega)
        rw [List.getElem?_range hi, Option.map_some, Option.map_some, Option.map_some,
          min_eq_left hlt.le]
      · rw [List.getElem?_eq_none (by simpa using hi)]
        rfl
    rw [hlist]
    exact tiles_payLoad hf hc hn

end Partition

/-- **Chunks partition the file, on both sides in the same way.**  The loops of
`initControlData` and `getPayLoadArray` come to their ends with the same sizes, whatever
memory the array had before, and these cut the file into pieces. -/
theorem chunks_partition {h : Header} (hf : 0 ≤ h.fileSize ∧ h.fileSize < 2 ^ 63)
    (hc : 1 ≤ h.chunkSize) (hcount : h.chunks = chunkCount h.fileSize h.chunkSize)
    (hn : h.chunks < 2 ^ 31) (junk : Nat → Int) :
    ∃ chunkInfo payLoadArray, initControlDataLoop h = .done chunkInfo ∧
      getPayLoadArrayLoop junk h.fileSize h.chunkSize h.chunks = .done payLoadArray ∧
      chunkInfo.map ChunkInfo.size = payLoadArray ∧
      (payLoadArray.length : Int) = h.chunks ∧
      Partition h.fileSize h.chunkSize payLoadArray := by
  have hnonneg : 0 ≤ h.chunks := hcount ▸ chunkCount_nonneg hf.1 hc
  refine ⟨_, _, initControlDataLoop_eq hn hnonneg, getPayLoadArrayLoop_eq junk hn hnonneg, ?_, ?_,
    ?_⟩
  · rw [initControlData, List.map_map]
    rfl
  · rw [getPayLoadArray, List.length_map, List.length_range, Int.toNat_of_nonneg hnonneg]
  · rw [hcount]
    exact partition_getPayLoadArray hf hc

theorem chunks_partition_sample :
    ∃ chunkInfo payLoadArray, initControlDataLoop sampleHeader = .done chunkInfo ∧
      getPayLoadArrayLoop (fun _ => 7) 3 2 2 = .done payLoadArray ∧
      chunkInfo.map ChunkInfo.size = payLoadArray ∧ (payLoadArray.length : Int) = 2 ∧
      Partition 3 2 payLoadArray :=
  chunks_partition (h := sampleHeader) (by decide) (by decide) (by decide) (by decide) _

/-! ### A file that changes while its metadata is created -/

/-- The .mdata file that `create` makes with save: `fstat` says `s₁` in `create` and `stat`
says `s₂` in `StoreMetadata`, and between them the MD5 pass has come to `digest`. -/
def createAndStore (digest : Digest) (fileFull : FName) (fileName : Path) (s₁ s₂ chunkSize : Int)
    (file : List UInt8) : List UInt8 :=
  let chunks := chunkCount s₁ chunkSize
  storeMetadata ⟨digest, s₁, fileFull, chunkSize, chunks⟩ 0 fileName s₂ chunkSize chunks file

/-- A header with a table that need not be all of it. -/
structure StoredMetadata where
  header : Header
  chunkInfo : List ChunkInfo

namespace StoredMetadata

/-- The file with it, and with in_use 0. -/
def write (m : StoredMetadata) (file : List UInt8) : List UInt8 :=
  pwriteAll file 0 (headerFields m.header.fileFull m.header.fileSize m.header.chunkSize
    m.header.chunks m.header.digest 0 ++ [tableBytes m.chunkInfo])

/-- The number of the chunks and their sizes are those of the file size. -/
structure Consistent (m : StoredMetadata) : Prop where
  chunks : m.header.chunks = ⌈(m.header.fileSize : ℚ) / m.header.chunkSize⌉
  bounds : ∀ c ∈ m.chunkInfo, 1 ≤ c.size ∧ c.size ≤ m.header.chunkSize
  sum : (m.chunkInfo.map ChunkInfo.size).sum = m.header.fileSize

end StoredMetadata

/-- What that file holds: the front of a new table, or none where `initControlData` has ended
the process. -/
def createdAndStored (digest : Digest) (fileFull : FName) (fileName : Path)
    (s₁ s₂ chunkSize : Int) : StoredMetadata :=
  let h := storedHeader ⟨digest, s₁, fileFull, chunkSize, chunkCount s₁ chunkSize⟩ fileName s₂
  ⟨h, if h.NoTable then [] else (initControlData h).take tableEntries⟩

section Stored
variable {fileSize chunkSize s₁ s₂ : Int}

/-- `create` rounds up. -/
theorem chunkCount_eq_ceil (hf : 0 ≤ fileSize) (hc : 1 ≤ chunkSize) :
    chunkCount fileSize chunkSize = ⌈(fileSize : ℚ) / chunkSize⌉ := by
  have hpos : (0 : ℚ) < chunkSize := by exact_mod_cast (by omega : 0 < chunkSize)
  obtain ⟨n, hn⟩ := Int.eq_ofNat_of_zero_le (chunkCount_nonneg hf hc)
  symm
  rw [hn, Int.ceil_eq_iff]
  constructor
  · -- the last chunk starts inside the file
    cases n with
    | zero =>
      have : (0 : ℚ) ≤ fileSize / chunkSize := div_nonneg (by exact_mod_cast hf) hpos.le
      push_cast
      linarith
    | succ k =>
      have hlt := mul_lt_of_lt_chunkCount hf hc (i := k) (by omega)
      have hlt : (k : ℚ) * chunkSize < fileSize := by
        rw [mul_comm]
        exact_mod_cast hlt
      have := (lt_div_iff₀ hpos).mpr hlt
      push_cast
      linarith
  · have hle := (chunkCount_le_iff hf hc n).mp hn.le
    refine (div_le_iff₀ hpos).mpr ?_
    rw [mul_comm]
    exact_mod_cast hle

/-- One `write` moves the front of the table. -/
theorem writeControlData_eq (h : Header) : writeControlData h =
    tableBytes (if h.NoTable then [] else (initControlData h).take tableEntries) := by
  unfold writeControlData
  split
  · rfl
  · rw [← chunkInfoSize_mul_tableEntries, tableBytes, take_flatMap ChunkInfo.length_bytes]
    rfl

theorem createAndStore_eq (digest : Digest) (fileFull : FName) (fileName : Path)
    (file : List UInt8) : createAndStore digest fileFull fileName s₁ s₂ chunkSize file =
      (createdAndStored digest fileFull fileName s₁ s₂ chunkSize).write file := by
  simp only [createAndStore, storeMetadata, writeControlData_eq]
  rfl

/-- Some chunks are not all of the file. -/
theorem Partition.sum_take_lt {sizes : List Int} (h : Partition fileSize chunkSize sizes) {n : Nat}
    (hn : n < sizes.length) : (sizes.take n).sum < fileSize := by
  have hsum : (sizes.take n).sum + (sizes.drop n).sum = fileSize := by
    rw [← List.sum_append, List.take_append_drop, h.sum]
  have hpos : 0 < (sizes.drop n).sum := by
    refine List.sum_pos _ (fun size hmem => ?_) (by simpa using hn)
    have := h.bounds size (List.mem_of_mem_drop hmem)
    omega
  omega

theorem consistent_createdAndStored_iff (hs₁ : 0 ≤ s₁) (hs₂ : 0 ≤ s₂ ∧ s₂ < 2 ^ 63)
    (hc : 1 ≤ chunkSize) (digest : Digest) (fileFull : FName) (fileName : Path) :
    (createdAndStored digest fileFull fileName s₁ s₂ chunkSize).Consistent ↔
      chunkCount s₁ chunkSize = chunkCount s₂ chunkSize ∧
        chunkCount s₁ chunkSize ≤ tableEntries := by
  have hnonneg := chunkCount_nonneg hs₁ hc
  have hpartition := partition_getPayLoadArray hs₂ hc
  have hentries := tableEntries_eq
  have hsizes (hn : chunkCount s₁ chunkSize < 2 ^ 31) :
      (createdAndStored digest fileFull fileName s₁ s₂ chunkSize).chunkInfo.map ChunkInfo.size =
        (getPayLoadArray s₂ chunkSize (chunkCount s₁ chunkSize)).take tableEntries := by
    simp only [createdAndStored]
    rw [if_neg (Header.not_noTable hnonneg hn), List.map_take, initControlData, List.map_map]
    rfl
  have hlength : (getPayLoadArray s₂ chunkSize (chunkCount s₁ chunkSize)).length =
      (chunkCount s₁ chunkSize).toNat := by
    rw [getPayLoadArray, List.length_map, List.length_range]
  constructor
  · intro h
    have hsame : chunkCount s₁ chunkSize = chunkCount s₂ chunkSize :=
      h.chunks.trans (chunkCount_eq_ceil hs₂.1 hc).symm
    refine ⟨hsame, ?_⟩
    by_contra hlt
    have hsum := h.sum
    by_cases hn : chunkCount s₁ chunkSize < 2 ^ 31
    · -- the entries behind the front are missing
      rw [hsizes hn, hsame] at hsum
      rw [hsame] at hlength
      exact absurd hsum (hpartition.sum_take_lt (by omega)).ne
    · -- the process has died in front of the table
      have hnil : (createdAndStored digest fileFull fileName s₁ s₂ chunkSize).chunkInfo = [] :=
        if_pos (.inr (not_lt.mp hn))
      rw [hnil] at hsum
      have hzero : s₂ = 0 := hsum.symm
      rw [hsame, hzero] at hn
      exact hn (by simp [chunkCount])
  · rintro ⟨hsame, hle⟩
    have hsizes := hsizes (by omega)
    rw [List.take_of_length_le (by omega), hsame] at hsizes
    rw [← hsizes] at hpartition
    exact ⟨hsame.trans (chunkCount_eq_ceil hs₂.1 hc),
      fun c hmem => hpartition.bounds _ (List.mem_map_of_mem hmem), hpartition.sum⟩

/-- **When what `create` stores is consistent**: the two sizes make the same number of chunks,
and one `write` moves the entries of so many. -/
theorem stored_consistent_iff (hs₁ : 0 ≤ s₁) (hs₂ : 0 ≤ s₂ ∧ s₂ < 2 ^ 63) (hc : 1 ≤ chunkSize)
    (digest : Digest) (fileFull : FName) (fileName : Path) (file : List UInt8) :
    createAndStore digest fileFull fileName s₁ s₂ chunkSize file =
        (createdAndStored digest fileFull fileName s₁ s₂ chunkSize).write file ∧
      ((createdAndStored digest fileFull fileName s₁ s₂ chunkSize).Consistent ↔
        chunkCount s₁ chunkSize = chunkCount s₂ chunkSize ∧
          chunkCount s₁ chunkSize ≤ tableEntries) :=
  ⟨createAndStore_eq _ _ _ _, consistent_createdAndStored_iff hs₁ hs₂ hc _ _ _⟩

end Stored

/-- The file grows by a byte inside its last chunk. -/
theorem stored_consistent_sample :
    (createdAndStored (Buffer.zero _) (Buffer.zero _) [97] 3 4 2).Consistent :=
  (stored_consistent_iff (by decide) (by decide) (by decide) _ _ _ []).2.mpr
    ⟨by decide, by rw [tableEntries_eq]; decide⟩

/-- It grows by a chunk: one chunk of one byte is stored for a file of two. -/
theorem stored_consistent_fails :
    ¬ (createdAndStored (Buffer.zero _) (Buffer.zero _) [97] 1 2 1).Consistent := by
  intro h
  have hsame := ((consistent_createdAndStored_iff (by decide) (by decide) (by decide) _ _ _).mp h).1
  revert hsame
  decide

end Mhftp
