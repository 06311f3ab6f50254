import Mhftp.Library.IntLoop
import Mhftp.MetadataCut

/-! # The loops over the chunk table

`initControlData`, `getPayLoadArray` and `getNextPendingChunk` count their turns in an int,
and the number of chunks is an int64_t.  Below 2^31 chunks they come to every entry, and
leave what `initControlData`, `getPayLoadArray` and `Metadata.getNextPendingChunk` say.

The size of the table in bytes is an int in `LoadMetadata` and an int64_t everywhere else.
The two agree below 2^26 chunks, and what is saved is loaded back in full exactly up to
`tableEntries` chunks, which are a few less (`table_arithmetic_iff`).
-/

namespace Mhftp
open Library

/-! ### The loops -/

/-- The loop of `initControlData`, over a table that was cleared. -/
def initControlDataLoop (h : Header) : LoopEnd (List ChunkInfo) Empty :=
  intLoop h.chunks (fun i chunkInfo =>
      let remain := int64 (h.fileSize - h.chunkSize * i)
      let size := if remain ≥ h.chunkSize then h.chunkSize else remain
      .ok (chunkInfo.modify i.toNat fun c => { c with status := .chPending, size }))
    0 ((List.range h.chunks.toNat).map fun _ => clearedEntry)

/-- The loop of `getPayLoadArray`, over an array that holds anything. -/
def getPayLoadArrayLoop (junk : Nat → Int) (fileSize chunkSize nChunks : Int) :
    LoopEnd (List Int) Empty :=
  intLoop nChunks (fun i payLoadArray =>
      let remain := int64 (fileSize - chunkSize * i)
      .ok (payLoadArray.set i.toNat (if remain ≥ chunkSize then chunkSize else remain)))
    0 ((List.range nChunks.toNat).map junk)

/-- The loop of `getNextPendingChunk`; where it ends the result is -1. -/
def getNextPendingChunkLoop (m : Metadata) : LoopEnd Unit Int :=
  intLoop m.chunks (fun i _ =>
      match m.chunkInfo[i.toNat]? with
      | some c => if Metadata.claimable c then .error i else .ok ()
      | none => .ok ())
    0 ()

section Loops
variable {h : Header} {fileSize chunkSize nChunks : Int}

theorem initControlDataLoop_eq (hn : h.chunks < 2 ^ 31) (hc : 0 ≤ h.chunks) :
    initControlDataLoop h = .done (initControlData h) := by
  obtain ⟨n, hchunks⟩ := Int.eq_ofNat_of_zero_le hc
  unfold initControlDataLoop
  rw [hchunks] at hn ⊢
  rw [Int.toNat_natCast, intLoop_modify (by omega) (fun i t => rfl), initControlData, hchunks,
    Int.toNat_natCast]
  rfl

theorem getPayLoadArrayLoop_eq (junk : Nat → Int) (hn : nChunks < 2 ^ 31) (hc : 0 ≤ nChunks) :
    getPayLoadArrayLoop junk fileSize chunkSize nChunks =
      .done (getPayLoadArray fileSize chunkSize nChunks) := by
  obtain ⟨n, rfl⟩ := Int.eq_ofNat_of_zero_le hc
  unfold getPayLoadArrayLoop getPayLoadArray
  rw [Int.toNat_natCast, intLoop_modify (f := fun i _ => payLoad fileSize chunkSize i) (by omega)]
  exact fun i t => congrArg Except.ok (List.set_eq_modify _ _ _)

/-- The loop finds the first claimable chunk. -/
theorem getNextPendingChunkLoop_eq {m : Metadata} (hn : m.chunks < 2 ^ 31) :
    getNextPendingChunkLoop m =
      match m.getNextPendingChunk with
      | some k => .returned k
      | none => .done () := by
  have hlen : m.chunkInfo.length < 2 ^ 31 := by
    unfold Metadata.chunks at hn
    omega
  -- no chunk in front of `i` is claimable
  have hspec := intLoop_spec hlen
    (fun (i : Int) (_ : Unit) =>
      match m.chunkInfo[i.toNat]? with
      | some c => if Metadata.claimable c then Except.error i else .ok ()
      | none => .ok ())
    (I := fun i _ => ∀ j < i, ∀ c, m.chunkInfo[j]? = some c → Metadata.claimable c = false)
    (Q := fun i r => r = i ∧ m.getNextPendingChunk = some i)
    (fun i s hi hs => ?_) (Nat.zero_le _) (s := ()) (by simp)
  · rw [Int.natCast_zero] at hspec
    rcases hspec with ⟨_, hend, hnone⟩ | ⟨k, r, _, hend, rfl, hk⟩
    · have hnone : m.getNextPendingChunk = none := by
        rw [Metadata.getNextPendingChunk, List.findIdx?_eq_none_iff]
        intro c hc
        obtain ⟨j, hj⟩ := List.getElem?_of_mem hc
        exact hnone j (List.getElem?_eq_some_iff.mp hj).1 c hj
      rw [hnone]
      exact hend
    · rw [hk]
      exact hend
  · have hc : m.chunkInfo[i]? = some m.chunkInfo[i] := List.getElem?_eq_getElem hi
    simp only [Int.toNat_natCast, hc]
    by_cases hclaim : Metadata.claimable m.chunkInfo[i] = true
    · rw [if_pos hclaim]
      refine Or.inr ⟨_, rfl, rfl, ?_⟩
      rw [Metadata.getNextPendingChunk, List.findIdx?_eq_some_iff_getElem]
      refine ⟨hi, hclaim, fun j hj => ?_⟩
      rw [hs j hj _ (List.getElem?_eq_getElem (by omega))]
      decide
    · rw [if_neg hclaim]
      refine Or.inl ⟨_, rfl, fun j hj c hj' => ?_⟩
      by_cases hji : j = i
      · subst hji
        rw [hc] at hj'
        obtain rfl := Option.some.inj hj'
        exact Bool.eq_false_iff.mpr hclaim
      · exact hs j (by omega) c hj'

end Loops

/-! ### The size of the table -/

/-- The size of a table as `SaveMetadata`, `UpdateControlData`, `writeControlData` and
`initControlData` compute it. -/
def chunkArraySize64 (chunks : Int) : Int := int64 (chunkInfoSize * chunks)

/-- The arithmetic over the table of a file is exact: its size in bytes is the same in an int
and in an int64_t, the loops come to each of its entries, and the table is loaded back. -/
structure TableArithmetic (fileSize chunkSize chunks : Int) : Prop where
  load : chunkArraySize chunks = chunkInfoSize * chunks
  save : chunkArraySize64 chunks = chunkInfoSize * chunks
  initControlData : ∀ h : Header, h.fileSize = fileSize → h.chunkSize = chunkSize →
    h.chunks = chunks → initControlDataLoop h = .done (initControlData h)
  getPayLoadArray : ∀ junk, getPayLoadArrayLoop junk fileSize chunkSize chunks =
    .done (getPayLoadArray fileSize chunkSize chunks)
  getNextPendingChunk : ∀ m : Metadata, m.chunks = chunks → getNextPendingChunkLoop m =
    match m.getNextPendingChunk with
    | some k => .returned k
    | none => .done ()
  reload : ∀ m : Metadata, m.chunks = chunks → m.header.InRange →
    (∀ c ∈ m.chunkInfo, -2 ^ 63 ≤ c.size ∧ c.size < 2 ^ 63) →
    ∀ obj file, loadMetadata obj (m.saveMetadata file) = some m.loaded

section Size
variable {fileSize chunkSize : Int}

theorem chunkCount_le_iff (hf : 0 ≤ fileSize) (hc : 1 ≤ chunkSize) (n : Nat) :
    chunkCount fileSize chunkSize ≤ n ↔ fileSize ≤ chunkSize * n := by
  constructor
  · intro hle
    have hmul := Int.mul_le_mul_of_nonneg_left hle (show 0 ≤ chunkSize by omega)
    exact (le_chunkCount_mul hc).trans hmul
  · intro hle
    by_contra hlt
    have := mul_lt_of_lt_chunkCount hf hc (not_le.mp hlt)
    omega

/-- **When the arithmetic over a table is exact**: for files of not more chunks than one `write`
moves the entries of. -/
theorem table_arithmetic_iff (hf : 0 ≤ fileSize) (hc : 1 ≤ chunkSize) :
    TableArithmetic fileSize chunkSize (chunkCount fileSize chunkSize) ↔
      fileSize ≤ chunkSize * tableEntries := by
  have hnonneg := chunkCount_nonneg hf hc
  have hcount := chunkCount_le_iff hf hc tableEntries
  have hentries := tableEntries_eq
  rw [← hcount]
  constructor
  · intro h
    -- an int is smaller than 2^31
    have hlt := Int.bmod_lt (x := chunkInfoSize * chunkCount fileSize chunkSize) (m := 2 ^ 32)
      (by decide)
    have hload := h.load
    unfold chunkArraySize at hload
    unfold chunkInfoSize at hload hlt
    generalize chunkCount fileSize chunkSize = chunks at *
    -- and a new table is loaded back only if all of it is moved
    let header : Header := ⟨Buffer.zero _, 0, Buffer.zero _, 1, chunks⟩
    have hrange : header.InRange := by constructor <;> dsimp only [header] <;> omega
    have htable : 32 * header.chunks < 2 ^ 31 := by dsimp only [header]; omega
    have hfits : (header.fresh 0).Fits := fits_fresh hrange hnonneg htable
    have hchunks : (header.fresh 0).chunks = chunks :=
      congrArg Header.chunks (Header.fresh_header (h := header) hnonneg)
    exact (loadMetadata_fresh_iff hrange hnonneg htable).mp
      (h.reload _ hchunks hfits.header hfits.sizes sampleMetadata.loaded [])
  · intro hle
    have hlt : chunkInfoSize * chunkCount fileSize chunkSize < 2 ^ 31 := by
      unfold chunkInfoSize
      omega
    refine ⟨chunkArraySize_of_lt hnonneg hlt, ?_, fun h _ _ hh => ?_, fun junk => ?_,
      fun m hm => ?_, fun m hm hr hsizes obj file => ?_⟩
    · exact int64_of_range (by unfold chunkInfoSize; omega)
    · exact initControlDataLoop_eq (by omega) (by omega)
    · exact getPayLoadArrayLoop_eq junk (by omega) hnonneg
    · exact getNextPendingChunkLoop_eq (by omega)
    · exact loadMetadata_saveMetadata_of_le ⟨hr, hsizes, by rw [hm]; exact hlt⟩ (hm ▸ hle)

end Size

/-- 10^6 bytes in chunks of one byte. -/
theorem table_arithmetic_sample : TableArithmetic 1000000 1 (chunkCount 1000000 1) :=
  (table_arithmetic_iff (by decide) (by decide)).mpr (by rw [tableEntries_eq]; decide)

/-- A file of 64 MB in chunks of one byte: `LoadMetadata` comes to a negative size. -/
theorem table_arithmetic_fails :
    ¬ TableArithmetic 67108864 1 (chunkCount 67108864 1) ∧
      chunkArraySize (chunkCount 67108864 1) = -2147483648 ∧
      chunkArraySize64 (chunkCount 67108864 1) = 2147483648 :=
  ⟨fun h => by
    have hload := h.load
    revert hload
    decide, by decide, by decide⟩

end Mhftp
