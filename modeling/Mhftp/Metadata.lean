import Mhftp.ConTcp
import Mhftp.Library.ClaimTable

/-! # Metadata and the chunk table

A `Metadata` object holds the header of a file, the state of its chunks and the in_use
byte; a complete .mdata file holds the same, so the file is modelled by the value that
`LoadMetadata` reads and `SaveMetadata` writes.  `chunks_` is the length of the table.

The workers of a transfer use the table as the tasks of `Library.ClaimTable`:
`getNextPendingChunk` finds a free entry, `setChunkStatus` marks and settles it
(`claimRules`).
-/

namespace Mhftp
open Library

/-- DIGEST_SIZE -/
def digestSize : Nat := 16
/-- FNAME_SIZE -/
def fnameSize : Nat := 2048
/-- MAX_CHUNK_SIZE, the size of the transfer buffers -/
@[irreducible] def maxChunkSize : Nat := 20971520
/-- CHUNK_SIZE, the default chunk size -/
def defaultChunkSize : Int := 1048576
/-- NPROC -/
def nproc : Nat := 10
/-- The bytes that one `read` or `write` moves at most. -/
@[irreducible] def maxCount : Nat := 2147479552

theorem maxChunkSize_eq : maxChunkSize = 20971520 := by unfold maxChunkSize; rfl
theorem maxCount_eq : maxCount = 2147479552 := by unfold maxCount; rfl
theorem maxChunkSize_le : maxChunkSize ≤ maxCount := by
  rw [maxChunkSize_eq, maxCount_eq]; decide

/-- It is an int. -/
theorem lt_of_le_maxCount {n : Int} (h : n ≤ maxCount) : n < 2 ^ 31 :=
  h.trans_lt (by rw [maxCount_eq]; decide)

abbrev Digest := Buffer digestSize
abbrev FName := Buffer fnameSize

/-- A file name, without its terminating NUL. -/
abbrev Path := List UInt8

/-- MD5 of a piece of memory. -/
abbrev Md5 := List UInt8 → Digest

/-- `md5Buffer`, whose length is an int: `len` are the 32 bits of it.  `none` where it is
negative and `MD5_Update` runs out of memory. -/
def md5Buffer (md5 : Md5) (data : List UInt8) : Option Digest :=
  let len := data.length % 2 ^ 32
  if len < 2 ^ 31 then some (md5 (data.take len)) else none

theorem md5Buffer_of_lt (md5 : Md5) {data : List UInt8} (h : data.length < 2 ^ 31) :
    md5Buffer md5 data = some (md5 data) := by
  have hlen : data.length % 2 ^ 32 = data.length := Nat.mod_eq_of_lt (by omega)
  rw [md5Buffer, hlen, if_pos h, List.take_length]

/-- The values of `enum ChunkStatus`, in its order. -/
inductive ChunkStatus
  | chOk | chPending | chError | chDownload | chUpload
  deriving DecidableEq

structure ChunkInfo where
  md5sum : Digest
  size : Int
  status : ChunkStatus
  deriving DecidableEq

/-- What `WriteMetadataHeader` sends. -/
structure Header where
  digest : Digest
  fileSize : Int
  fileFull : FName
  chunkSize : Int
  chunks : Int
  deriving DecidableEq

structure Metadata where
  digest : Digest
  fileSize : Int
  fileFull : FName
  chunkSize : Int
  chunkInfo : List ChunkInfo
  inUse : UInt8
  deriving DecidableEq

/-! ### Chunks of a file -/

/-- The number of chunks `create` computes, in the truncating division of C. -/
def chunkCount (fileSize chunkSize : Int) : Int :=
  fileSize.tdiv chunkSize + if fileSize.tmod chunkSize ≠ 0 then 1 else 0

/-- What 64 bits hold of a result. -/
def int64 (x : Int) : Int := x.bmod (2 ^ 64)

/-- The size of chunk `i`, as `initControlData` and `getPayLoadArray` compute it. -/
def payLoad (fileSize chunkSize : Int) (i : Nat) : Int :=
  let remain := int64 (fileSize - chunkSize * i)
  if remain ≥ chunkSize then chunkSize else remain

def getPayLoadArray (fileSize chunkSize nChunks : Int) : List Int :=
  (List.range nChunks.toNat).map (payLoad fileSize chunkSize)

section Chunks
variable {fileSize chunkSize : Int} {i : Nat}

theorem chunkCount_nonneg (hf : 0 ≤ fileSize) (hc : 1 ≤ chunkSize) :
    0 ≤ chunkCount fileSize chunkSize := by
  have := Int.tdiv_nonneg hf (by omega : 0 ≤ chunkSize)
  unfold chunkCount
  split <;> omega

/-- A chunk starts inside the file. -/
theorem mul_lt_of_lt_chunkCount (hf : 0 ≤ fileSize) (hc : 1 ≤ chunkSize)
    (hi : (i : Int) < chunkCount fileSize chunkSize) : chunkSize * i < fileSize := by
  have hdiv := Int.mul_tdiv_add_tmod fileSize chunkSize
  have hmod := Int.tmod_nonneg chunkSize hf
  unfold chunkCount at hi
  split at hi
  · have hle : chunkSize * i ≤ chunkSize * fileSize.tdiv chunkSize :=
      Int.mul_le_mul_of_nonneg_left (by omega) (by omega)
    omega
  · have hle : chunkSize * (i + 1) ≤ chunkSize * fileSize.tdiv chunkSize :=
      Int.mul_le_mul_of_nonneg_left (by omega) (by omega)
    rw [Int.mul_add] at hle
    omega

/-- Whatever the chunk size is, a chunk starts inside the file or at its end. -/
theorem mul_bounds_of_lt_chunkCount (hf : 0 ≤ fileSize)
    (hi : (i : Int) < chunkCount fileSize chunkSize) :
    0 ≤ chunkSize * i ∧ chunkSize * i ≤ fileSize := by
  by_cases hc : 1 ≤ chunkSize
  · have hlt := mul_lt_of_lt_chunkCount hf hc hi
    have : 0 ≤ chunkSize * (i : Int) := Int.mul_nonneg (by omega) (Int.natCast_nonneg i)
    omega
  · -- the quotient is not positive, so that there is chunk 0 at most
    have hdiv := Int.tdiv_nonpos_of_nonneg_of_nonpos hf (by omega : chunkSize ≤ 0)
    obtain rfl : i = 0 := by
      unfold chunkCount at hi
      split at hi <;> omega
    simpa using hf

/-- The chunks reach to the end of the file. -/
theorem le_chunkCount_mul (hc : 1 ≤ chunkSize) :
    fileSize ≤ chunkSize * chunkCount fileSize chunkSize := by
  have hdiv := Int.mul_tdiv_add_tmod fileSize chunkSize
  have hmod := Int.tmod_lt_of_pos fileSize (by omega : 0 < chunkSize)
  unfold chunkCount
  split
  · rw [Int.mul_add]; omega
  · rw [Int.add_zero]; omega

theorem int64_of_range {x : Int} (h : -2 ^ 63 ≤ x ∧ x < 2 ^ 63) : int64 x = x :=
  Int.bmod_eq_of_le_mul_two (by omega) (by omega)

theorem int64_range (x : Int) : -2 ^ 63 ≤ int64 x ∧ int64 x < 2 ^ 63 := by
  have hlo := Int.le_bmod (x := x) (m := 2 ^ 64) (by decide)
  have hhi := Int.bmod_lt (x := x) (m := 2 ^ 64) (by decide)
  unfold int64
  omega

theorem payLoad_eq_min (h : -2 ^ 63 ≤ fileSize - chunkSize * i ∧
    fileSize - chunkSize * i < 2 ^ 63) :
    payLoad fileSize chunkSize i = min chunkSize (fileSize - chunkSize * i) := by
  unfold payLoad
  rw [int64_of_range h]
  dsimp only
  split <;> omega

/-- A chunk starts inside the file, and has what is left of it from there. -/
theorem payLoad_place (hf : 0 ≤ fileSize ∧ fileSize < 2 ^ 63) (hc : 1 ≤ chunkSize)
    (hi : (i : Int) < chunkCount fileSize chunkSize) :
    (i : Int) * chunkSize < fileSize ∧
      payLoad fileSize chunkSize i = min chunkSize (fileSize - i * chunkSize) := by
  have hlt := mul_lt_of_lt_chunkCount hf.1 hc hi
  have hpos : 0 ≤ chunkSize * (i : Int) := Int.mul_nonneg (by omega) (Int.natCast_nonneg i)
  have hsize : payLoad fileSize chunkSize i = min chunkSize (fileSize - chunkSize * i) :=
    payLoad_eq_min (by omega)
  rw [mul_comm] at hlt hsize
  exact ⟨hlt, hsize⟩

theorem payLoad_range (hc : -2 ^ 63 ≤ chunkSize ∧ chunkSize < 2 ^ 63) :
    -2 ^ 63 ≤ payLoad fileSize chunkSize i ∧ payLoad fileSize chunkSize i < 2 ^ 63 := by
  unfold payLoad
  dsimp only
  split
  · exact hc
  · exact int64_range _

theorem getElem?_getPayLoadArray {nChunks : Int} (hi : (i : Int) < nChunks) :
    (getPayLoadArray fileSize chunkSize nChunks)[i]? = some (payLoad fileSize chunkSize i) := by
  have : i < nChunks.toNat := by omega
  simp [getPayLoadArray, this]

end Chunks

namespace Metadata

def chunks (m : Metadata) : Int := m.chunkInfo.length

def header (m : Metadata) : Header :=
  ⟨m.digest, m.fileSize, m.fileFull, m.chunkSize, m.chunks⟩

/-! ### The chunk table -/

/-- The chunks `getNextPendingChunk` stops at. -/
def claimable (c : ChunkInfo) : Bool :=
  c.status ≠ .chOk && c.status ≠ .chDownload && c.status ≠ .chUpload

/-- The first claimable chunk; `none` stands for -1. -/
def getNextPendingChunk (m : Metadata) : Option Nat := m.chunkInfo.findIdx? claimable

/-- The entry after `setChunkStatus`; without a digest the old md5sum stays. -/
def setStatus (status : ChunkStatus) (digest : Option Digest) (c : ChunkInfo) : ChunkInfo :=
  { c with status, md5sum := digest.getD c.md5sum }

def setChunkStatus (m : Metadata) (chunkNumber : Nat) (status : ChunkStatus)
    (digest : Option Digest) : Metadata :=
  { m with chunkInfo := m.chunkInfo.modify chunkNumber (setStatus status digest) }

def setInUse (m : Metadata) (inUse : UInt8) : Metadata := { m with inUse }

/-- The .mdata file after `UpdateControlData`, which writes the table only. -/
def updateControlData (m file : Metadata) : Metadata := { file with chunkInfo := m.chunkInfo }

/-- The entry after `resetDownloadingChunks`. -/
def resetDownloading (c : ChunkInfo) : ChunkInfo :=
  if c.status = .chDownload ∨ c.status = .chError then { c with status := .chPending } else c

/-- What `resetDownloadingChunks` with force saves. -/
def resetDownloadingChunks (m : Metadata) : Metadata :=
  { m with inUse := 0, chunkInfo := m.chunkInfo.map resetDownloading }

end Metadata

/-! ### New metadata -/

/-- The header `create` computes for a file. -/
def createHeader (md5 : Md5) (fileFull : FName) (file : List UInt8) (chunkSize : Int) : Header where
  digest := md5 file
  fileSize := file.length
  fileFull := fileFull
  chunkSize := chunkSize
  chunks := chunkCount file.length chunkSize

/-- `initControlData` dies: it clears a table of negative size, or counts chunks with an int
that overflows. -/
def Header.NoTable (h : Header) : Prop := h.chunks < 0 ∨ 2 ^ 31 ≤ h.chunks

instance (h : Header) : Decidable h.NoTable := inferInstanceAs (Decidable (_ ∨ _))

theorem Header.not_noTable {h : Header} (hc : 0 ≤ h.chunks) (hn : h.chunks < 2 ^ 31) :
    ¬ h.NoTable :=
  not_or.mpr ⟨hc.not_gt, hn.not_ge⟩

/-- `initControlData`: every chunk pending, with its size. -/
def initControlData (h : Header) : List ChunkInfo :=
  (List.range h.chunks.toNat).map fun i =>
    ⟨Buffer.zero _, payLoad h.fileSize h.chunkSize i, .chPending⟩

/-- A metadata object with a fresh table. -/
def Header.fresh (h : Header) (inUse : UInt8) : Metadata :=
  ⟨h.digest, h.fileSize, h.fileFull, h.chunkSize, initControlData h, inUse⟩

theorem Header.fresh_header {h : Header} {inUse : UInt8} (hc : 0 ≤ h.chunks) :
    (h.fresh inUse).header = h := by
  have : ((initControlData h).length : Int) = h.chunks := by simp [initControlData, hc]
  cases h
  simp only [fresh, Metadata.header, Metadata.chunks] at this ⊢
  rw [this]

theorem status_of_mem_initControlData {h : Header} {c : ChunkInfo} (hc : c ∈ initControlData h) :
    c.status = .chPending := by
  obtain ⟨i, -, rfl⟩ := List.mem_map.mp hc
  rfl

theorem getElem?_initControlData {h : Header} {i : Nat} (hi : (i : Int) < h.chunks) :
    (initControlData h)[i]? =
      some ⟨Buffer.zero _, payLoad h.fileSize h.chunkSize i, .chPending⟩ := by
  simp only [initControlData, List.getElem?_map,
    List.getElem?_range (by omega : i < h.chunks.toNat), Option.map_some]

/-! ### The header on the wire -/

def Header.writeMetadataHeader (h : Header) : List UInt8 :=
  h.digest.bytes ++ (encodeInt 8 h.fileSize ++ (h.fileFull.bytes ++
    (encodeInt 8 h.chunkSize ++ encodeInt 8 h.chunks)))

/-- `ReadMetadataHeader`: five reads, none of them checked. -/
def Header.readMetadataHeader (h : Header) (w : Wire) : Header × Wire :=
  let digest := w.readBuffer h.digest
  let fileSize := digest.wire.readInt64 h.fileSize
  let fileFull := fileSize.wire.readBuffer h.fileFull
  let chunkSize := fileFull.wire.readInt64 h.chunkSize
  let chunks := chunkSize.wire.readInt64 h.chunks
  (⟨digest.value, fileSize.value, fileFull.value, chunkSize.value, chunks.value⟩, chunks.wire)

/-- The header's numbers fit into the eight bytes they are sent in. -/
structure Header.InRange (h : Header) : Prop where
  fileSize : -2 ^ 63 ≤ h.fileSize ∧ h.fileSize < 2 ^ 63
  chunkSize : -2 ^ 63 ≤ h.chunkSize ∧ h.chunkSize < 2 ^ 63
  chunks : -2 ^ 63 ≤ h.chunks ∧ h.chunks < 2 ^ 63

section HeaderWire
variable {g h : Header} {w : Wire} {ys : List UInt8}

/-- **The header survives the wire** when each of the five reads gets its bytes. -/
theorem Header.readMetadataHeader_of_intact (hr : h.InRange)
    (hu : w.unread = h.writeMetadataHeader ++ ys)
    (hi : (g.readMetadataHeader w).2.short = false) :
    w.short = false ∧ (g.readMetadataHeader w).1 = h ∧
      (g.readMetadataHeader w).2.unread = ys := by
  simp only [readMetadataHeader] at hi ⊢
  obtain ⟨hi₄, hbr₅⟩ := Wire.readInt64_full_of_intact hi
  obtain ⟨hi₃, hbr₄⟩ := Wire.readInt64_full_of_intact hi₄
  obtain ⟨hi₂, hbr₃⟩ := Wire.readBuffer_full_of_intact hi₃
  obtain ⟨hi₁, hbr₂⟩ := Wire.readInt64_full_of_intact hi₂
  obtain ⟨hi₀, hbr₁⟩ := Wire.readBuffer_full_of_intact hi₁
  simp only [writeMetadataHeader, List.append_assoc] at hu
  rw [Wire.readBuffer_of_full hu hbr₁] at hbr₂ hbr₃ hbr₄ hbr₅ ⊢
  rw [Wire.readInt64_of_full rfl hr.fileSize hbr₂] at hbr₃ hbr₄ hbr₅ ⊢
  rw [Wire.readBuffer_of_full rfl hbr₃] at hbr₄ hbr₅ ⊢
  rw [Wire.readInt64_of_full rfl hr.chunkSize hbr₄] at hbr₅ ⊢
  rw [Wire.readInt64_of_full rfl hr.chunks hbr₅]
  exact ⟨hi₀, rfl, rfl⟩

theorem Header.readMetadataHeader_short (h : w.short = true) :
    (g.readMetadataHeader w).2.short = true := by
  simp [readMetadataHeader, Wire.readBuffer_wire, Wire.readInt64_wire, Wire.soRead_wire_short, h]

end HeaderWire

/-! ### The table as tasks -/

/-- The two kinds of transfer. -/
inductive Transfer
  | download | upload
  deriving DecidableEq

/-- The status of a chunk that a worker is at. -/
def Transfer.inFlight : Transfer → ChunkStatus
  | download => .chDownload
  | upload => .chUpload

/-- The chunk table as the tasks of the workers.  `outcome` says whether a chunk failed
and what md5sum is stored with it. -/
def claimRules (t : Transfer) {O : Type} (failed : O → Bool) (md5sum : O → Digest) :
    ClaimRules ChunkInfo O where
  free := Metadata.claimable
  held := fun c => c.status = t.inFlight
  settled := fun c => c.status = .chOk
  mark := Metadata.setStatus t.inFlight none
  settle := fun o => Metadata.setStatus (if failed o then .chError else .chOk) (some (md5sum o))
  failed := failed
  free_of_held := fun c h => by
    cases t <;> simp [Metadata.claimable, of_decide_eq_true h, Transfer.inFlight]
  free_of_settled := fun c h => by simp [Metadata.claimable, of_decide_eq_true h]
  held_of_settled := fun c h => by
    cases t <;> simp [of_decide_eq_true h, Transfer.inFlight]
  held_mark := fun c => by simp [Metadata.setStatus]
  free_settle := fun o c => by
    cases h : failed o <;> simp [Metadata.claimable, Metadata.setStatus]
  settled_settle := fun o c => by
    cases h : failed o <;> simp [Metadata.setStatus]

end Mhftp
