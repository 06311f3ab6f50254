import Mathlib.Tactic.IntervalCases
import Mhftp.MetadataFile

/-! # A half-written .mdata file

A new .mdata file holds the header and a table of pending chunks.  When the process that
writes it is stopped only a prefix is there.  `LoadMetadata` does not look at what its reads
return: fields that are missing keep what was in memory, -1 in the number of chunks, zeros
in the table.  A zero is CH_OK.

`half_written_iff`: at which cut points a later run still comes to every chunk.
-/

namespace Mhftp
open Library

theorem bmod_congr {a b : Int} {m : Nat} (h : a % m = b % m) : a.bmod m = b.bmod m := by
  rw [← Int.emod_bmod, h, Int.emod_bmod]

/-- The first `j` bytes of a number stored over -1. -/
theorem overlayInt_take {n : Int} {j : Nat} (hj : j < 8) :
    Wire.overlayInt (-1) ((encodeInt 8 n).take j) = n % 256 ^ j - 256 ^ j := by
  have hlen : ((encodeInt 8 n).take j).length = j := by simp; omega
  have hbytes : ((⟨encodeInt 8 (-1), length_encodeInt 8 _⟩ : Buffer 8).overlay
      ((encodeInt 8 n).take j)).bytes =
        encode j (n % 256 ^ 8).toNat ++ encode (8 - j) ((256 ^ 8 - 1) / 256 ^ j) := by
    show ((encodeInt 8 n).take j ++
      (encodeInt 8 (-1)).drop ((encodeInt 8 n).take j).length).take 8 = _
    rw [hlen, encodeInt, take_encode (by omega), encodeInt, drop_encode,
      List.take_of_length_le (by simp; omega)]
    rfl
  rw [Wire.overlayInt, hbytes, decodeInt, decode_append, decode_encode, decode_encode,
    length_encode, List.length_append, length_encode, length_encode,
    show j + (8 - j) = 8 by omega, Int.bmod_eq_iff (by decide)]
  interval_cases j <;> omega

/-! ### What a file gives -/

/-- The signature `LoadMetadata` finds in a file. -/
def sigIn (file : List UInt8) : List UInt8 :=
  ((Buffer.zero sigHdrSize).overlay (file.take sigHdrSize)).bytes

/-- The number of chunks it finds. -/
def chunksIn (file : List UInt8) : Int := Wire.overlayInt (-1) (pread file 2078 8)

/-- The header it finds, where `obj` is what the object held. -/
def headerIn (obj : Header) (file : List UInt8) : Header where
  digest := obj.digest.overlay (pread file 2086 digestSize)
  fileSize := Wire.overlayInt obj.fileSize (pread file 2062 8)
  fileFull := (Buffer.zero _).overlay (pread file sigHdrSize fnameSize)
  chunkSize := Wire.overlayInt (-1) (pread file 2070 8)
  chunks := chunksIn file

/-- The size of a table. -/
def chunkArraySize (chunks : Int) : Int := (chunkInfoSize * chunks).bmod (2 ^ 32)

/-- Entry `i` of the table of `size` bytes that it reads. -/
def entryIn (file : List UInt8) (size i : Nat) : ChunkEntry :=
  .decode (pread (readCleared size ((file.drop headerSize).take maxCount)) (chunkInfoSize * i)
    chunkInfoSize)

/-- What it leaves in memory, if it comes to its end. -/
def loadedIn (obj : Loaded) (file : List UInt8) : Loaded :=
  let size := (chunkArraySize (chunksIn file)).toNat
  { header := headerIn obj.header file
    chunkInfo := (List.range (size / chunkInfoSize)).map (entryIn file size)
    inUse := (file[2102]?).getD obj.inUse }

theorem readByte_eq (x : UInt8) (file : List UInt8) :
    readByte x file = ((file[0]?).getD x, file.drop 1) := by
  cases file <;> rfl

/-- **`LoadMetadata` by offsets**, whatever the file holds. -/
theorem loadMetadata_eq (obj : Loaded) (file : List UInt8) : loadMetadata obj file =
    if sigIn file ≠ headerSig then none
    else if chunkArraySize (chunksIn file) < 0 then none
    else some (loadedIn obj file) := by
  have hname : file.drop (sigHdrSize + fnameSize) = file.drop 2062 := rfl
  simp only [loadMetadata, Buffer.readFront, readInt64, readByte_eq, List.drop_drop, hname,
    List.getElem?_drop, records, List.map_map]
  rfl

/-! ### A prefix -/

section Prefix
variable {file : List UInt8} {p pos n : Nat}

theorem pread_take : pread (file.take p) pos n = (pread file pos n).take (p - pos) := by
  rw [pread, pread, List.drop_take, List.take_take, List.take_take, min_comm]

/-- No proper prefix of the signature is taken for it. -/
theorem sigIn_take (hsig : file.take sigHdrSize = headerSig) :
    sigIn (file.take p) = headerSig ↔ sigHdrSize ≤ p := by
  have htake : (file.take p).take sigHdrSize = headerSig.take p := by
    rw [List.take_take, min_comm, ← List.take_take, hsig]
  rw [sigIn, htake]
  constructor
  · intro h
    by_contra hlt
    unfold sigHdrSize at hlt
    revert h
    interval_cases p <;> decide
  · intro hle
    rw [List.take_of_length_le hle]
    have hlen : headerSig.length = sigHdrSize := rfl
    rw [Buffer.overlay_full _ hlen]

variable {count : Int}

/-- The number of chunks in a prefix: what is missing of it are the high bytes of -1. -/
theorem chunksIn_take (hcount : pread file 2078 8 = encodeInt 8 count)
    (hr : -2 ^ 63 ≤ count ∧ count < 2 ^ 63) : chunksIn (file.take p) =
      if p < 2086 then count % 256 ^ (p - 2078) - 256 ^ (p - 2078) else count := by
  rw [chunksIn, pread_take, hcount]
  split
  · exact overlayInt_take (by omega)
  · rw [List.take_of_length_le (by rw [length_encodeInt]; omega), Wire.overlayInt_encodeInt hr]

/-- The table has its size as soon as four bytes of the number of chunks are there. -/
theorem chunkArraySize_take (hcount : pread file 2078 8 = encodeInt 8 count)
    (hr : -2 ^ 63 ≤ count ∧ count < 2 ^ 63) (hp : 2082 ≤ p) :
    chunkArraySize (chunksIn (file.take p)) = chunkArraySize count := by
  rw [chunksIn_take hcount hr]
  split
  · obtain ⟨j, rfl⟩ : ∃ j, p = 2082 + j := ⟨p - 2082, by omega⟩
    refine bmod_congr ?_
    rw [show 2082 + j - 2078 = 4 + j by omega]
    have hj : j < 4 := by omega
    unfold chunkInfoSize
    interval_cases j <;> omega
  · rfl

/-- Before that it is negative. -/
theorem chunkArraySize_take_neg (hcount : pread file 2078 8 = encodeInt 8 count)
    (hr : -2 ^ 63 ≤ count ∧ count < 2 ^ 63) (hp : p < 2082) :
    chunkArraySize (chunksIn (file.take p)) < 0 := by
  rw [chunksIn_take hcount hr, if_pos (by omega)]
  have hj : p - 2078 < 4 := by omega
  generalize p - 2078 = j at hj
  unfold chunkArraySize chunkInfoSize
  rw [Int.bmod_eq_of_le_mul_two] <;> interval_cases j <;> omega

end Prefix

/-! ### A table cut short -/

section Table
variable {c : ChunkInfo} {t : List ChunkInfo} {r q i : Nat}

/-- An entry of which `r` bytes are there: the status is CH_OK until its first byte is. -/
theorem status_decode_cut (hpending : c.status = .chPending) :
    (ChunkEntry.decode (readCleared chunkInfoSize (c.bytes.take r))).status =
      if r ≤ 24 then ChunkStatus.chOk.code else ChunkStatus.chPending.code := by
  have hfront : (c.md5sum.bytes ++ encodeInt 8 c.size).length = 24 := by
    rw [List.length_append, c.md5sum.length, length_encodeInt, digestSize]
  have hbytes : c.bytes = (c.md5sum.bytes ++ encodeInt 8 c.size) ++ [1, 0, 0, 0, 0, 0, 0, 0] := by
    rw [ChunkInfo.bytes, hpending, List.append_assoc]
    rfl
  have hstatus : (ChunkEntry.decode (readCleared chunkInfoSize (c.bytes.take r))).status =
      decodeInt (readCleared 4 (([1, 0, 0, 0] : List UInt8).take (r - 24))) := by
    show decodeInt (pread (readCleared chunkInfoSize (c.bytes.take r)) 24 4) = _
    rw [pread_readCleared (by decide), pread_take, hbytes, pread, List.drop_left' hfront]
    rfl
  rw [hstatus]
  split
  · next h => rw [Nat.sub_eq_zero_of_le h]; decide
  · next h =>
    obtain ⟨j, hj⟩ : ∃ j, r - 24 = j + 1 := ⟨r - 25, by omega⟩
    rw [hj, List.take_succ_cons]
    by_cases hlt : j < 3
    · interval_cases j <;> decide
    · rw [List.take_of_length_le (by simp; omega)]
      decide

/-- An entry is read from its place in the file, if the `read` comes so far. -/
theorem entryIn_eq {file : List UInt8} {size : Nat} (h : chunkInfoSize * (i + 1) ≤ size) :
    entryIn file size i = .decode (readCleared chunkInfoSize ((pread file
      (headerSize + chunkInfoSize * i) chunkInfoSize).take (maxCount - chunkInfoSize * i))) := by
  rw [entryIn, pread_readCleared (by rw [Nat.mul_add] at h; omega), pread_take, pread, pread,
    List.drop_drop]

/-- Entry `i` of a pending table in a file that ends at `p`. -/
theorem status_entryIn_take {front : List UInt8} (hfront : front.length = headerSize)
    {p size : Nat} (hc : t[i]? = some c) (hpending : c.status = .chPending)
    (hsize : chunkInfoSize * (i + 1) ≤ size) :
    (entryIn ((front ++ (tableBytes t).take maxCount).take p) size i).status =
      if p ≤ headerSize + chunkInfoSize * i + 24 ∨ tableEntries ≤ i then ChunkStatus.chOk.code
      else ChunkStatus.chPending.code := by
  have hplace : pread (front ++ (tableBytes t).take maxCount) (headerSize + chunkInfoSize * i)
      chunkInfoSize = c.bytes.take (maxCount - chunkInfoSize * i) := by
    rw [pread, ← List.drop_drop, List.drop_left' hfront]
    refine pread_take.trans (congrArg (List.take _) ?_)
    exact pread_flatMap ChunkInfo.length_bytes hc
  have hmax := chunkInfoSize_mul_tableEntries
  unfold chunkInfoSize at hmax
  rw [entryIn_eq hsize, pread_take, hplace, List.take_take, List.take_take,
    status_decode_cut hpending]
  refine if_congr ?_ rfl rfl
  unfold chunkInfoSize
  omega

end Table

/-! ### What a later run makes of it -/

/-- `getNextPendingChunk` stops at the entry. -/
def ChunkEntry.claimable (c : ChunkEntry) : Bool :=
  c.status ≠ ChunkStatus.chOk.code && c.status ≠ ChunkStatus.chDownload.code &&
    c.status ≠ ChunkStatus.chUpload.code

/-- An entry that was read is claimable exactly if the entry that was written is. -/
theorem claimable_entry (c : ChunkInfo) : c.entry.claimable = Metadata.claimable c := by
  unfold ChunkEntry.claimable Metadata.claimable ChunkInfo.entry
  cases c.status <;> rfl

/-- No chunk of the loaded table is CH_OK, and each of the `count` chunks is there and
still to be transferred. -/
structure Loaded.Unfinished (count : Int) (l : Loaded) : Prop where
  noneOk : ∀ c ∈ l.chunkInfo, c.status ≠ ChunkStatus.chOk.code
  all : ∀ i : Nat, (i : Int) < count →
    (i : Int) < l.header.chunks ∧ ∃ c, l.chunkInfo[i]? = some c ∧ c.claimable = true

/-- The file that is written when a .mdata file is created, for the metadata `h`: by
`DownloadMetadataFromServer`, which makes the table before it writes, or by `StoreMetadata`. -/
inductive NewFile : Header → List UInt8 → Prop
  | download (h : Header) (inUse : UInt8) (htable : ¬ h.NoTable) :
      NewFile h ((h.fresh inUse).saveMetadata [])
  | store (obj : Header) (inUse : UInt8) (fileName : Path) (st_size : Int) :
      NewFile (storedHeader obj fileName st_size)
        (storeMetadata obj inUse fileName st_size obj.chunkSize obj.chunks [])

section NewFile
variable {h : Header} {file : List UInt8} {obj : Loaded} {p : Nat}

/-- A new file is a header and what `writeControlData` makes of the table. -/
theorem NewFile.layout (hfile : NewFile h file) (hc : 0 ≤ h.chunks) :
    ∃ front : List UInt8, front.length = headerSize ∧ file = front ++ writeControlData h ∧
      file.take sigHdrSize = headerSig ∧ pread file 2078 8 = encodeInt 8 h.chunks := by
  obtain ⟨inUse, rfl⟩ : ∃ inUse,
      file = (h.fresh inUse).fields.flatten ++ writeControlData h := by
    cases hfile with
    | download _ inUse htable =>
      refine ⟨inUse, ?_⟩
      rw [saveMetadata_eq, List.drop_nil, List.append_nil, writeControlData, if_neg htable]
      rfl
    | store obj inUse fileName st_size =>
      refine ⟨inUse, ?_⟩
      rw [storeMetadata_fields (h := obj) hc, pwriteAll_eq, pwrite_zero, List.drop_nil,
        List.append_nil, List.flatten_append, List.flatten_singleton]
  have hchunks : (h.fresh inUse).chunks = h.chunks :=
    congrArg Header.chunks (Header.fresh_header hc)
  have hlen : headerSig.length = sigHdrSize := rfl
  refine ⟨_, length_fields _, rfl, ?_, ?_⟩
  · rw [fields_flatten, List.append_assoc, List.take_left' hlen]
  · have hplace : (headerSig ++ ((h.fresh inUse).fileFull.bytes ++ (encodeInt 8 h.fileSize ++
        encodeInt 8 h.chunkSize))).length = 2078 := by
      simp [headerSig, (h.fresh inUse).fileFull.length, fnameSize]
    calc pread ((h.fresh inUse).fields.flatten ++ writeControlData h) 2078 8
      _ = pread ((headerSig ++ ((h.fresh inUse).fileFull.bytes ++ (encodeInt 8 h.fileSize ++
            encodeInt 8 h.chunkSize))) ++ (encodeInt 8 h.chunks ++
              ((h.fresh inUse).digest.bytes ++ [inUse] ++ writeControlData h))) 2078 8 := by
        rw [fields_flatten, hchunks]
        simp only [List.append_assoc]
        rfl
      _ = encodeInt 8 h.chunks := by
        rw [pread, List.drop_left' hplace, List.take_left' (length_encodeInt 8 _)]

theorem NewFile.length (hfile : NewFile h file) (hc : 0 ≤ h.chunks)
    (hle : chunkInfoSize * h.chunks ≤ maxCount) :
    (file.length : Int) = headerSize + chunkInfoSize * h.chunks := by
  obtain ⟨front, hfront, rfl, -, -⟩ := hfile.layout hc
  have hlt := lt_of_le_maxCount hle
  unfold chunkInfoSize at hlt
  have htable := Header.not_noTable hc (by omega)
  have hlength : ((tableBytes (initControlData h)).length : Int) = chunkInfoSize * h.chunks := by
    rw [length_tableBytes, initControlData, List.length_map, List.length_range]
    push_cast
    rw [Int.toNat_of_nonneg hc]
  rw [writeControlData, if_neg htable, List.take_of_length_le (by omega), List.length_append,
    hfront]
  push_cast
  rw [hlength]

/-- Where a prefix is rejected. -/
theorem NewFile.loadMetadata_take (hfile : NewFile h file)
    (hc : 0 ≤ h.chunks ∧ h.chunks < 2 ^ 63) (obj : Loaded) (p : Nat) :
    loadMetadata obj (file.take p) =
      if p < 2082 ∨ chunkArraySize h.chunks < 0 then none
      else some (loadedIn obj (file.take p)) := by
  obtain ⟨front, -, -, hsig, hcount⟩ := hfile.layout hc.1
  rw [loadMetadata_eq]
  by_cases hp : p < 2082
  · rw [if_pos (chunkArraySize_take_neg hcount (by omega) hp), if_pos (Or.inl hp), ite_self]
  · have hsigIn : sigIn (file.take p) = headerSig :=
      (sigIn_take hsig).mpr (by unfold sigHdrSize; omega)
    rw [if_neg (not_not.mpr hsigIn), chunkArraySize_take hcount (by omega) (by omega)]
    by_cases hsize : chunkArraySize h.chunks < 0
    · rw [if_pos hsize, if_pos (Or.inr hsize)]
    · rw [if_neg hsize, if_neg (by omega)]

/-- The table of a prefix that is not rejected: it has room for as many entries as its
size says, and a status is CH_OK unless its first byte is there and is read. -/
theorem NewFile.chunkInfo_take (hfile : NewFile h file) (hc : 0 ≤ h.chunks ∧ h.chunks < 2 ^ 63)
    (hp : 2082 ≤ p) {i : Nat} {c : ChunkEntry}
    (hi : (loadedIn obj (file.take p)).chunkInfo[i]? = some c) :
    chunkInfoSize * (i + 1) ≤ (chunkArraySize h.chunks).toNat ∧
      (h.chunks < 2 ^ 31 → (i : Int) < h.chunks → c.status =
        if p ≤ headerSize + chunkInfoSize * i + 24 ∨ tableEntries ≤ i then ChunkStatus.chOk.code
        else ChunkStatus.chPending.code) := by
  obtain ⟨front, hfront, htable, -, hcount⟩ := hfile.layout hc.1
  obtain ⟨hlt, rfl⟩ := List.getElem?_eq_some_iff.mp hi
  simp only [loadedIn, chunkArraySize_take hcount (by omega) hp, List.length_map,
    List.length_range] at hlt
  have hsize : chunkInfoSize * (i + 1) ≤ (chunkArraySize h.chunks).toNat := by
    rw [Nat.mul_comm]
    exact (Nat.le_div_iff_mul_le (by decide)).mp hlt
  refine ⟨hsize, fun hn hi => ?_⟩
  rw [writeControlData, if_neg (Header.not_noTable hc.1 hn)] at htable
  have hc := getElem?_initControlData hi
  simp only [loadedIn, chunkArraySize_take hcount (by omega) hp, List.getElem_map,
    List.getElem_range]
  rw [htable]
  exact status_entryIn_take hfront hc rfl hsize

theorem NewFile.chunks_take (hfile : NewFile h file) (hc : 0 ≤ h.chunks ∧ h.chunks < 2 ^ 63)
    (hp : 2086 ≤ p) : (loadedIn obj (file.take p)).header.chunks = h.chunks := by
  obtain ⟨front, -, -, -, hcount⟩ := hfile.layout hc.1
  exact (chunksIn_take hcount (by omega)).trans (if_neg (by omega))

theorem NewFile.length_chunkInfo_take (hfile : NewFile h file)
    (hc : 0 ≤ h.chunks ∧ h.chunks < 2 ^ 63) (hp : 2082 ≤ p) (obj : Loaded) :
    (loadedIn obj (file.take p)).chunkInfo.length =
      (chunkArraySize h.chunks).toNat / chunkInfoSize := by
  obtain ⟨front, -, -, -, hcount⟩ := hfile.layout hc.1
  simp only [loadedIn, chunkArraySize_take hcount (by omega) hp, List.length_map,
    List.length_range]

theorem chunkArraySize_of_lt {n : Int} (hn : 0 ≤ n) (hlt : chunkInfoSize * n < 2 ^ 31) :
    chunkArraySize n = chunkInfoSize * n := by
  unfold chunkInfoSize at hlt
  exact Int.bmod_eq_of_le_mul_two (by unfold chunkInfoSize; omega) (by unfold chunkInfoSize; omega)

/-- A file that lacks at most seven bytes has the status of every chunk. -/
theorem NewFile.unfinished_take (hfile : NewFile h file) (hc : 0 ≤ h.chunks ∧ h.chunks < 2 ^ 63)
    (hp : 2082 ≤ p) (hle : chunkInfoSize * h.chunks ≤ maxCount) (hcut : file.length ≤ p + 7)
    (obj : Loaded) : (loadedIn obj (file.take p)).Unfinished h.chunks := by
  have hsize := lt_of_le_maxCount hle
  have hmax := chunkInfoSize_mul_tableEntries
  have hlength := hfile.length hc.1 hle
  have hlen := hfile.length_chunkInfo_take hc hp obj
  rw [chunkArraySize_of_lt hc.1 hsize] at hlen
  unfold chunkInfoSize at hmax hle hsize
  unfold headerSize chunkInfoSize at hlength
  unfold chunkInfoSize at hlen
  have hstatus {i : Nat} {c : ChunkEntry}
      (hi : (loadedIn obj (file.take p)).chunkInfo[i]? = some c) :
      c.status = ChunkStatus.chPending.code := by
    obtain ⟨hroom, hstatus⟩ := hfile.chunkInfo_take hc hp hi
    rw [chunkArraySize_of_lt hc.1 (by unfold chunkInfoSize; omega)] at hroom
    unfold headerSize chunkInfoSize at hstatus
    unfold chunkInfoSize at hroom
    rw [hstatus (by omega) (by omega), if_neg (by omega)]
  refine ⟨fun c hmem => ?_, fun i hi => ⟨?_, ?_⟩⟩
  · obtain ⟨i, hi⟩ := List.getElem?_of_mem hmem
    rw [hstatus hi]
    decide
  · rw [hfile.chunks_take hc (by omega)]
    exact hi
  · have hlt : i < (loadedIn obj (file.take p)).chunkInfo.length := by omega
    refine ⟨_, List.getElem?_eq_getElem hlt, ?_⟩
    rw [ChunkEntry.claimable, hstatus (List.getElem?_eq_getElem hlt)]
    rfl

/-- **Where a new .mdata file may be cut.**  A later run still transfers every chunk exactly if
there are no chunks, or the cut is in front of the fifth byte of the number of chunks, or
the size of the table is negative as an int (the file is rejected), or the file has a table
that can be read in one piece, and the cut is behind the first byte of the status of its last
entry. -/
theorem half_written_iff (hfile : NewFile h file) (hc : 0 ≤ h.chunks ∧ h.chunks < 2 ^ 63)
    (p : Nat) (obj : Loaded) :
    (∀ l, loadMetadata obj (file.take p) = some l → l.Unfinished h.chunks) ↔
      h.chunks = 0 ∨ p < 2082 ∨ chunkArraySize h.chunks < 0 ∨
        (chunkInfoSize * h.chunks ≤ maxCount ∧ file.length ≤ p + 7) := by
  have hlength := hfile.length hc.1
  have hmax := chunkInfoSize_mul_tableEntries
  have hsmall := chunkArraySize_of_lt (n := h.chunks) hc.1
  have hlarge : chunkArraySize h.chunks < 2 ^ 31 := by
    have := Int.bmod_lt (x := chunkInfoSize * h.chunks) (m := 2 ^ 32) (by decide)
    unfold chunkArraySize
    omega
  rw [hfile.loadMetadata_take hc obj p]
  unfold headerSize chunkInfoSize at hlength
  unfold chunkInfoSize at hmax hsmall ⊢
  constructor
  · intro hall
    by_contra hno
    rw [not_or, not_or, not_or] at hno
    obtain ⟨hpos, hp', hneg, hcut⟩ := hno
    rw [if_neg (by omega)] at hall
    -- the last chunk
    obtain ⟨hlt, c, hentry, hclaimable⟩ :=
      (hall _ rfl).all (h.chunks.toNat - 1) (by omega)
    obtain ⟨hroom, hstatus⟩ := hfile.chunkInfo_take hc (by omega) hentry
    unfold headerSize chunkInfoSize at hstatus
    unfold chunkInfoSize at hroom
    rw [if_pos (by omega)] at hstatus
    rw [ChunkEntry.claimable, hstatus (by omega) (by omega)] at hclaimable
    cases hclaimable
  · intro hcond l hl
    split at hl
    · cases hl
    · next hno =>
      obtain rfl := Option.some.inj hl
      have hp' : 2082 ≤ p := by omega
      have hlen := hfile.length_chunkInfo_take hc hp' obj
      unfold chunkInfoSize at hlen
      rcases hcond with hzero | hlt | hlt | ⟨hsize, hcut⟩
      · have hnil : (loadedIn obj (file.take p)).chunkInfo = [] := by
          refine List.length_eq_zero_iff.mp ?_
          rw [hlen, hsmall (by omega), hzero]
          rfl
        refine ⟨fun c hmem => ?_, fun i hi => by omega⟩
        rw [hnil] at hmem
        cases hmem
      · omega
      · omega
      · exact hfile.unfinished_take hc hp' hsize hcut obj

end NewFile

theorem newFile_sample : NewFile sampleHeader (sampleMetadata.saveMetadata []) :=
  .download sampleHeader 1 (by decide)

/-- A cut behind all but the padding of the last entry. -/
theorem half_written_sample :
    (∀ l, loadMetadata sampleMetadata.loaded ((sampleMetadata.saveMetadata []).take 2160) = some l →
      l.Unfinished sampleHeader.chunks) ↔
    sampleHeader.chunks = 0 ∨ 2160 < 2082 ∨ chunkArraySize sampleHeader.chunks < 0 ∨
      (chunkInfoSize * sampleHeader.chunks ≤ maxCount ∧
        (sampleMetadata.saveMetadata []).length ≤ 2160 + 7) :=
  half_written_iff newFile_sample (by decide) 2160 sampleMetadata.loaded

/-- The cut behind the header: every chunk is CH_OK. -/
theorem half_written_fails :
    ¬ ∀ l,
      loadMetadata sampleMetadata.loaded ((sampleMetadata.saveMetadata []).take 2103) = some l →
      ∀ c ∈ l.chunkInfo, c.status ≠ ChunkStatus.chOk.code := by
  intro h
  have hload := newFile_sample.loadMetadata_take (by decide) sampleMetadata.loaded 2103
  rw [if_neg (by decide)] at hload
  have hlen := newFile_sample.length_chunkInfo_take (p := 2103) (by decide) (by decide)
    sampleMetadata.loaded
  have hlt : 0 < (loadedIn sampleMetadata.loaded
      ((sampleMetadata.saveMetadata []).take 2103)).chunkInfo.length := by
    rw [hlen]
    decide
  have hentry := List.getElem?_eq_getElem hlt
  obtain ⟨-, hstatus⟩ := newFile_sample.chunkInfo_take (by decide) (by decide) hentry
  exact h _ hload _ (List.getElem_mem hlt) (hstatus (by decide) (by decide))

end Mhftp
