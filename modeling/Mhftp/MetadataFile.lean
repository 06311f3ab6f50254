import Mhftp.Library.Layout
import Mhftp.Metadata

/-! # The .mdata file

`SaveMetadata`, `StoreMetadata` and `UpdateControlData` write the file field by field, over
whatever it holds, and `LoadMetadata` reads it field by field, whatever it finds
(`loadMetadata`): nothing is checked but the signature, and what the file is too short for
stays as the memory was.  A table is moved by one `write` and by one `read`, and these move
maxCount bytes at most (`tableEntries` entries), whatever they are asked for; nobody looks at
what they return, so the rest of a longer table is lost (`Metadata.moved`).

The layout: the signature, the name, the file size, the chunk size, the number of chunks,
the digest, the in_use byte (HEADER_SIZE bytes so far), and the entries of the chunk table.
The padding of an entry is zero, because the memory of a table is cleared when it is made.
Otherwise the file system takes and gives all that it is asked for; a file has one name, and
no name is longer than NAME_MAX.
-/

namespace Mhftp
open Library

/-- HEADER_SIG -/
def headerSig : List UInt8 := [77, 72, 70, 84, 80, 95, 77, 69, 84, 65, 68, 65, 84, 65]
/-- SIG_HDR_SIZE -/
def sigHdrSize : Nat := 14
/-- HEADER_SIZE -/
def headerSize : Nat := 2103
/-- `sizeof(struct ChunkInfo)` -/
def chunkInfoSize : Nat := 32

/-- The entries that one `read` or `write` moves. -/
@[irreducible] def tableEntries : Nat := 67108736

theorem tableEntries_eq : tableEntries = 67108736 := by unfold tableEntries; rfl
theorem chunkInfoSize_mul_tableEntries : chunkInfoSize * tableEntries = maxCount := by
  rw [tableEntries_eq, maxCount_eq]; rfl

/-- The number of a status. -/
def ChunkStatus.code : ChunkStatus → Int
  | chOk => 0
  | chPending => 1
  | chError => 2
  | chDownload => 3
  | chUpload => 4

theorem ChunkStatus.code_inj {s t : ChunkStatus} (h : s.code = t.code) : s = t := by
  cases s <;> cases t <;> first | rfl | cases h

theorem ChunkStatus.code_range (s : ChunkStatus) : 0 ≤ s.code ∧ s.code ≤ 4 := by
  cases s <;> decide

/-- An entry of the table in memory. -/
def ChunkInfo.bytes (c : ChunkInfo) : List UInt8 :=
  c.md5sum.bytes ++ (encodeInt 8 c.size ++ (encodeInt 4 c.status.code ++ [0, 0, 0, 0]))

theorem ChunkInfo.length_bytes (c : ChunkInfo) : c.bytes.length = chunkInfoSize := by
  simp [bytes, c.md5sum.length, digestSize, chunkInfoSize]

/-- The memory of a chunk table. -/
def tableBytes (t : List ChunkInfo) : List UInt8 := t.flatMap ChunkInfo.bytes

theorem length_tableBytes (t : List ChunkInfo) :
    (tableBytes t).length = chunkInfoSize * t.length :=
  length_flatMap ChunkInfo.length_bytes t

/-- The memory that an entry is made in: a zero is CH_OK. -/
def clearedEntry : ChunkInfo := ⟨Buffer.zero _, 0, .chOk⟩

/-- What is written in front of the table. -/
def headerFields (fileFull : FName) (fileSize chunkSize chunks : Int) (digest : Digest)
    (inUse : UInt8) : List (List UInt8) :=
  [headerSig, fileFull.bytes, encodeInt 8 fileSize, encodeInt 8 chunkSize, encodeInt 8 chunks,
    digest.bytes, [inUse]]

/-! ### The writers -/

namespace Metadata

/-- The header of the file. -/
def fields (m : Metadata) : List (List UInt8) :=
  headerFields m.fileFull m.fileSize m.chunkSize m.chunks m.digest m.inUse

/-- The file after `SaveMetadata`. -/
def saveMetadata (m : Metadata) (file : List UInt8) : List UInt8 :=
  pwriteAll file 0 (m.fields ++ [(tableBytes m.chunkInfo).take maxCount])

/-- The file after `UpdateControlData`. -/
def writeTable (m : Metadata) (file : List UInt8) : List UInt8 :=
  pwrite file headerSize ((tableBytes m.chunkInfo).take maxCount)

end Metadata

/-- What `StoreMetadata` has in memory when it writes: the name is in a cleared array, and
the file size is what `stat` says. -/
def storedHeader (obj : Header) (fileName : Path) (st_size : Int) : Header :=
  { obj with fileSize := st_size, fileFull := (Buffer.zero _).overlay fileName }

/-- `writeControlData` makes a new table and writes it; `initControlData` may end the process
before. -/
def writeControlData (h : Header) : List UInt8 :=
  if h.NoTable then [] else (tableBytes (initControlData h)).take maxCount

/-- The file after `StoreMetadata`: `chunkSize` and `chunks` are its parameters, the table
that `writeControlData` makes is for those of the object. -/
def storeMetadata (obj : Header) (inUse : UInt8) (fileName : Path) (st_size chunkSize chunks : Int)
    (file : List UInt8) : List UInt8 :=
  let h := storedHeader obj fileName st_size
  pwriteAll file 0 (headerFields h.fileFull h.fileSize chunkSize chunks h.digest inUse ++
    [writeControlData h])

/-! ### The reader -/

/-- An entry of a table that was read: any number may stand for the status. -/
structure ChunkEntry where
  md5sum : Digest
  size : Int
  status : Int
  deriving DecidableEq

/-- What `LoadMetadata` leaves in memory: the table need not have `chunks` entries. -/
structure Loaded where
  header : Header
  chunkInfo : List ChunkEntry
  inUse : UInt8
  deriving DecidableEq

/-- The entry in 32 bytes of memory. -/
def ChunkEntry.decode (bytes : List UInt8) : ChunkEntry where
  md5sum := (Buffer.zero _).overlay (bytes.take 16)
  size := decodeInt ((bytes.drop 16).take 8)
  status := decodeInt ((bytes.drop 24).take 4)

def ChunkInfo.entry (c : ChunkInfo) : ChunkEntry := ⟨c.md5sum, c.size, c.status.code⟩

/-- A metadata object in memory. -/
def Metadata.loaded (m : Metadata) : Loaded := ⟨m.header, m.chunkInfo.map ChunkInfo.entry, m.inUse⟩

/-- A `read` into an integer of eight bytes. -/
def readInt64 (x : Int) (file : List UInt8) : Int × List UInt8 :=
  (Wire.overlayInt x (file.take 8), file.drop 8)

/-- A `read` into one byte. -/
def readByte (x : UInt8) : List UInt8 → UInt8 × List UInt8
  | [] => (x, [])
  | b :: file => (b, file)

/-- `LoadMetadata` into an object that holds `obj`.  It ends the process where the signature
is wrong, and where the size of the table, an int, is negative: `malloc` fails then. -/
def loadMetadata (obj : Loaded) (file : List UInt8) : Option Loaded :=
  let header_sig := (Buffer.zero sigHdrSize).readFront file
  if header_sig.1.bytes ≠ headerSig then none
  else
    let fileFull := (Buffer.zero fnameSize).readFront header_sig.2
    let fileSize := readInt64 obj.header.fileSize fileFull.2
    let chunkSize := readInt64 (-1) fileSize.2
    let chunks := readInt64 (-1) chunkSize.2
    let digest := obj.header.digest.readFront chunks.2
    let in_use := readByte obj.inUse digest.2
    let chunkArraySize := (chunkInfoSize * chunks.1).bmod (2 ^ 32)
    if chunkArraySize < 0 then none
    else
      let chunkInfo := readCleared chunkArraySize.toNat (in_use.2.take maxCount)
      some
        { header := ⟨digest.1, fileSize.1, fileFull.1, chunkSize.1, chunks.1⟩
          chunkInfo := (records chunkInfoSize (chunkArraySize.toNat / chunkInfoSize)
            chunkInfo).map ChunkEntry.decode
          inUse := in_use.1 }

/-- What is left of metadata that has been saved and loaded: one `write` and one `read` move
the front of the table, and the rest is as `LoadMetadata` has cleared it. -/
def Metadata.moved (m : Metadata) : Metadata :=
  { m with chunkInfo := keepFront tableEntries clearedEntry m.chunkInfo }

section Moved
variable {m : Metadata}

theorem Metadata.chunks_moved (m : Metadata) : m.moved.chunks = m.chunks :=
  congrArg Nat.cast length_keepFront

theorem Metadata.header_moved (m : Metadata) : m.moved.header = m.header := by
  rw [header, chunks_moved]
  rfl

theorem Metadata.moved_of_le (h : m.chunks ≤ tableEntries) : m.moved = m := by
  unfold chunks at h
  rw [moved, keepFront_of_le (by omega)]

/-- Nothing is lost exactly if the entries behind the front are zero. -/
theorem Metadata.moved_eq_iff :
    m.moved = m ↔ ∀ c ∈ m.chunkInfo.drop tableEntries, c = clearedEntry := by
  rw [← keepFront_eq_iff]
  constructor
  · exact congrArg chunkInfo
  · intro h
    rw [moved, h]

/-- What is moved once is moved again. -/
theorem Metadata.moved_moved (m : Metadata) : m.moved.moved = m.moved :=
  congrArg (fun chunkInfo => { m with chunkInfo }) keepFront_keepFront

end Moved

/-! ### What is written is read back -/

/-- The numbers fit into their fields, and the size of the table into an int. -/
structure Metadata.Fits (m : Metadata) : Prop where
  header : m.header.InRange
  sizes : ∀ c ∈ m.chunkInfo, -2 ^ 63 ≤ c.size ∧ c.size < 2 ^ 63
  table : 32 * m.chunks < 2 ^ 31

/-- So do they after the move. -/
theorem Metadata.Fits.moved {m : Metadata} (hm : m.Fits) : m.moved.Fits where
  header := m.header_moved ▸ hm.header
  sizes := by
    intro c hc
    rcases List.mem_append.mp hc with hc | hc
    · exact hm.sizes c (List.mem_of_mem_take hc)
    · rw [List.eq_of_mem_replicate hc]
      decide
  table := m.chunks_moved ▸ hm.table

section Entry

/-- The fields of an entry are found where they have been put. -/
theorem ChunkEntry.decode_fields (md5sum : Digest) {size code : Int}
    (hsize : -2 ^ 63 ≤ size ∧ size < 2 ^ 63) (hcode : -2 ^ 31 ≤ code ∧ code < 2 ^ 31) :
    decode (md5sum.bytes ++ (encodeInt 8 size ++ (encodeInt 4 code ++ [0, 0, 0, 0]))) =
      ⟨md5sum, size, code⟩ := by
  have hdigest : md5sum.bytes.length = 16 := md5sum.length
  unfold decode
  congr 1
  · rw [List.take_left' hdigest]
    exact Buffer.overlay_self _ _
  · rw [List.drop_left' hdigest, List.take_left' (length_encodeInt 8 _),
      decodeInt_encodeInt_of_range (by omega) (by omega)]
  · rw [show 24 = 16 + 8 from rfl, ← List.drop_drop, List.drop_left' hdigest,
      List.drop_left' (length_encodeInt 8 _), List.take_left' (length_encodeInt 4 _),
      decodeInt_encodeInt_of_range (by omega) (by omega)]

theorem ChunkEntry.decode_bytes {c : ChunkInfo} (hsize : -2 ^ 63 ≤ c.size ∧ c.size < 2 ^ 63) :
    decode c.bytes = c.entry := by
  have hcode := c.status.code_range
  exact decode_fields c.md5sum hsize (by omega)

theorem ChunkInfo.entry_inj {c d : ChunkInfo} (h : c.entry = d.entry) : c = d := by
  cases c
  cases d
  simp only [entry, ChunkEntry.mk.injEq] at h
  obtain ⟨rfl, rfl, hcode⟩ := h
  rw [ChunkStatus.code_inj hcode]

/-- Different metadata is different in memory. -/
theorem Metadata.loaded_inj {m m' : Metadata} (h : m.loaded = m'.loaded) : m = m' := by
  cases m
  cases m'
  simp only [loaded, header, Loaded.mk.injEq, Header.mk.injEq] at h
  obtain ⟨⟨rfl, rfl, rfl, rfl, -⟩, htable, rfl⟩ := h
  have htable := List.map_injective_iff.mpr (fun _ _ => ChunkInfo.entry_inj) htable
  rw [htable]

end Entry

section Load
variable {m : Metadata} {obj : Loaded} {file rest : List UInt8}

theorem length_fields (m : Metadata) : m.fields.flatten.length = headerSize := by
  simp [Metadata.fields, headerFields, headerSig, m.fileFull.length, m.digest.length, headerSize,
    fnameSize, digestSize]

theorem fields_flatten (m : Metadata) : m.fields.flatten =
    headerSig ++ (m.fileFull.bytes ++ (encodeInt 8 m.fileSize ++ (encodeInt 8 m.chunkSize ++
      (encodeInt 8 m.chunks ++ (m.digest.bytes ++ [m.inUse]))))) := by
  simp [Metadata.fields, headerFields]

/-- The table in memory that was cleared and read into. -/
theorem records_tableBytes {t : List ChunkInfo}
    (hsizes : ∀ c ∈ t, -2 ^ 63 ≤ c.size ∧ c.size < 2 ^ 63) :
    (records chunkInfoSize t.length (tableBytes t)).map ChunkEntry.decode =
      t.map ChunkInfo.entry := by
  rw [tableBytes, records_flatMap ChunkInfo.length_bytes, List.map_map]
  exact List.map_congr_left fun c hc => ChunkEntry.decode_bytes (hsizes c hc)

theorem readInt64_append {x y : Int} (hy : -2 ^ 63 ≤ y ∧ y < 2 ^ 63) :
    readInt64 x (encodeInt 8 y ++ rest) = (y, rest) := by
  rw [readInt64, List.take_left' (length_encodeInt 8 y), List.drop_left' (length_encodeInt 8 y),
    Wire.overlayInt_encodeInt hy]

/-- A file with a complete header is read as it stands there. -/
theorem loadMetadata_fields (hr : m.header.InRange) (ht : 32 * m.chunks < 2 ^ 31)
    {table : List UInt8} : loadMetadata obj (m.fields.flatten ++ table) =
      some ⟨m.header, (records chunkInfoSize m.chunkInfo.length (readCleared
        (chunkInfoSize * m.chunkInfo.length) (table.take maxCount))).map ChunkEntry.decode,
          m.inUse⟩ := by
  have hchunks : m.chunks = (m.chunkInfo.length : Int) := rfl
  have hsize : ((chunkInfoSize : Int) * m.chunks).bmod (2 ^ 32) =
      (chunkInfoSize * m.chunkInfo.length : Nat) := by
    rw [hchunks, ← Int.natCast_mul]
    unfold chunkInfoSize
    exact Int.bmod_eq_of_le_mul_two (by omega) (by omega)
  have hsig : ∀ ys, (Buffer.zero sigHdrSize).readFront (headerSig ++ ys) = (⟨headerSig, rfl⟩, ys) :=
    fun ys => Buffer.readFront_append (c := ⟨headerSig, rfl⟩)
  simp only [fields_flatten, List.append_assoc, List.nil_append, List.cons_append]
  rw [loadMetadata]
  have hfileSize : -2 ^ 63 ≤ m.fileSize ∧ m.fileSize < 2 ^ 63 := hr.fileSize
  have hchunkSize : -2 ^ 63 ≤ m.chunkSize ∧ m.chunkSize < 2 ^ 63 := hr.chunkSize
  have hcount : -2 ^ 63 ≤ m.chunks ∧ m.chunks < 2 ^ 63 := hr.chunks
  simp only [hsig, Buffer.readFront_append, readInt64_append hfileSize,
    readInt64_append hchunkSize, readInt64_append hcount, readByte, hsize]
  rw [if_neg (not_not.mpr rfl), if_neg (by omega)]
  simp only [Int.toNat_natCast, Nat.mul_div_cancel_left _ (by decide : 0 < chunkInfoSize)]
  rfl

/-- Of a table that is written and read back the front is there, and what follows it in the
file is not read. -/
theorem readCleared_tableBytes {t : List ChunkInfo} :
    readCleared (chunkInfoSize * t.length)
        (((tableBytes t).take maxCount ++ rest).take maxCount) =
      tableBytes (keepFront tableEntries clearedEntry t) := by
  rw [readCleared_take (length_tableBytes t), ← chunkInfoSize_mul_tableEntries, tableBytes,
    ← flatMap_keepFront ChunkInfo.length_bytes (x := clearedEntry) (by decide)]
  rfl

/-- **A complete file is read back**, whatever follows the table and whatever the object
held. -/
theorem loadMetadata_append (hm : m.Fits) :
    loadMetadata obj (m.fields.flatten ++ ((tableBytes m.chunkInfo).take maxCount ++ rest)) =
      some m.moved.loaded := by
  rw [loadMetadata_fields hm.header hm.table, readCleared_tableBytes]
  have hdecode := records_tableBytes hm.moved.sizes
  rw [show m.moved.chunkInfo.length = m.chunkInfo.length from length_keepFront] at hdecode
  rw [Metadata.loaded, m.header_moved, ← hdecode]
  rfl

theorem saveMetadata_eq (m : Metadata) (file : List UInt8) : m.saveMetadata file =
    m.fields.flatten ++ ((tableBytes m.chunkInfo).take maxCount ++
      file.drop (headerSize + ((tableBytes m.chunkInfo).take maxCount).length)) := by
  rw [Metadata.saveMetadata, pwriteAll_eq, pwrite_zero, List.flatten_append, List.flatten_singleton,
    List.length_append, length_fields, List.append_assoc]

/-- `UpdateControlData` replaces the table of a saved file and nothing else. -/
theorem writeTable_saveMetadata {t : List ChunkInfo} (ht : t.length = m.chunkInfo.length)
    {updater : Metadata} (hu : updater.chunkInfo = t) :
    updater.writeTable (m.saveMetadata file) = { m with chunkInfo := t }.saveMetadata file := by
  have hfields : ({ m with chunkInfo := t } : Metadata).fields = m.fields := by
    simp only [Metadata.fields, Metadata.chunks, ht]
  have htable : ((tableBytes t).take maxCount).length =
      ((tableBytes m.chunkInfo).take maxCount).length := by
    rw [List.length_take, List.length_take, length_tableBytes, length_tableBytes, ht]
  rw [saveMetadata_eq, saveMetadata_eq, hfields, Metadata.writeTable, hu,
    pwrite_append (length_fields m), pwrite_zero, htable, List.drop_left]

/-- `StoreMetadata` with the sizes of its object writes the header of the object and a new
table. -/
theorem storeMetadata_fields {h : Header} {inUse : UInt8} {fileName : Path} {st_size : Int}
    (hc : 0 ≤ h.chunks) : storeMetadata h inUse fileName st_size h.chunkSize h.chunks file =
      pwriteAll file 0 (((storedHeader h fileName st_size).fresh inUse).fields ++
        [writeControlData (storedHeader h fileName st_size)]) := by
  have hchunks : ((storedHeader h fileName st_size).fresh inUse).chunks = h.chunks :=
    congrArg Header.chunks (Header.fresh_header (h := storedHeader h fileName st_size) hc)
  rw [storeMetadata, Metadata.fields, hchunks]
  rfl

/-- So it saves what the object holds. -/
theorem storeMetadata_eq {h : Header} {inUse : UInt8} {fileName : Path} {st_size : Int}
    (hc : 0 ≤ h.chunks) (hn : h.chunks < 2 ^ 31) :
    storeMetadata h inUse fileName st_size h.chunkSize h.chunks file =
      ((storedHeader h fileName st_size).fresh inUse).saveMetadata file := by
  have htable := Header.not_noTable (h := storedHeader h fileName st_size) hc hn
  rw [storeMetadata_fields hc, writeControlData, if_neg htable]
  rfl

theorem fits_fresh {h : Header} {inUse : UInt8} (hr : h.InRange) (hc : 0 ≤ h.chunks)
    (ht : 32 * h.chunks < 2 ^ 31) : (h.fresh inUse).Fits := by
  have hheader := @Header.fresh_header h inUse hc
  refine ⟨by rw [hheader]; exact hr, fun c hmem => ?_, ?_⟩
  · obtain ⟨i, -, rfl⟩ := List.mem_map.mp hmem
    exact payLoad_range hr.chunkSize
  · rw [show (h.fresh inUse).chunks = h.chunks from congrArg Header.chunks hheader]
    exact ht

/-- What is saved is loaded again, as far as it is moved. -/
theorem loadMetadata_saveMetadata (hm : m.Fits) :
    loadMetadata obj (m.saveMetadata file) = some m.moved.loaded := by
  rw [saveMetadata_eq]
  exact loadMetadata_append hm

theorem loadMetadata_saveMetadata_of_le (hm : m.Fits) (hle : m.chunks ≤ tableEntries) :
    loadMetadata obj (m.saveMetadata file) = some m.loaded := by
  rw [loadMetadata_saveMetadata hm, Metadata.moved_of_le hle]

/-- A new entry is CH_PENDING, so each of them has to be moved. -/
theorem drop_initControlData_iff {h : Header} (hc : 0 ≤ h.chunks) :
    (∀ c ∈ (initControlData h).drop tableEntries, c = clearedEntry) ↔ h.chunks ≤ tableEntries := by
  have hlength : (initControlData h).length = h.chunks.toNat := by simp [initControlData]
  constructor
  · intro hall
    by_contra hlt
    have hindex : tableEntries < (initControlData h).length := by omega
    have hmem : (initControlData h)[tableEntries] ∈ (initControlData h).drop tableEntries :=
      List.mem_drop_iff_getElem.mpr ⟨0, by omega, rfl⟩
    have hstatus := status_of_mem_initControlData (List.mem_of_mem_drop hmem)
    rw [hall _ hmem] at hstatus
    cases hstatus
  · intro hle
    rw [List.drop_of_length_le (by omega)]
    exact List.forall_mem_nil _

theorem loadMetadata_saveMetadata_iff (hm : m.Fits) :
    loadMetadata obj (m.saveMetadata file) = some m.loaded ↔
      ∀ c ∈ m.chunkInfo.drop tableEntries, c = clearedEntry := by
  rw [loadMetadata_saveMetadata hm, Option.some_inj, ← Metadata.moved_eq_iff]
  exact ⟨Metadata.loaded_inj, congrArg Metadata.loaded⟩

theorem loadMetadata_fresh_iff {h : Header} {inUse : UInt8} (hr : h.InRange) (hc : 0 ≤ h.chunks)
    (ht : 32 * h.chunks < 2 ^ 31) :
    loadMetadata obj ((h.fresh inUse).saveMetadata file) = some (h.fresh inUse).loaded ↔
      h.chunks ≤ tableEntries :=
  (loadMetadata_saveMetadata_iff (fits_fresh hr hc ht)).trans (drop_initControlData_iff hc)

/-- A table of the same length that fits can take the place of the old one. -/
theorem Metadata.Fits.updateControlData (hm : m.Fits) {updater : Metadata}
    (hlength : updater.chunkInfo.length = m.chunkInfo.length)
    (hsizes : ∀ c ∈ updater.chunkInfo, -2 ^ 63 ≤ c.size ∧ c.size < 2 ^ 63) :
    (updater.updateControlData m).Fits := by
  have hchunks : (updater.updateControlData m).chunks = m.chunks := congrArg Nat.cast hlength
  have hheader : (updater.updateControlData m).header = m.header := by
    rw [Metadata.header, hchunks]
    rfl
  refine ⟨hheader ▸ hm.header, hsizes, ?_⟩
  rw [hchunks]
  exact hm.table

end Load

/-- **When the three writers and the reader agree.**  Whatever the file and the reading object
held before, `LoadMetadata` finds what `SaveMetadata` had in memory, and after
`UpdateControlData` the table of the updater and everything else as it was in the file, exactly
if the entries behind the front of that table are zero; and it finds what `StoreMetadata` had in
memory exactly if the table has no more entries than one `write` moves. -/
theorem writers_and_reader_agree_iff (obj : Loaded) (file : List UInt8) :
    (∀ m : Metadata, m.Fits → (loadMetadata obj (m.saveMetadata file) = some m.loaded ↔
      ∀ c ∈ m.chunkInfo.drop tableEntries, c = clearedEntry)) ∧
    (∀ (h : Header) (inUse : UInt8) (fileName : Path) (st_size : Int),
      (storedHeader h fileName st_size).InRange → 0 ≤ h.chunks → 32 * h.chunks < 2 ^ 31 →
      (loadMetadata obj (storeMetadata h inUse fileName st_size h.chunkSize h.chunks file) =
        some ((storedHeader h fileName st_size).fresh inUse).loaded ↔ h.chunks ≤ tableEntries)) ∧
    (∀ m updater : Metadata, m.Fits → updater.chunkInfo.length = m.chunkInfo.length →
      (∀ c ∈ updater.chunkInfo, -2 ^ 63 ≤ c.size ∧ c.size < 2 ^ 63) →
      (loadMetadata obj (updater.writeTable (m.saveMetadata file)) =
        some (updater.updateControlData m).loaded ↔
          ∀ c ∈ updater.chunkInfo.drop tableEntries, c = clearedEntry)) := by
  refine ⟨fun m hm => loadMetadata_saveMetadata_iff hm,
    fun h inUse fileName st_size hr hc ht => ?_, fun m updater hm hlength hsizes => ?_⟩
  · rw [storeMetadata_eq hc (by omega)]
    exact loadMetadata_fresh_iff hr hc ht
  · rw [writeTable_saveMetadata hlength rfl]
    exact loadMetadata_saveMetadata_iff (hm.updateControlData hlength hsizes)

/-- A file of three bytes in chunks of two. -/
def sampleHeader : Header := ⟨Buffer.zero _, 3, Buffer.zero _, 2, 2⟩

def sampleMetadata : Metadata := sampleHeader.fresh 1

theorem fits_sampleMetadata : sampleMetadata.Fits :=
  fits_fresh ⟨by decide, by decide, by decide⟩ (by decide) (by decide)

/-- A chunk is settled in a file saved with in_use 1, by an updater that has 0. -/
def sampleUpdater : Metadata :=
  (sampleMetadata.setInUse 0).setChunkStatus 1 .chOk (some (Buffer.zero _))

theorem writers_and_reader_agree_sample :
    loadMetadata sampleMetadata.loaded (sampleUpdater.writeTable (sampleMetadata.saveMetadata [])) =
      some (sampleUpdater.updateControlData sampleMetadata).loaded :=
  ((writers_and_reader_agree_iff sampleMetadata.loaded []).2.2 sampleMetadata sampleUpdater
    fits_sampleMetadata (by decide) (by decide)).mpr (by
      rw [List.drop_of_length_le (by rw [tableEntries_eq]; decide)]
      exact List.forall_mem_nil _)

/-- A file of one byte more than there are entries in one `write`, in chunks of one byte. -/
def longHeader : Header := ⟨Buffer.zero _, 67108737, Buffer.zero _, 1, 67108737⟩

/-- The last chunk of it is CH_PENDING where it is saved, and CH_OK where it is loaded. -/
theorem writers_and_reader_agree_fails :
    (longHeader.fresh 0).Fits ∧
      loadMetadata sampleMetadata.loaded ((longHeader.fresh 0).saveMetadata []) ≠
        some (longHeader.fresh 0).loaded := by
  have hchunks : longHeader.chunks = 67108737 := rfl
  have hrange : longHeader.InRange := ⟨by decide, by decide, by decide⟩
  refine ⟨fits_fresh hrange (by omega) (by omega), fun h => ?_⟩
  have hle := (loadMetadata_fresh_iff hrange (by omega) (by omega)).mp h
  rw [tableEntries_eq] at hle
  omega

end Mhftp
