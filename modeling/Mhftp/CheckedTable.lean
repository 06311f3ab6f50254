import Mhftp.CheckTool
import Mhftp.MetadataCut

/-! # What a check writes

`CheckDataChunks` on the bytes of a .mdata file: it loads the file, goes through the data
file, and saves the table if the file is not in use.  The chunks that it is to mark are exactly
the CH_OK ones whose bytes, cut at the end of the data file, have another MD5 than the stored
one.  It does so if their number is an int, which `md5Buffer` takes, and if there is a buffer
for them (`check_marks_damaged_iff`).
-/

namespace Mhftp
open Library

/-- The .mdata file after `CheckDataChunks`, where `m` is what `LoadMetadata` has read. -/
def Metadata.checkDataChunksFile (md5 : Md5) (m : Metadata) (mdata file : List UInt8) :
    Option (List UInt8) :=
  (checkChunks md5 file m.chunkSize 0 m.chunkInfo).map fun chunkInfo =>
    if m.inUse = 0 then ({ m with chunkInfo } : Metadata).saveMetadata mdata else mdata

/-- The entry of chunk `k` with the mark that a check of the data file `g` is to set. -/
def damageMarked (md5 : Md5) (g : List UInt8) (chunkSize : Int) (k : Nat) (c : ChunkInfo) :
    ChunkInfo :=
  if c.status = .chOk ∧ md5 (pread g (k * chunkSize).toNat c.size.toNat) ≠ c.md5sum then
    { c with status := .chError }
  else c

/-- The digest that `md5Buffer` comes to differs from the stored one exactly if that of all the
bytes does: their number is an int, or it is one in its low 32 bits and so many bytes tell the
same. -/
def DigestTells (md5 : Md5) (bytes : List UInt8) (md5sum : Digest) : Prop :=
  bytes.length < 2 ^ 31 ∨ (bytes.length % 2 ^ 32 < 2 ^ 31 ∧
    (md5 (bytes.take (bytes.length % 2 ^ 32)) = md5sum ↔ md5 bytes = md5sum))

/-- Each CH_OK chunk has a buffer and a digest that tells. -/
def Metadata.Checkable (md5 : Md5) (m : Metadata) (g : List UInt8) : Prop :=
  ∀ (k : Nat) c, m.chunkInfo[k]? = some c → c.status = .chOk →
    let bytes := pread g (k * m.chunkSize).toNat c.size.toNat
    ¬ ReadsNowhere m.chunkSize c.size bytes ∧ DigestTells md5 bytes c.md5sum

section Fits
variable {obj : Loaded} {mdata : List UInt8} {m : Metadata}

theorem overlayInt_range (x : Int) (bytes : List UInt8) :
    -2 ^ 63 ≤ Wire.overlayInt x bytes ∧ Wire.overlayInt x bytes < 2 ^ 63 := by
  have hbounds := decodeInt_bounds
    ((⟨encodeInt 8 x, length_encodeInt 8 x⟩ : Buffer 8).overlay bytes).bytes
  rw [Buffer.length] at hbounds
  unfold Wire.overlayInt
  omega

/-- `n` bytes at most make a number of `n` bytes. -/
theorem decodeInt_take_bounds (bytes : List UInt8) (n : Nat) :
    -(256 ^ n) ≤ 2 * decodeInt (bytes.take n) ∧ 2 * decodeInt (bytes.take n) < 256 ^ n := by
  have hlen : (bytes.take n).length ≤ n := List.length_take_le _ _
  have hbounds := decodeInt_bounds (bytes.take n)
  have hpow : (256 : Int) ^ (bytes.take n).length ≤ 256 ^ n := by
    exact_mod_cast Nat.pow_le_pow_right (by decide) hlen
  omega

/-- Behind what one `read` moves the memory is clear. -/
theorem entryIn_of_le {file : List UInt8} {size i : Nat} (hi : tableEntries ≤ i)
    (hsize : chunkInfoSize * (i + 1) ≤ size) : entryIn file size i = clearedEntry.entry := by
  have hmax := chunkInfoSize_mul_tableEntries
  have hle := Nat.mul_le_mul_left chunkInfoSize hi
  rw [entryIn_eq hsize, Nat.sub_eq_zero_of_le (by omega), List.take_zero]
  decide

/-- The numbers fit into their fields, and the table has as many entries as there are in the
memory that was allocated for it; that is clear behind what one `read` moves. -/
structure Loaded.Fits (l : Loaded) : Prop where
  header : l.header.InRange
  sizes : ∀ c ∈ l.chunkInfo, -2 ^ 63 ≤ c.size ∧ c.size < 2 ^ 63
  statuses : ∀ c ∈ l.chunkInfo, -2 ^ 31 ≤ c.status ∧ c.status < 2 ^ 31
  table : l.chunkInfo.length = (chunkArraySize l.header.chunks).toNat / chunkInfoSize
  moved : ∀ c ∈ l.chunkInfo.drop tableEntries, c = clearedEntry.entry

/-- **What has been loaded fits into its fields.** -/
theorem Loaded.fits_of_loadMetadata {l : Loaded} (h : loadMetadata obj mdata = some l) :
    l.Fits := by
  rw [loadMetadata_eq] at h
  split at h
  · cases h
  · split at h
    · cases h
    · obtain rfl := Option.some.inj h
      have hentry : ∀ c ∈ (loadedIn obj mdata).chunkInfo, ∃ bytes, c = .decode bytes := by
        intro c hc
        obtain ⟨i, -, rfl⟩ := List.mem_map.mp hc
        exact ⟨_, rfl⟩
      refine ⟨⟨overlayInt_range _ _, overlayInt_range _ _, overlayInt_range _ _⟩, fun c hc => ?_,
        fun c hc => ?_, ?_, fun c hc => ?_⟩
      · obtain ⟨bytes, rfl⟩ := hentry c hc
        have := decodeInt_take_bounds (bytes.drop 16) 8
        show _ ≤ decodeInt _ ∧ decodeInt _ < _
        omega
      · obtain ⟨bytes, rfl⟩ := hentry c hc
        have := decodeInt_take_bounds (bytes.drop 24) 4
        show _ ≤ decodeInt _ ∧ decodeInt _ < _
        omega
      · show (List.map _ _).length = _
        rw [List.length_map, List.length_range]
        rfl
      · obtain ⟨j, hj, rfl⟩ := List.mem_drop_iff_getElem.mp hc
        have hlt := hj
        simp only [loadedIn, List.length_map, List.length_range] at hlt
        simp only [loadedIn, List.getElem_map, List.getElem_range]
        refine entryIn_of_le (by omega) ?_
        rw [Nat.mul_comm]
        exact (Nat.le_div_iff_mul_le (by decide)).mp (by omega)

theorem fits_of_loadMetadata (h : loadMetadata obj mdata = some m.loaded) : m.Fits := by
  have hl := Loaded.fits_of_loadMetadata h
  refine ⟨hl.header, fun c hc => hl.sizes c.entry (List.mem_map_of_mem hc), ?_⟩
  -- the table has room for as many entries as an int can say
  have hlength := hl.table
  have hlt := Int.bmod_lt (x := chunkInfoSize * m.chunks) (m := 2 ^ 32) (by decide)
  have hle : (m.chunks : Int) = m.chunkInfo.length := rfl
  rw [show m.loaded.chunkInfo.length = m.chunkInfo.length from List.length_map _,
    show m.loaded.header.chunks = m.chunks from rfl] at hlength
  unfold chunkArraySize at hlength
  unfold chunkInfoSize at hlength hlt
  omega

/-- What has been loaded is all of what has been moved. -/
theorem moved_of_loadMetadata (h : loadMetadata obj mdata = some m.loaded) : m.moved = m := by
  refine Metadata.moved_eq_iff.mpr fun c hc => ChunkInfo.entry_inj ?_
  refine (Loaded.fits_of_loadMetadata h).moved c.entry ?_
  rw [Metadata.loaded, ← List.map_drop]
  exact List.mem_map_of_mem hc

end Fits

section Damage
variable {md5 : Md5} {g : List UInt8} {h : Header} {m : Metadata}

/-- A file of as many bytes. -/
def fileOf (h : Header) (hc : 1 ≤ h.chunkSize) : ChunkedFile where
  content := List.replicate h.fileSize.toNat 0
  chunkSize := h.chunkSize.toNat
  one_le := by omega

theorem length_fileOf (hc : 1 ≤ h.chunkSize) (hf : 0 ≤ h.fileSize) :
    ((fileOf h hc).content.length : Int) = h.fileSize := by
  rw [fileOf, List.length_replicate, Int.toNat_of_nonneg hf]

/-- A table with the sizes of `initControlData` is one for that file. -/
theorem sizes_fileOf (hf : 0 ≤ h.fileSize ∧ h.fileSize < 2 ^ 63) (hc : 1 ≤ h.chunkSize)
    (hcount : h.chunks = chunkCount h.fileSize h.chunkSize) (hchunkSize : m.chunkSize = h.chunkSize)
    (hsizes : m.chunkInfo.map ChunkInfo.size = (initControlData h).map ChunkInfo.size) :
    (fileOf h hc).Sizes m := by
  have hlength := length_fileOf hc hf.1
  have hcast : ((fileOf h hc).chunkSize : Int) = h.chunkSize := Int.toNat_of_nonneg (by omega)
  refine ⟨hchunkSize.trans hcast.symm, fun k c hk => ?_⟩
  have hsize : ((initControlData h).map ChunkInfo.size)[k]? = some c.size := by
    rw [← hsizes, List.getElem?_map, hk]
    rfl
  have hlt := (List.getElem?_eq_some_iff.mp hsize).1
  rw [List.length_map, initControlData, List.length_map, List.length_range] at hlt
  have hhas : (fileOf h hc).Has k := by
    unfold ChunkedFile.Has
    rw [hlength, hcast, ← hcount]
    omega
  refine ⟨hhas, ?_⟩
  rw [List.getElem?_map, getElem?_initControlData (by omega)] at hsize
  rw [← hhas.payLoad_eq (by omega), hlength, hcast]
  exact (Option.some.inj hsize).symm

/-- The bytes of a chunk of such a table. -/
theorem slice_fileOf {hc : 1 ≤ h.chunkSize} (hm : (fileOf h hc).Sizes m) {k : Nat} {c : ChunkInfo}
    (hk : m.chunkInfo[k]? = some c) :
    (fileOf h hc).slice g k = pread g (k * m.chunkSize).toNat c.size.toNat := by
  have hplace : ((k : Int) * m.chunkSize).toNat = k * (fileOf h hc).chunkSize := by
    rw [hm.chunkSize, ← Int.natCast_mul, Int.toNat_natCast]
  rw [ChunkedFile.slice, (hm.entry k c hk).2, Int.toNat_natCast, hplace]

theorem checked_fileOf {hc : 1 ≤ h.chunkSize} (hm : (fileOf h hc).Sizes m) {k : Nat} {c : ChunkInfo}
    (hk : m.chunkInfo[k]? = some c) :
    (fileOf h hc).checked md5 g k c = damageMarked md5 g m.chunkSize k c := by
  rw [damageMarked, ← slice_fileOf hm hk]
  rfl

/-- A digest that tells is one. -/
theorem digestTells_iff {bytes : List UInt8} {md5sum : Digest} : DigestTells md5 bytes md5sum ↔
    ∃ digest, md5Buffer md5 bytes = some digest ∧ (digest = md5sum ↔ md5 bytes = md5sum) := by
  unfold DigestTells
  by_cases hlt : bytes.length < 2 ^ 31
  · rw [md5Buffer_of_lt md5 hlt]
    exact iff_of_true (.inl hlt) ⟨_, rfl, Iff.rfl⟩
  · rw [or_iff_right hlt, md5Buffer]
    simp

/-- A turn does what it is to do exactly if the chunk has a buffer and a digest that tells. -/
theorem turned_eq_some_iff {src : ChunkedFile} {k : Nat} {c : ChunkInfo} :
    src.turned md5 g k c = some (src.checked md5 g k c) ↔ (c.status = .chOk →
      ¬ ReadsNowhere src.chunkSize c.size (src.slice g k) ∧
        DigestTells md5 (src.slice g k) c.md5sum) := by
  unfold ChunkedFile.turned ChunkedFile.checked
  by_cases hok : c.status = .chOk
  · have hne : ({ c with status := .chError } : ChunkInfo) ≠ c := fun h => by
      rw [← h] at hok
      cases hok
    rw [if_pos hok, digestTells_iff, forall_prop_of_true hok]
    by_cases hnowhere : ReadsNowhere src.chunkSize c.size (src.slice g k)
    · simp [hnowhere]
    · rw [if_neg hnowhere, Option.map_eq_some_iff, and_iff_right hnowhere]
      refine exists_congr fun digest => and_congr_right fun _ => ?_
      by_cases h₁ : digest = c.md5sum <;> by_cases h₂ : md5 (src.slice g k) = c.md5sum <;>
        simp [hok, h₁, h₂, hne, hne.symm]
  · simp [hok]

/-- What is to be marked in such a table. -/
theorem marked_fileOf {hc : 1 ≤ h.chunkSize} (hm : (fileOf h hc).Sizes m) :
    m.chunkInfo.mapIdx ((fileOf h hc).checked md5 g) =
      m.chunkInfo.mapIdx (damageMarked md5 g m.chunkSize) := by
  refine List.ext_getElem? fun k => ?_
  rw [List.getElem?_mapIdx, List.getElem?_mapIdx]
  cases hk : m.chunkInfo[k]? with
  | none => rfl
  | some c => exact congrArg some (checked_fileOf hm hk)

theorem checkable_fileOf {hc : 1 ≤ h.chunkSize} (hm : (fileOf h hc).Sizes m) :
    m.Checkable md5 g ↔ ∀ (k : Nat) c, m.chunkInfo[k]? = some c →
      (fileOf h hc).turned md5 g k c = some ((fileOf h hc).checked md5 g k c) := by
  refine forall_congr' fun k => forall_congr' fun c => forall_congr' fun hk => ?_
  rw [turned_eq_some_iff, slice_fileOf hm hk, ← hm.chunkSize]

/-- A table that has been loaded with the sizes of chunks is all of it. -/
theorem chunks_le_of_sizes {src : ChunkedFile} (hm : src.Sizes m) (hmoved : m.moved = m) :
    m.chunks ≤ tableEntries := by
  by_contra hlt
  unfold Metadata.chunks at hlt
  have hk : tableEntries < m.chunkInfo.length := by omega
  obtain ⟨hhas, hsize⟩ := hm.entry _ _ (List.getElem?_eq_getElem hk)
  have hclear : m.chunkInfo[tableEntries] = clearedEntry :=
    Metadata.moved_eq_iff.mp hmoved _ (List.mem_drop_iff_getElem.mpr ⟨0, by omega, rfl⟩)
  rw [hclear] at hsize
  have hplace := hhas.lt
  have hone := src.one_le
  have hmin : src.size tableEntries = min src.chunkSize _ := rfl
  rw [show clearedEntry.size = 0 from rfl] at hsize
  omega

/-- What a scan comes to is saved and loaded again: the sizes are the same. -/
theorem loadMetadata_scanned {src : ChunkedFile} (hsrc : src.Sizes m)
    (hlen : src.content.length < 2 ^ 63) (hm : m.Fits) (hle : m.chunks ≤ tableEntries)
    {table : List ChunkInfo}
    (hscan : Metadata.checkChunks md5 g m.chunkSize 0 m.chunkInfo = some table)
    (obj : Loaded) (mdata : List UInt8) :
    loadMetadata obj (({ m with chunkInfo := table } : Metadata).saveMetadata mdata) =
      some ({ m with chunkInfo := table } : Metadata).loaded := by
  obtain ⟨hlength, hturned⟩ := (hsrc.checkChunks_eq_some_iff md5 hlen).mp hscan
  let updater : Metadata := { m with chunkInfo := table }
  have hchunks : updater.chunks = m.chunks := congrArg Nat.cast hlength
  suffices hfits : (updater.updateControlData m).Fits from
    loadMetadata_saveMetadata_of_le hfits (hchunks ▸ hle)
  refine hm.updateControlData hlength fun c hmem => ?_
  obtain ⟨k, hk⟩ := List.getElem?_of_mem hmem
  have hlt : k < m.chunkInfo.length := hlength ▸ (List.getElem?_eq_some_iff.mp hk).1
  obtain ⟨c', hc', hturn⟩ := hturned k _ (List.getElem?_eq_getElem hlt)
  obtain rfl := Option.some.inj (hk.symm.trans hc')
  rw [ChunkedFile.size_of_turned md5 hturn]
  exact hm.sizes _ (List.getElem_mem hlt)

end Damage

/-- **When the check tool marks the damaged chunks and nothing else.**  For a table that has the
sizes of a file's chunks, any statuses and md5sums, and any data file: if the .mdata file is in
use it stays as it was, and else what is loaded from it afterwards is what was there before, with
the damaged CH_OK chunks marked, exactly if it is in use or each CH_OK chunk has a buffer and a
digest that tells. -/
theorem check_marks_damaged_iff (md5 : Md5) {obj : Loaded} {mdata : List UInt8} {m : Metadata}
    (hload : loadMetadata obj mdata = some m.loaded) {h : Header}
    (hf : 0 ≤ h.fileSize ∧ h.fileSize < 2 ^ 63) (hc : 1 ≤ h.chunkSize)
    (hcount : h.chunks = chunkCount h.fileSize h.chunkSize) (hchunkSize : m.chunkSize = h.chunkSize)
    (hsizes : m.chunkInfo.map ChunkInfo.size = (initControlData h).map ChunkInfo.size)
    (g : List UInt8) :
    ((m.inUse ≠ 0 → (m.checkDataChunksFile md5 mdata g).getD mdata = mdata) ∧
      (m.inUse = 0 → ∃ mdata', m.checkDataChunksFile md5 mdata g = some mdata' ∧
        ∀ obj, loadMetadata obj mdata' = some { m with
          chunkInfo := m.chunkInfo.mapIdx (damageMarked md5 g m.chunkSize) }.loaded)) ↔
      m.inUse ≠ 0 ∨ m.Checkable md5 g := by
  have hm := sizes_fileOf hf hc hcount hchunkSize hsizes
  have hlen : (fileOf h hc).content.length < 2 ^ 63 := by
    have hlength := length_fileOf hc hf.1
    omega
  have hsaved {table : List ChunkInfo}
      (hscan : Metadata.checkChunks md5 g m.chunkSize 0 m.chunkInfo = some table) :=
    loadMetadata_scanned hm hlen (fits_of_loadMetadata hload)
      (chunks_le_of_sizes hm (moved_of_loadMetadata hload)) hscan
  rw [checkable_fileOf hm, ← hm.checkChunks_checked_iff md5 hlen, marked_fileOf hm]
  constructor
  · rintro ⟨-, hmarks⟩
    refine or_iff_not_imp_left.mpr fun huse => ?_
    have hfree : m.inUse = 0 := not_not.mp huse
    obtain ⟨mdata', hcheck, hagain⟩ := hmarks hfree
    obtain ⟨table, hscan, rfl⟩ := Option.map_eq_some_iff.mp hcheck
    -- what is saved is loaded, so that it is the marked table
    have hagain := hagain obj
    rw [if_pos hfree, hsaved hscan, Option.some_inj] at hagain
    rw [hscan]
    exact congrArg (fun marked => some marked.chunkInfo) (Metadata.loaded_inj hagain)
  · intro hor
    refine ⟨fun huse => ?_, fun hfree => ?_⟩
    · unfold Metadata.checkDataChunksFile
      cases Metadata.checkChunks md5 g m.chunkSize 0 m.chunkInfo with
      | none => rfl
      | some table => exact if_neg huse
    · have hscan := hor.resolve_left (not_not.mpr hfree)
      refine ⟨_, ?_, fun obj => hsaved hscan obj mdata⟩
      rw [Metadata.checkDataChunksFile, hscan, Option.map_some, if_pos hfree]

/-- The second chunk is CH_OK, and its byte is no longer there. -/
theorem check_marks_damaged_sample :
    (sampleUpdater.inUse ≠ 0 → (sampleUpdater.checkDataChunksFile
      (fun _ => ⟨List.replicate 16 1, by decide⟩) (sampleUpdater.saveMetadata []) [7, 7]).getD
        (sampleUpdater.saveMetadata []) = sampleUpdater.saveMetadata []) ∧
    (sampleUpdater.inUse = 0 → ∃ mdata', sampleUpdater.checkDataChunksFile
        (fun _ => ⟨List.replicate 16 1, by decide⟩) (sampleUpdater.saveMetadata []) [7, 7] =
          some mdata' ∧
      ∀ obj, loadMetadata obj mdata' = some
        { sampleUpdater with
          chunkInfo := [⟨Buffer.zero _, 2, .chPending⟩,
            ⟨Buffer.zero _, 1, .chError⟩] }.loaded) := by
  have hload : loadMetadata sampleMetadata.loaded (sampleUpdater.saveMetadata []) =
      some sampleUpdater.loaded :=
    loadMetadata_saveMetadata_of_le ⟨⟨by decide, by decide, by decide⟩, by decide, by decide⟩
      (by rw [tableEntries_eq]; decide)
  have hcheckable : sampleUpdater.Checkable (fun _ => ⟨List.replicate 16 1, by decide⟩) [7, 7] := by
    refine fun k c _ _ => ⟨fun h => absurd h.1 (by decide), .inl ?_⟩
    have hlength : (pread [7, 7] (k * sampleUpdater.chunkSize).toNat c.size.toNat).length ≤ 2 :=
      (List.length_take_le' _ _).trans (by simp)
    omega
  exact (check_marks_damaged_iff (fun _ => ⟨List.replicate 16 1, by decide⟩) hload
    (h := sampleHeader) (by decide) (by decide) (by decide) rfl (by decide) [7, 7]).mpr
      (.inr hcheckable)

/-- A file of `n` zeros in one chunk that is CH_OK, for an MD5 of zero. -/
def longChunk (n : Nat) : Metadata where
  digest := Buffer.zero _
  fileSize := n
  fileFull := Buffer.zero _
  chunkSize := n
  chunkInfo := [⟨Buffer.zero _, n, .chOk⟩]
  inUse := 0

theorem checkDataChunksFile_longChunk (md5 : Md5) {n : Nat} (hn : 2 ^ 31 ≤ n % 2 ^ 32)
    (mdata : List UInt8) :
    (longChunk n).checkDataChunksFile md5 mdata (List.replicate n 0) = none := by
  have hlength : (pread (List.replicate n (0 : UInt8)) 0 n).length = n := by
    rw [pread, List.drop_zero, List.length_take, List.length_replicate, min_self]
  have hnone : Metadata.checkChunk md5 (List.replicate n 0) n 0 ⟨Buffer.zero _, n, .chOk⟩ = none :=
    Metadata.checkChunk_none md5 rfl (by rw [Int.toNat_natCast, hlength]; exact hn)
  simp only [Metadata.checkDataChunksFile, longChunk, Metadata.checkChunks, hnone, Option.bind_none,
    Option.map_none]

/-- A chunk of 2^31 bytes that nobody has changed: the process dies over it. -/
theorem check_marks_damaged_fails :
    loadMetadata sampleMetadata.loaded ((longChunk 2147483648).saveMetadata []) =
      some (longChunk 2147483648).loaded ∧
    ¬ ∃ mdata', (longChunk 2147483648).checkDataChunksFile (fun _ => Buffer.zero _)
      ((longChunk 2147483648).saveMetadata []) (List.replicate 2147483648 0) = some mdata' := by
  constructor
  · exact loadMetadata_saveMetadata_of_le
      ⟨⟨by decide, by decide, by decide⟩, by decide, by decide⟩ (by rw [tableEntries_eq]; decide)
  · rw [checkDataChunksFile_longChunk _ (by decide)]
    exact nofun

end Mhftp
