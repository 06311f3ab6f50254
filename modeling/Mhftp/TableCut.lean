import Mhftp.MetadataFile

/-! # A table update cut short

`UpdateControlData` writes the whole table in place.  When the process that writes it is
stopped the file has the new table up to some byte, and the old one from there on.  Only one
entry differs between the two, the md5sum stands in front of the status in it, and the
numbers of the statuses differ in one byte: `LoadMetadata` finds each other entry as it was,
and the new status only behind the whole new md5sum (`cut_update`).
-/

namespace Mhftp
open Library

/-- What a worker does to the status of a chunk: it claims it, or finishes it with a digest. -/
inductive WorkerTransition : ChunkStatus → ChunkStatus → Option Digest → Prop
  | claims {old new : ChunkStatus} : old = .chPending ∨ old = .chError →
      new = .chDownload ∨ new = .chUpload → WorkerTransition old new none
  | finishes {old new : ChunkStatus} {digest : Digest} : old = .chDownload ∨ old = .chUpload →
      new = .chOk ∨ new = .chError → WorkerTransition old new (some digest)

/-- The file after `UpdateControlData`, of whose write only the first `b` bytes have come
through. -/
def Metadata.writeTableCut (m : Metadata) (b : Nat) (file : List UInt8) : List UInt8 :=
  pwrite file headerSize (((tableBytes m.chunkInfo).take maxCount).take b)

/-! ### An entry cut short -/

section Entry
variable {c d : ChunkInfo}

/-- The memory of an entry: where its fields are. -/
theorem pread_md5sum (c : ChunkInfo) : pread c.bytes 0 16 = c.md5sum.bytes :=
  List.take_left' c.md5sum.length

theorem pread_size (c : ChunkInfo) : pread c.bytes 16 8 = encodeInt 8 c.size := by
  have hdigest : c.md5sum.bytes.length = 16 := c.md5sum.length
  unfold pread ChunkInfo.bytes
  rw [List.drop_left' hdigest, List.take_left' (length_encodeInt 8 _)]

theorem pread_status (c : ChunkInfo) : pread c.bytes 24 4 = encodeInt 4 c.status.code := by
  have hdigest : c.md5sum.bytes.length = 16 := c.md5sum.length
  unfold pread ChunkInfo.bytes
  rw [show 24 = 16 + 8 from rfl, ← List.drop_drop, List.drop_left' hdigest,
    List.drop_left' (length_encodeInt 8 _), List.take_left' (length_encodeInt 4 _)]

theorem ChunkEntry.decode_eq (bytes : List UInt8) : decode bytes =
    ⟨(Buffer.zero _).overlay (pread bytes 0 16), decodeInt (pread bytes 16 8),
      decodeInt (pread bytes 24 4)⟩ := rfl

/-- Numbers of statuses differ in their first byte. -/
theorem decodeInt_status_cut (old new : ChunkStatus) (r : Nat) :
    decodeInt ((encodeInt 4 new.code).take r ++ (encodeInt 4 old.code).drop r) =
      if r = 0 then old.code else new.code := by
  have hbytes (s : ChunkStatus) : encodeInt 4 s.code = UInt8.ofNat s.code.toNat :: [0, 0, 0] := by
    cases s <;> decide
  have hdecode (s : ChunkStatus) : decodeInt (UInt8.ofNat s.code.toNat :: [0, 0, 0]) = s.code := by
    cases s <;> decide
  rw [hbytes, hbytes]
  cases r with
  | zero => exact hdecode old
  | succ r =>
    rw [List.take_succ_cons, List.drop_succ_cons, List.cons_append, List.take_append_drop,
      if_neg (Nat.succ_ne_zero r)]
    exact hdecode new

/-- The first `r` bytes of an entry have been written over one of the same size. -/
theorem decode_cut (hsize : d.size = c.size) (hrange : -2 ^ 63 ≤ c.size ∧ c.size < 2 ^ 63)
    (r : Nat) :
    (ChunkEntry.decode (d.bytes.take r ++ c.bytes.drop r)).size = c.size ∧
      (ChunkEntry.decode (d.bytes.take r ++ c.bytes.drop r)).status =
        (if r ≤ 24 then c.status.code else d.status.code) ∧
      (16 ≤ r → (ChunkEntry.decode (d.bytes.take r ++ c.bytes.drop r)).md5sum = d.md5sum) := by
  have hlength : d.bytes.length = c.bytes.length := by
    rw [ChunkInfo.length_bytes, ChunkInfo.length_bytes]
  simp only [ChunkEntry.decode_eq, pread_take_append_drop hlength, pread_md5sum, pread_size,
    pread_status, hsize, List.take_append_drop]
  refine ⟨decodeInt_encodeInt_of_range (by omega) (by omega), ?_, fun hr => ?_⟩
  · rw [decodeInt_status_cut]
    exact if_congr (by omega) rfl rfl
  · rw [List.take_of_length_le (by rw [d.md5sum.length, digestSize]; omega),
      List.drop_of_length_le (by rw [c.md5sum.length, digestSize]; omega), List.append_nil]
    exact Buffer.overlay_self _ _

end Entry

/-! ### The table -/

section Table
variable {m u : Metadata} {b j : Nat} {file : List UInt8}

/-- The table of a file whose update has been cut: the front of the new one and the rest of
the old one. -/
def mixedTable (u m : Metadata) (b : Nat) : List UInt8 :=
  (tableBytes u.chunkInfo).take b ++ (tableBytes m.chunkInfo).drop b

theorem length_mixedTable (b : Nat) (hlength : u.chunkInfo.length = m.chunkInfo.length) :
    (mixedTable u m b).length = chunkInfoSize * m.chunkInfo.length := by
  rw [mixedTable, List.length_append, List.length_take, List.length_drop, length_tableBytes,
    length_tableBytes, hlength]
  omega

/-- The file has the front of the new table and the rest of the old one. -/
theorem writeTableCut_saveMetadata (file : List UInt8) (b : Nat)
    (hlength : u.chunkInfo.length = m.chunkInfo.length) :
    ∃ rest, u.writeTableCut b (m.saveMetadata file) = m.fields.flatten ++
      ((mixedTable u m (min b maxCount)).take maxCount ++ rest) := by
  have htable : (tableBytes u.chunkInfo).length = (tableBytes m.chunkInfo).length := by
    rw [length_tableBytes, length_tableBytes, hlength]
  have hmixed : (mixedTable u m (min b maxCount)).take maxCount =
      (tableBytes u.chunkInfo).take (min b maxCount) ++ ((tableBytes m.chunkInfo).take
        maxCount).drop (min (min b maxCount) (tableBytes u.chunkInfo).length) := by
    have hle : min b maxCount ≤ maxCount := min_le_right _ _
    generalize min b maxCount = n at hle
    rw [mixedTable, List.take_append, List.take_take, min_eq_right hle, List.length_take,
      List.drop_take]
    by_cases hn : n ≤ (tableBytes u.chunkInfo).length
    · rw [min_eq_left hn]
    · rw [min_eq_right (by omega), List.drop_of_length_le (by omega),
        List.drop_of_length_le (l := tableBytes m.chunkInfo) (by omega), List.take_nil]
  refine ⟨file.drop (headerSize + ((tableBytes m.chunkInfo).take maxCount).length), ?_⟩
  rw [Metadata.writeTableCut, saveMetadata_eq, pwrite_append (length_fields m), pwrite_zero,
    List.take_take, List.length_take, List.drop_append_of_le_length (by
      rw [List.length_take]; omega), hmixed, List.append_assoc]

/-- What is not moved of a table that has been loaded is zero. -/
theorem drop_tableBytes (hm : m.moved = m) : (tableBytes m.chunkInfo).drop maxCount =
    List.replicate (chunkInfoSize * m.chunkInfo.length - maxCount) 0 := by
  have hsplit : (keepFront tableEntries clearedEntry m.chunkInfo).flatMap ChunkInfo.bytes = _ :=
    flatMap_keepFront ChunkInfo.length_bytes (by decide)
  have hmoved : keepFront tableEntries clearedEntry m.chunkInfo = m.chunkInfo :=
    congrArg Metadata.chunkInfo hm
  rw [hmoved, chunkInfoSize_mul_tableEntries] at hsplit
  refine (List.append_right_inj ((tableBytes m.chunkInfo).take maxCount)).mp ?_
  rw [List.take_append_drop]
  exact hsplit

/-- The whole of the mixed table is read. -/
theorem readCleared_mixedTable (hm : m.moved = m) (b : Nat) {rest : List UInt8}
    (hlength : u.chunkInfo.length = m.chunkInfo.length) :
    readCleared (chunkInfoSize * m.chunkInfo.length)
        (((mixedTable u m (min b maxCount)).take maxCount ++ rest).take maxCount) =
      mixedTable u m (min b maxCount) := by
  have htable : (tableBytes u.chunkInfo).length = (tableBytes m.chunkInfo).length := by
    rw [length_tableBytes, length_tableBytes, hlength]
  have hdrop : (mixedTable u m (min b maxCount)).drop maxCount =
      (tableBytes m.chunkInfo).drop maxCount := by
    rw [mixedTable, List.drop_append, List.drop_take, Nat.sub_eq_zero_of_le (min_le_right _ _),
      List.take_zero, List.nil_append, List.drop_drop, List.length_take]
    by_cases hb : min b maxCount ≤ (tableBytes u.chunkInfo).length
    · rw [min_eq_left hb]
      congr 1
      omega
    · rw [List.drop_of_length_le (by omega), List.drop_of_length_le (by omega)]
  rw [readCleared_take (length_mixedTable _ hlength), ← drop_tableBytes hm, ← hdrop,
    List.take_append_drop]

/-- The entries that are loaded from it. -/
theorem getElem?_cut {c d : ChunkInfo} (hlength : u.chunkInfo.length = m.chunkInfo.length)
    (hd : u.chunkInfo[j]? = some d) (hc : m.chunkInfo[j]? = some c) :
    ((records chunkInfoSize m.chunkInfo.length (mixedTable u m b)).map ChunkEntry.decode)[j]? =
        some (.decode (d.bytes.take (b - chunkInfoSize * j) ++
          c.bytes.drop (b - chunkInfoSize * j))) := by
  have htable : (tableBytes u.chunkInfo).length = (tableBytes m.chunkInfo).length := by
    rw [length_tableBytes, length_tableBytes, hlength]
  have hold : pread (tableBytes m.chunkInfo) (chunkInfoSize * j) chunkInfoSize = c.bytes :=
    pread_flatMap ChunkInfo.length_bytes hc
  have hnew : pread (tableBytes u.chunkInfo) (chunkInfoSize * j) chunkInfoSize = d.bytes :=
    pread_flatMap ChunkInfo.length_bytes hd
  have hmixed := pread_take_append_drop htable b (chunkInfoSize * j) chunkInfoSize
  rw [hold, hnew] at hmixed
  rw [List.getElem?_map, getElem?_records (List.getElem?_eq_some_iff.mp hc).1]
  exact congrArg (fun bytes => some (ChunkEntry.decode bytes)) hmixed

end Table

/-- Metadata that has been loaded is in the file. -/
theorem saveMetadata_moved (m : Metadata) (file : List UInt8) :
    m.moved.saveMetadata file = m.saveMetadata file := by
  have htake : (tableBytes m.moved.chunkInfo).take maxCount =
      (tableBytes m.chunkInfo).take maxCount := by
    rw [← chunkInfoSize_mul_tableEntries, tableBytes, tableBytes,
      take_flatMap ChunkInfo.length_bytes, take_flatMap ChunkInfo.length_bytes]
    congr 1
    exact take_keepFront
  have hfields : m.moved.fields = m.fields := by
    simp only [Metadata.fields, Metadata.chunks_moved]
    rfl
  rw [Metadata.saveMetadata, Metadata.saveMetadata, hfields, htake]

/-- **An update cut short.**  Whatever part of the table that a worker writes gets through,
the file is still loaded, with the same header and the same entries but for the chunk whose
status it changes; that one has its size, the old or the new status, and CH_OK only together
with the new md5sum.  The entries are those that `LoadMetadata` finds in the complete file,
which are those that have been saved up to `tableEntries` chunks. -/
theorem cut_update {m : Metadata} (hm : m.Fits) {k : Nat} {c : ChunkInfo}
    (hc : m.moved.chunkInfo[k]? = some c) {new : ChunkStatus} {digest : Option Digest}
    (ht : WorkerTransition c.status new digest) (obj : Loaded) (file : List UInt8) (b : Nat) :
    loadMetadata obj (m.saveMetadata file) = some m.moved.loaded ∧
    ∃ l, loadMetadata obj ((m.moved.setChunkStatus k new digest).writeTableCut b
        (m.saveMetadata file)) = some l ∧
      l.header = m.header ∧ l.inUse = m.inUse ∧ l.chunkInfo.length = m.chunkInfo.length ∧
      (∀ j c', j ≠ k → m.moved.chunkInfo[j]? = some c' → l.chunkInfo[j]? = some c'.entry) ∧
      ∃ e, l.chunkInfo[k]? = some e ∧ e.size = c.size ∧
        (e.status = c.status.code ∨ e.status = new.code) ∧
        (e.status = ChunkStatus.chOk.code → digest = some e.md5sum) := by
  refine ⟨loadMetadata_saveMetadata hm, ?_⟩
  have hmoved := m.moved_moved
  have hm := hm.moved
  rw [← saveMetadata_moved, ← m.header_moved, show m.inUse = m.moved.inUse from rfl,
    show m.chunkInfo.length = m.moved.chunkInfo.length from length_keepFront.symm]
  generalize m.moved = m at hc hm hmoved
  have hlength : (m.setChunkStatus k new digest).chunkInfo.length = m.chunkInfo.length :=
    List.length_modify _ _ _
  obtain ⟨rest, hfile⟩ := writeTableCut_saveMetadata file b hlength
  rw [hfile, loadMetadata_fields hm.header hm.table, readCleared_mixedTable hmoved b hlength]
  refine ⟨_, rfl, rfl, rfl, by simp [records], fun j c' hj hc' => ?_, ?_⟩
  · -- an entry that both tables have
    have hsame : (m.setChunkStatus k new digest).chunkInfo[j]? = some c' := by
      rw [← hc']
      exact ClaimTable.getElem?_modify_ne hj
    rw [getElem?_cut hlength hsame hc', List.take_append_drop,
      ChunkEntry.decode_bytes (hm.sizes c' (List.mem_of_getElem? hc'))]
  · -- the entry that is written over
    obtain ⟨hk, rfl⟩ := List.getElem?_eq_some_iff.mp hc
    have hnew : (m.setChunkStatus k new digest).chunkInfo[k]? =
        some (Metadata.setStatus new digest m.chunkInfo[k]) := ClaimTable.getElem?_modify_self hk
    obtain ⟨hsize, hstatus, hmd5sum⟩ := decode_cut (c := m.chunkInfo[k])
      (d := Metadata.setStatus new digest m.chunkInfo[k]) rfl
      (hm.sizes _ (List.getElem_mem hk)) (min b maxCount - chunkInfoSize * k)
    refine ⟨_, getElem?_cut hlength hnew hc, hsize, ?_, fun hok => ?_⟩
    · rw [hstatus]
      split
      · exact Or.inl rfl
      · exact Or.inr rfl
    · rw [hstatus] at hok
      split at hok
      · -- the old status is not CH_OK
        have hold := ChunkStatus.code_inj hok
        cases ht with
        | claims hfrom _ | finishes hfrom _ =>
          rcases hfrom with h | h <;> rw [h] at hold <;> cases hold
      · next hr =>
        rw [hmd5sum (by omega)]
        have hold := ChunkStatus.code_inj hok
        cases ht with
        | claims _ hto =>
          have hold : new = .chOk := hold
          rcases hto with h | h <;> rw [h] at hold <;> cases hold
        | finishes _ _ => rfl

/-- The write of the chunk that a worker has fetched stops behind its md5sum. -/
theorem cut_update_sample :
    ∃ l, loadMetadata sampleMetadata.loaded
        (((sampleMetadata.setChunkStatus 1 .chDownload none).setChunkStatus 1 .chOk
          (some (Buffer.zero _))).writeTableCut 50
            ((sampleMetadata.setChunkStatus 1 .chDownload none).saveMetadata [])) = some l ∧
      l.header = sampleMetadata.header ∧ l.chunkInfo.length = 2 := by
  have hfits : (sampleMetadata.setChunkStatus 1 .chDownload none).Fits :=
    ⟨⟨by decide, by decide, by decide⟩, by decide, by decide⟩
  have hmoved := Metadata.moved_of_le
    (m := sampleMetadata.setChunkStatus 1 .chDownload none) (by rw [tableEntries_eq]; decide)
  obtain ⟨-, l, hload, hheader, -, hlength, -⟩ :=
    cut_update hfits (k := 1) (c := ⟨Buffer.zero _, 1, .chDownload⟩) (by rw [hmoved]; decide)
      (.finishes (.inl rfl) (.inl rfl)) sampleMetadata.loaded [] 50
  rw [hmoved] at hload
  exact ⟨l, hload, hheader, hlength⟩

end Mhftp
