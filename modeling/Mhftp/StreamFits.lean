import Mhftp.SessionBounds
import Mhftp.Termination
import Mhftp.WrittenFiles

/-! # Streams on which a server stays in bounds

What a server process takes the bytes of a stream for (`Reading`) depends on the stream
alone: commands with their fields, requests behind the header of DOWNLOAD_CHUNK, chunks
behind UPLOAD_CHUNK.  So one can tell from a stream whether the lengths and indexes in it are
in range (`Reading.Fits`), and these are exactly the streams on which no process has an
access out of bounds (`server_in_bounds_iff`).
-/

namespace Mhftp
open Library

/-- What can come next: reads return bytes until the stream ends, and no file has the empty
name. -/
def SessionAct.Possible : SessionAct → Prop
  | serve _ script => Pieces script
  | files dir => dir [] = none

/-! ### What the bytes of a stream are read as -/

/-- What a process takes the next bytes for. -/
inductive Reading
  | commands
  /-- requests for the chunks of a header -/
  | requests (fileSize chunkSize nchunks : Int)
  /-- chunks, after one with this number and size; before the first, the size is not set -/
  | chunks (chunkNumber : Int) (chunkSize : Option Int)

/-- The header behind DOWNLOAD_CHUNK, of `headerLength` bytes. -/
def headerField (bytes : List UInt8) : Header :=
  ((⟨Buffer.zero _, 0, Buffer.zero _, 0, 0⟩ : Header).readMetadataHeader ⟨bytes, [], false⟩).1

def headerLength : Nat := 2088

/-- The size of a path. -/
def pathSizeField (bytes : List UInt8) : Int :=
  decodeInt ((Buffer.zero 2).overlay (bytes.take 2)).bytes

/-- It comes whole, as what is not sent of it is what the memory held. -/
def PathFits (bytes : List UInt8) : Prop :=
  2 ≤ bytes.length ∧ 0 ≤ pathSizeField bytes ∧ pathSizeField bytes ≤ fnameSize

/-- The number of a chunk request. -/
def chunkNumberField (bytes : List UInt8) : Int :=
  atoi ((Buffer.zero 7).overlay (bytes.take 7)).bytes

/-- The size of a chunk that is sent. -/
def ChunkSizeFits (size : Int) : Prop := 0 ≤ size ∧ size ≤ maxChunkSize

/-- `so_read` takes it as an int. -/
theorem ChunkSizeFits.bmod_eq {size : Int} (h : ChunkSizeFits size) : size.bmod (2 ^ 32) = size := by
  have hmax := maxChunkSize_eq
  unfold ChunkSizeFits at h
  exact Int.bmod_eq_of_le_mul_two (by omega) (by omega)

/-- **The lengths and indexes in a stream are in range**, up to where the process ends. -/
def Reading.Fits : Reading → List UInt8 → Prop
  | _, [] => True
  | .commands, c :: bytes =>
    if c = 1 then
      let h := headerField bytes
      -- with too many chunks or a file that is not there no request is read
      2 ^ 31 ≤ h.chunks ∨ cString h.fileFull.bytes = [] ∨
        Fits (.requests h.fileSize h.chunkSize h.chunks) (bytes.drop headerLength)
    else if c = 2 then
      PathFits (bytes.drop 8) ∧
        Fits .commands (bytes.drop (10 + (pathSizeField (bytes.drop 8)).toNat))
    else if c = 3 then Fits (.chunks 0 none) bytes
    else if c = 4 then
      PathFits bytes ∧ Fits .commands (bytes.drop (34 + (pathSizeField bytes).toNat))
    else Fits .commands bytes
  | .requests fileSize chunkSize nchunks, b :: bytes =>
    let chunkNumber := chunkNumberField (b :: bytes)
    if chunkNumber = -1 then Fits .commands (bytes.drop 6)
    else
      (0 ≤ chunkNumber ∧ chunkNumber < nchunks) ∧
        (EndsProcess (payLoad fileSize chunkSize chunkNumber.toNat) ∨
          Fits (.requests fileSize chunkSize nchunks) (bytes.drop 6))
  | .chunks chunkNumber chunkSize, b :: bytes =>
    let chunkNumber := Wire.overlayInt chunkNumber ((b :: bytes).take 8)
    let field := bytes.drop 7
    if chunkNumber = -1 then Fits .commands field
    else
      let size := Wire.overlayInt (chunkSize.getD 0) (field.take 8)
      ((chunkSize.isSome ∨ 8 ≤ field.length) ∧ ChunkSizeFits size) ∧
        Fits (.chunks chunkNumber (some size)) (field.drop (8 + size.toNat))
termination_by _ bytes => bytes.length
decreasing_by all_goals (simp only [List.length_drop, List.length_cons]; omega)

theorem fits_nil (reading : Reading) : reading.Fits [] := by
  unfold Reading.Fits
  trivial

section Fits
variable {c : UInt8} {bytes : List UInt8}

theorem fits_downloadChunk : Reading.commands.Fits (1 :: bytes) ↔
    2 ^ 31 ≤ (headerField bytes).chunks ∨ cString (headerField bytes).fileFull.bytes = [] ∨
      (Reading.requests (headerField bytes).fileSize (headerField bytes).chunkSize
        (headerField bytes).chunks).Fits (bytes.drop headerLength) := by
  conv_lhs => unfold Reading.Fits
  exact Iff.of_eq (if_pos rfl)

theorem fits_downloadMetadata : Reading.commands.Fits (2 :: bytes) ↔
    PathFits (bytes.drop 8) ∧
      Reading.commands.Fits (bytes.drop (10 + (pathSizeField (bytes.drop 8)).toNat)) := by
  conv_lhs => unfold Reading.Fits
  exact Iff.of_eq ((if_neg (by decide)).trans (if_pos rfl))

theorem fits_uploadChunk :
    Reading.commands.Fits (3 :: bytes) ↔ (Reading.chunks 0 none).Fits bytes := by
  conv_lhs => unfold Reading.Fits
  exact Iff.of_eq ((if_neg (by decide)).trans ((if_neg (by decide)).trans (if_pos rfl)))

theorem fits_uploadInit : Reading.commands.Fits (4 :: bytes) ↔
    PathFits bytes ∧ Reading.commands.Fits (bytes.drop (34 + (pathSizeField bytes).toNat)) := by
  conv_lhs => unfold Reading.Fits
  exact Iff.of_eq ((if_neg (by decide)).trans ((if_neg (by decide)).trans
    ((if_neg (by decide)).trans (if_pos rfl))))

theorem fits_unknown (h : c ≠ 1 ∧ c ≠ 2 ∧ c ≠ 3 ∧ c ≠ 4) :
    Reading.commands.Fits (c :: bytes) ↔ Reading.commands.Fits bytes := by
  conv_lhs => unfold Reading.Fits
  exact Iff.of_eq ((if_neg h.1).trans ((if_neg h.2.1).trans ((if_neg h.2.2.1).trans
    (if_neg h.2.2.2))))

theorem fits_requests {b : UInt8} {fileSize chunkSize nchunks : Int} :
    (Reading.requests fileSize chunkSize nchunks).Fits (b :: bytes) ↔
      if chunkNumberField (b :: bytes) = -1 then Reading.commands.Fits (bytes.drop 6)
      else
        (0 ≤ chunkNumberField (b :: bytes) ∧ chunkNumberField (b :: bytes) < nchunks) ∧
          (EndsProcess (payLoad fileSize chunkSize (chunkNumberField (b :: bytes)).toNat) ∨
            (Reading.requests fileSize chunkSize nchunks).Fits (bytes.drop 6)) := by
  conv_lhs => unfold Reading.Fits

theorem fits_chunks {b : UInt8} {chunkNumber : Int} {chunkSize : Option Int} :
    (Reading.chunks chunkNumber chunkSize).Fits (b :: bytes) ↔
      let number := Wire.overlayInt chunkNumber ((b :: bytes).take 8)
      let field := bytes.drop 7
      let size := Wire.overlayInt (chunkSize.getD 0) (field.take 8)
      if number = -1 then Reading.commands.Fits field
      else
        ((chunkSize.isSome ∨ 8 ≤ field.length) ∧ ChunkSizeFits size) ∧
          (Reading.chunks number (some size)).Fits (field.drop (8 + size.toNat)) := by
  conv_lhs => unfold Reading.Fits

end Fits

/-! ### Fields that come whole, and fields that are cut -/

section Fields
variable {n start : Nat} {bytes : List UInt8} {junk : Nat → UInt8}

/-- A field that comes whole does not depend on the memory. -/
theorem overlay_take (b c : Buffer n) (h : n ≤ bytes.length) :
    b.overlay (bytes.take n) = c.overlay (bytes.take n) := by
  have hlen : (bytes.take n).length = n := by rw [List.length_take]; omega
  rw [Buffer.overlay_full _ hlen, Buffer.overlay_full _ hlen]

/-- Memory whose bytes are all 127. -/
def filled : Nat → UInt8 := fun _ => 127

/-- A field that is cut is large, for the last byte is from the memory. -/
theorem le_decodeInt_overlay {b : Buffer (n + 1)} (hb : b.bytes = List.replicate (n + 1) 127)
    (h : bytes.length < n + 1) : 127 * 256 ^ n ≤ decodeInt (b.overlay bytes).bytes := by
  obtain ⟨k, hk⟩ : ∃ k, n + 1 - bytes.length = k + 1 := ⟨n - bytes.length, by omega⟩
  have hlen : (bytes ++ List.replicate k (127 : UInt8)).length = n := by
    rw [List.length_append, List.length_replicate]
    omega
  have hbytes : (b.overlay bytes).bytes = bytes ++ List.replicate k 127 ++ [127] := by
    show (bytes ++ b.bytes.drop bytes.length).take (n + 1) = _
    rw [hb, List.drop_replicate, hk, List.replicate_succ', ← List.append_assoc,
      List.take_of_length_le (by rw [List.length_append, hlen]; rfl)]
  have hdecode := decode_append (bytes ++ List.replicate k 127) [127]
  rw [hlen] at hdecode
  have hlast : decode [127] = 127 := rfl
  have hlt : (decode (bytes ++ List.replicate k 127) : Int) < 256 ^ n := by
    exact_mod_cast hlen ▸ decode_lt (bytes ++ List.replicate k 127)
  rw [hbytes, decodeInt, hdecode, hlast, List.length_append, hlen, List.length_singleton]
  have hhalf : (256 : Int) ^ (n + 1) = 256 * 256 ^ n := pow_succ' _ _
  rw [Int.bmod_eq_of_le_mul_two (by push_cast; omega) (by push_cast; omega)]
  push_cast
  omega

/-- The variable for the size of a path, after the read. -/
def pathSizeVariable (junk : Nat → UInt8) (start : Nat) (bytes : List UInt8) : Int :=
  decodeInt ((unsetBuffer junk start 2).overlay (bytes.take 2)).bytes

/-- A size that the array has room for. -/
def PathSizeFits (size : Int) : Prop := 0 ≤ size ∧ size ≤ fnameSize

theorem PathFits.pathSizeVariable (h : PathFits bytes) (junk : Nat → UInt8) (start : Nat) :
    pathSizeVariable junk start bytes = pathSizeField bytes :=
  congrArg (fun b : Buffer 2 => decodeInt b.bytes) (overlay_take _ _ h.1)

/-- In memory of large bytes only a size that comes whole fits. -/
theorem pathFits_of_filled (h : PathSizeFits (pathSizeVariable filled start bytes)) :
    PathFits bytes := by
  have hlen : 2 ≤ bytes.length := by
    by_contra hlen
    have hle : 127 * 256 ^ 1 ≤
        decodeInt ((unsetBuffer filled start 2).overlay (bytes.take 2)).bytes :=
      le_decodeInt_overlay rfl (by rw [List.length_take]; omega)
    have := hle.trans h.2
    exact absurd this (by decide)
  refine ⟨hlen, ?_⟩
  rwa [pathSizeVariable, overlay_take _ (Buffer.zero 2) hlen] at h

/-- The header of a stream that has it whole. -/
theorem readMetadataHeader_whole (g : Header) (short : Bool) (h : headerLength ≤ bytes.length) :
    (g.readMetadataHeader ⟨bytes, [], short⟩).1 = headerField bytes := by
  unfold headerLength at h
  have hfield {n : Nat} (b c : Buffer n) (start : Nat) (hlen : start + n ≤ 2088) :
      b.overlay ((bytes.drop start).take n) = c.overlay ((bytes.drop start).take n) :=
    overlay_take b c (by rw [List.length_drop]; omega)
  unfold headerField Header.readMetadataHeader
  simp only [Wire.readBuffer, Wire.readInt64, Wire.soRead_clean, List.drop_drop, Wire.overlayInt]
  rw [Header.mk.injEq]
  refine ⟨hfield _ _ 0 (by decide), ?_, hfield _ _ _ (by decide), ?_, ?_⟩
  all_goals exact congrArg (fun b : Buffer 8 => decodeInt b.bytes) (hfield _ _ _ (by decide))

theorem readMetadataHeader_rest (g : Header) (short : Bool) :
    (g.readMetadataHeader ⟨bytes, [], short⟩).2.unread = bytes.drop headerLength := by
  unfold Header.readMetadataHeader
  simp only [Wire.readBuffer, Wire.readInt64, Wire.soRead_clean, List.drop_drop]
  rfl

end Fields

/-! ### What a step makes of a stream -/

/-- The lengths and indexes that the process will take from the stream are in range. -/
def MhProtoServer.Fits (srv : MhProtoServer) (bytes : List UInt8) : Prop :=
  match srv.pc with
  | .rcvCmd => Reading.commands.Fits bytes
  | .sendChunk _ _ _ =>
    (Reading.requests srv.metadata.fileSize srv.metadata.chunkSize srv.metadata.chunks).Fits bytes
  | .receiveChunk _ _ chunkNumber chunkSize _ =>
    (Reading.chunks chunkNumber (some chunkSize)).Fits bytes
  | .exited | .faulted => True

/-- `waitForClient`, in the loop of `SendChunkToClient`. -/
def MhProtoServer.waits (srv : MhProtoServer) : Option Nat :=
  match srv.pc with
  | .sendChunk _ waitForClient _ => some waitForClient
  | _ => none

theorem MhProtoServer.fits_nil (srv : MhProtoServer) : srv.Fits [] := by
  unfold MhProtoServer.Fits
  split <;> first | exact Mhftp.fits_nil _ | trivial

/-- What a step leaves. -/
def Served.Fits (r : Served) : Prop := r.server.Fits r.wire.unread

section Steps
open MhProtoServer
variable {md5 : Md5} {junk : Nat → UInt8} {srv : MhProtoServer} {dir : Dir} {bytes : List UInt8}
  {short : Bool}

/-- DOWNLOAD_CHUNK -/
theorem sendChunkToClient_fits (hdir : dir [] = none) (h : Reading.commands.Fits (1 :: bytes)) :
    (srv.sendChunkToClient dir ⟨bytes, [], short⟩).Fits := by
  rw [Served.Fits, sendChunkToClient_wire, readMetadataHeader_rest]
  by_cases hlen : headerLength ≤ bytes.length
  · rw [fits_downloadChunk] at h
    unfold sendChunkToClient
    simp only [readMetadataHeader_whole _ _ hlen]
    split
    · trivial
    next hchunks =>
    split
    · next hsome =>
      refine (h.resolve_left hchunks).resolve_left fun hnil => ?_
      rw [hnil, hdir] at hsome
      cases hsome
    · trivial
  · rw [List.drop_eq_nil_of_le (by omega)]
    exact MhProtoServer.fits_nil _

theorem fits_of_sendChunkToClient (hdir : ∀ p ≠ [], (dir p).isSome = true)
    (h : (srv.sendChunkToClient dir ⟨bytes, [], short⟩).Fits) :
    Reading.commands.Fits (1 :: bytes) := by
  rw [Served.Fits, sendChunkToClient_wire, readMetadataHeader_rest] at h
  rw [fits_downloadChunk]
  by_cases hlen : headerLength ≤ bytes.length
  · unfold sendChunkToClient at h
    simp only [readMetadataHeader_whole _ _ hlen] at h
    split at h
    · next hchunks => exact .inl hchunks
    by_cases hnil : cString (headerField bytes).fileFull.bytes = []
    · exact .inr (.inl hnil)
    · rw [if_pos (hdir _ hnil)] at h
      exact .inr (.inr h)
  · rw [List.drop_eq_nil_of_le (by omega)]
    exact .inr (.inr (Mhftp.fits_nil _))

theorem readPath_wire (bytes : List UInt8) (short : Bool) {size : Int} (h : 0 ≤ size) : ∃ short',
    (readPath size ⟨bytes, [], short⟩).wire = ⟨bytes.drop size.toNat, [], short'⟩ := by
  rw [readPath, if_neg (by omega)]
  simp only [Wire.soRead_clean]
  exact ⟨_, rfl⟩

theorem allInBounds_sendMetadataAccesses :
    AllInBounds (sendMetadataAccesses junk ⟨bytes, [], short⟩) ↔
      PathSizeFits (pathSizeVariable junk 8 (bytes.drop 8)) := by
  simp [AllInBounds, sendMetadataAccesses, pathAccesses, Access.InBounds, PathSizeFits,
    pathSizeVariable, Wire.readBuffer, Wire.readInt64, Wire.soRead_clean]

/-- DOWNLOAD_METADATA, with a path that has fit. -/
theorem sendMetadataToClient_rest (md5 : Md5) (srv : MhProtoServer) (dir : Dir) (short : Bool)
    (h : PathSizeFits (pathSizeVariable junk 8 (bytes.drop 8))) :
    let r := srv.sendMetadataToClient md5 junk dir ⟨bytes, [], short⟩
    r.server.pc = .rcvCmd ∧
      r.wire.unread = bytes.drop (10 + (pathSizeVariable junk 8 (bytes.drop 8)).toNat) := by
  unfold PathSizeFits pathSizeVariable at h
  unfold sendMetadataToClient pathSizeVariable
  simp only [Wire.readBuffer, Wire.readInt64, Wire.soRead_clean] at h ⊢
  rw [if_neg (by omega)]
  obtain ⟨short', hwire⟩ := readPath_wire ((bytes.drop 8).drop 2) _ h.1
  split <;> exact ⟨rfl, by rw [hwire, List.drop_drop, List.drop_drop, ← add_assoc]⟩

theorem allInBounds_initUploadAccesses :
    AllInBounds (initUploadAccesses junk ⟨bytes, [], short⟩) ↔
      PathSizeFits (pathSizeVariable junk 0 bytes) := by
  rw [initUploadAccesses, allInBounds_append]
  have hpath : AllInBounds (pathAccesses junk 0 ⟨bytes, [], short⟩) ↔
      PathSizeFits (pathSizeVariable junk 0 bytes) := by
    simp [AllInBounds, pathAccesses, Access.InBounds, PathSizeFits, pathSizeVariable,
      Wire.readBuffer, Wire.soRead_clean]
  rw [hpath]
  refine and_iff_left ?_
  split
  · exact allInBounds_nil
  · simp [AllInBounds, Access.InBounds]

/-- UPLOAD_INIT, with a path that has fit. -/
theorem initUpload_rest (srv : MhProtoServer) (dir : Dir) (short : Bool)
    (h : PathSizeFits (pathSizeVariable junk 0 bytes)) :
    let r := srv.initUpload junk dir ⟨bytes, [], short⟩
    r.server.pc = .rcvCmd ∧
      r.wire.unread = bytes.drop (34 + (pathSizeVariable junk 0 bytes).toNat) := by
  unfold PathSizeFits pathSizeVariable at h
  unfold initUpload pathSizeVariable
  simp only [Wire.readBuffer, Wire.readInt64, Wire.soRead_clean] at h ⊢
  rw [if_neg (by omega)]
  obtain ⟨short', hwire⟩ := readPath_wire (bytes.drop 2) _ h.1
  rw [hwire]
  simp only [Wire.soRead_clean, List.drop_drop]
  exact ⟨trivial, congrArg (fun n => bytes.drop n) (by unfold digestSize; omega)⟩

theorem allInBounds_sendChunkAccesses :
    AllInBounds (srv.sendChunkAccesses ⟨bytes, [], short⟩) ↔
      (bytes = [] ∨ chunkNumberField bytes = -1 ∨
        0 ≤ chunkNumberField bytes ∧ chunkNumberField bytes < srv.metadata.chunks) := by
  have hbr : ((Wire.mk bytes [] short).readBuffer (Buffer.zero 7)).br ≤ 0 ↔ bytes = [] := by
    rw [← List.length_eq_zero_iff]
    simp only [Wire.readBuffer, Wire.soRead_clean]
    omega
  have hvalue : atoi ((Wire.mk bytes [] short).readBuffer (Buffer.zero 7)).value.bytes =
      chunkNumberField bytes := by
    simp only [Wire.readBuffer, Wire.soRead_clean, chunkNumberField]
  rw [sendChunkAccesses, allInBounds_cons, and_iff_right (a := Access.InBounds _) (by decide),
    hvalue]
  split
  · next hend =>
    rw [hbr] at hend
    exact iff_of_true allInBounds_nil (or_assoc.mp (.inl hend))
  · next hgo =>
    rw [hbr] at hgo
    rw [← or_assoc, or_iff_right hgo]
    exact List.forall_mem_singleton

/-- A turn of the loop of `SendChunkToClient`. -/
theorem requests_fits_iff {file : Path} {wait pos : Nat} (hwait : wait ≠ 0) :
    (Reading.requests srv.metadata.fileSize srv.metadata.chunkSize srv.metadata.chunks).Fits bytes ↔
      AllInBounds (srv.sendChunkAccesses ⟨bytes, [], short⟩) ∧
        (srv.sendChunkTurn md5 junk file wait pos dir ⟨bytes, [], short⟩).Fits := by
  rw [allInBounds_sendChunkAccesses]
  cases bytes with
  | nil =>
    refine iff_of_true (Mhftp.fits_nil _) ⟨.inl rfl, ?_⟩
    rw [Served.Fits, sendChunkTurn_wire, Wire.readBuffer_wire, Wire.soRead_clean]
    exact MhProtoServer.fits_nil _
  | cons b bytes =>
    have hbr : ¬ ((min 7 (b :: bytes).length : Nat) : Int) ≤ 0 := by
      rw [List.length_cons]; omega
    rw [fits_requests, or_iff_right (List.cons_ne_nil b bytes), Served.Fits, sendChunkTurn_wire,
      Wire.readBuffer_wire, Wire.soRead_clean, List.drop_succ_cons]
    unfold sendChunkTurn
    simp only [Wire.readBuffer, Wire.soRead_clean]
    rw [if_neg hbr, ← chunkNumberField]
    by_cases hend : chunkNumberField (b :: bytes) = -1
    · rw [if_pos hend, if_pos hend]
      exact (and_iff_right (.inl hend)).symm
    rw [if_neg hend, if_neg hend, or_iff_right hend]
    refine and_congr_right fun hrange => ?_
    rw [if_neg (by omega)]
    by_cases hblock : NoBlock (payLoad srv.metadata.fileSize srv.metadata.chunkSize
        (chunkNumberField (b :: bytes)).toNat)
    · rw [if_pos hblock]
      exact iff_of_true (.inl (.inl hblock)) trivial
    rw [if_neg hblock, writeAnswer, md5Buffer, length_loadChunkFromFile]
    by_cases hint : (payLoad srv.metadata.fileSize srv.metadata.chunkSize
        (chunkNumberField (b :: bytes)).toNat).toNat % 2 ^ 32 < 2 ^ 31
    · have hends : ¬ EndsProcess (payLoad srv.metadata.fileSize srv.metadata.chunkSize
          (chunkNumberField (b :: bytes)).toNat) := not_or.mpr ⟨hblock, hint.not_ge⟩
      rw [if_pos hint, or_iff_right hends]
      dsimp only
      -- `waitForClient` goes down only where the stream ends
      by_cases hlen : 7 ≤ (b :: bytes).length
      · have hsame : (if ((7 : Nat) : Int) ≠ 7 then wait - 1 else wait) = wait := if_neg (by decide)
        rw [min_eq_left hlen, hsame, if_neg hwait]
        rfl
      · rw [List.drop_eq_nil_of_le (by rw [List.length_cons] at hlen; omega)]
        exact iff_of_true (Mhftp.fits_nil _) (MhProtoServer.fits_nil _)
    · rw [if_neg hint]
      exact iff_of_true (.inl (.inr (not_lt.mp hint))) trivial

theorem allInBounds_receiveChunkAccesses (chunkNumber chunkSize : Int) :
    AllInBounds (receiveChunkAccesses chunkNumber chunkSize ⟨bytes, [], short⟩) ↔
      (bytes = [] ∨ Wire.overlayInt chunkNumber (bytes.take 8) = -1 ∨
        ChunkSizeFits (Wire.overlayInt chunkSize ((bytes.drop 8).take 8))) := by
  have hbr : ((Wire.mk bytes [] short).readInt64 chunkNumber).br ≤ 0 ↔ bytes = [] := by
    rw [← List.length_eq_zero_iff]
    simp only [Wire.readInt64, Wire.soRead_clean]
    omega
  have hnumber : ((Wire.mk bytes [] short).readInt64 chunkNumber).value =
      Wire.overlayInt chunkNumber (bytes.take 8) := by
    simp only [Wire.readInt64, Wire.soRead_clean]
  have hsize : (((Wire.mk bytes [] short).readInt64 chunkNumber).wire.readInt64 chunkSize).value =
      Wire.overlayInt chunkSize ((bytes.drop 8).take 8) := by
    simp only [Wire.readInt64, Wire.soRead_clean]
  rw [receiveChunkAccesses, allInBounds_cons, and_iff_right (a := Access.InBounds _) (by decide),
    hnumber, hsize]
  split
  · next hend =>
    rw [hbr] at hend
    exact iff_of_true allInBounds_nil (or_assoc.mp (.inl hend))
  · next hgo =>
    rw [hbr] at hgo
    rw [← or_assoc, or_iff_right hgo, allInBounds_cons,
      and_iff_right (a := Access.InBounds _) (by decide), allInBounds_cons]
    constructor
    · exact fun h => h.2 _ List.mem_cons_self
    · intro h
      refine ⟨?_, allInBounds_cons.mpr ⟨h, allInBounds_nil⟩⟩
      rw [h.bmod_eq]
      exact h

theorem writeChunk_fits {file : Option Path} {pos : Nat} {chunkNumber chunkSize : Int}
    {buffer : Nat → UInt8} {w : Wire} :
    (srv.writeChunk file pos chunkNumber chunkSize buffer dir w).Fits ↔
      (Reading.chunks chunkNumber (some chunkSize)).Fits w.unread := by
  unfold writeChunk
  cases file <;> exact Iff.rfl

/-- A turn of the loop of `ReceiveChunkFromClient`. -/
theorem chunks_fits_iff {file : Option Path} {pos : Nat} {chunkNumber chunkSize : Int}
    {buffer : Nat → UInt8} :
    (Reading.chunks chunkNumber (some chunkSize)).Fits bytes ↔
      AllInBounds (receiveChunkAccesses chunkNumber chunkSize ⟨bytes, [], short⟩) ∧
        (srv.receiveChunkTurn file pos chunkNumber chunkSize buffer dir
          ⟨bytes, [], short⟩).Fits := by
  rw [allInBounds_receiveChunkAccesses]
  cases bytes with
  | nil =>
    refine iff_of_true (Mhftp.fits_nil _) ⟨.inl rfl, ?_⟩
    have hbr : ((Wire.mk [] [] short).readInt64 chunkNumber).br ≤ 0 := by
      simp only [Wire.readInt64, Wire.soRead_clean]
      decide
    simp only [receiveChunkTurn, hbr, if_true, Served.Fits, Wire.readInt64_wire, Wire.soRead_clean]
    exact MhProtoServer.fits_nil _
  | cons b bytes =>
    have hbr : ¬ ((min 8 (b :: bytes).length : Nat) : Int) ≤ 0 := by
      rw [List.length_cons]; omega
    rw [fits_chunks, or_iff_right (List.cons_ne_nil b bytes)]
    unfold receiveChunkTurn
    simp only [Wire.readInt64, Wire.soRead_clean, List.drop_succ_cons, Option.getD_some]
    rw [if_neg hbr]
    by_cases hend : Wire.overlayInt chunkNumber ((b :: bytes).take 8) = -1
    · rw [if_pos hend, if_pos hend]
      exact (and_iff_right (.inl hend)).symm
    rw [if_neg hend, if_neg hend, or_iff_right hend, and_assoc,
      and_iff_right (Or.inl Option.isSome_some)]
    refine and_congr_right fun hsize => ?_
    rw [hsize.bmod_eq, if_neg (by unfold ChunkSizeFits at hsize; omega),
      if_neg (not_lt.mpr hsize.1), writeChunk_fits]
    simp only [List.drop_drop, add_assoc]

/-- UPLOAD_CHUNK: the first size is not set. -/
theorem fits_chunks_of_none {chunkNumber chunkSize : Int}
    (h : (Reading.chunks chunkNumber none).Fits bytes) :
    (Reading.chunks chunkNumber (some chunkSize)).Fits bytes := by
  cases bytes with
  | nil => exact Mhftp.fits_nil _
  | cons b bytes =>
    rw [fits_chunks] at h ⊢
    dsimp only at h ⊢
    split at h
    · next hend => rwa [if_pos hend]
    · next hend =>
      obtain ⟨⟨hlen, hsize⟩, hrest⟩ := h
      have hfield : Wire.overlayInt chunkSize ((bytes.drop 7).take 8) =
          Wire.overlayInt 0 ((bytes.drop 7).take 8) :=
        congrArg (fun b : Buffer 8 => decodeInt b.bytes)
          (overlay_take _ _ (hlen.resolve_left nofun))
      rw [if_neg hend, Option.getD_some, hfield]
      exact ⟨⟨.inl rfl, hsize⟩, hrest⟩

theorem fits_chunks_none {chunkNumber : Int}
    (h : (Reading.chunks chunkNumber (some (decodeInt (unset filled 0 8)))).Fits bytes) :
    (Reading.chunks chunkNumber none).Fits bytes := by
  cases bytes with
  | nil => exact Mhftp.fits_nil _
  | cons b bytes =>
    rw [fits_chunks] at h ⊢
    dsimp only at h ⊢
    split at h
    · next hend => rwa [if_pos hend]
    · next hend =>
      obtain ⟨⟨-, hsize⟩, hrest⟩ := h
      rw [Option.getD_some] at hsize hrest
      have hlen : 8 ≤ (bytes.drop 7).length := by
        by_contra hlen
        have hle : 127 * 256 ^ 7 ≤
            Wire.overlayInt (decodeInt (unset filled 0 8)) ((bytes.drop 7).take 8) :=
          le_decodeInt_overlay (by decide) (by rw [List.length_take]; omega)
        exact absurd (hle.trans hsize.2) (by rw [maxChunkSize_eq]; decide)
      have hfield : Wire.overlayInt (decodeInt (unset filled 0 8)) ((bytes.drop 7).take 8) =
          Wire.overlayInt 0 ((bytes.drop 7).take 8) :=
        congrArg (fun b : Buffer 8 => decodeInt b.bytes) (overlay_take _ _ hlen)
      rw [hfield] at hsize hrest
      rw [if_neg hend]
      exact ⟨⟨.inr hlen, hsize⟩, hrest⟩

/-! ### One step -/

theorem nextCommand_cons {c : UInt8} (hpc : srv.pc = .rcvCmd) :
    srv.nextCommand ⟨c :: bytes, [], short⟩ = [c] := by
  rw [nextCommand, hpc, Wire.soRead_clean]
  rfl

theorem rcvCmd_nil : srv.rcvCmd md5 junk dir ⟨[], [], short⟩ =
    ⟨srv.goto .exited, dir, ((Wire.mk [] [] short).soRead 1).wire, []⟩ := by
  rw [rcvCmd, Wire.soRead_clean]
  rfl

theorem rcvCmd_cons {c : UInt8} : srv.rcvCmd md5 junk dir ⟨c :: bytes, [], short⟩ =
    if c = 1 then srv.sendChunkToClient dir ⟨bytes, [], short⟩
    else if c = 2 then srv.sendMetadataToClient md5 junk dir ⟨bytes, [], short⟩
    else if c = 3 then srv.receiveChunkFromClient junk dir ⟨bytes, [], short⟩
    else if c = 4 then srv.initUpload junk dir ⟨bytes, [], short⟩
    else ⟨srv, dir, ⟨bytes, [], short⟩, []⟩ := by
  have hread : (Wire.mk (c :: bytes) [] short).soRead 1 = ⟨1, [c], bytes, [], short⟩ :=
    Wire.soRead_clean_append [c]
  rw [rcvCmd]
  simp only [hread, List.cons.injEq, and_true]
  rw [if_neg (by decide)]

/-- The accesses of a command. -/
theorem allInBounds_accesses_cons {c : UInt8} (hpc : srv.pc = .rcvCmd) :
    AllInBounds (srv.accesses junk ⟨c :: bytes, [], short⟩) ↔
      (c = 2 → PathSizeFits (pathSizeVariable junk 8 (bytes.drop 8))) ∧
        (c = 4 → PathSizeFits (pathSizeVariable junk 0 bytes)) := by
  have hread : (Wire.mk (c :: bytes) [] short).soRead 1 = ⟨1, [c], bytes, [], short⟩ :=
    Wire.soRead_clean_append [c]
  unfold accesses
  rw [hpc]
  simp only [nextCommand_cons hpc, hread]
  rw [allInBounds_cons, and_iff_right (a := Access.InBounds _) (by decide)]
  by_cases h₁ : c = 1
  · subst h₁
    simp [AllInBounds, headerAccesses, Access.InBounds]
  by_cases h₂ : c = 2
  · subst h₂
    simpa using allInBounds_sendMetadataAccesses
  by_cases h₄ : c = 4
  · subst h₄
    simpa using allInBounds_initUploadAccesses
  · simp [h₁, h₂, h₄, AllInBounds]

/-- **A step on a stream that fits** stays in bounds and leaves one that fits. -/
theorem fits_step (hdir : dir [] = none) (hwait : srv.waits ≠ some 0) (h : srv.Fits bytes)
    {r : Served} (hr : srv.step md5 junk dir ⟨bytes, [], short⟩ = some r) :
    AllInBounds (srv.accesses junk ⟨bytes, [], short⟩) ∧ r.Fits := by
  unfold MhProtoServer.Fits at h
  unfold step at hr
  cases hpc : srv.pc with
  | rcvCmd =>
    rw [hpc] at h hr
    cases hr
    cases bytes with
    | nil =>
      rw [rcvCmd_nil]
      refine ⟨?_, trivial⟩
      unfold accesses nextCommand
      rw [hpc, Wire.soRead_clean]
      simp [AllInBounds, Access.InBounds]
    | cons c bytes =>
      rw [allInBounds_accesses_cons hpc, rcvCmd_cons]
      by_cases h₁ : c = 1
      · subst h₁
        rw [if_pos rfl]
        exact ⟨⟨nofun, nofun⟩, sendChunkToClient_fits hdir h⟩
      rw [if_neg h₁]
      by_cases h₂ : c = 2
      · subst h₂
        rw [fits_downloadMetadata] at h
        have hsize := h.1.pathSizeVariable junk 8
        have hfits : PathSizeFits (pathSizeVariable junk 8 (bytes.drop 8)) := hsize ▸ h.1.2
        obtain ⟨hpc', hrest⟩ := sendMetadataToClient_rest md5 srv dir short hfits
        rw [if_pos rfl, Served.Fits, MhProtoServer.Fits, hpc', hrest, hsize]
        exact ⟨⟨fun _ => h.1.2, nofun⟩, h.2⟩
      rw [if_neg h₂]
      by_cases h₃ : c = 3
      · subst h₃
        rw [if_pos rfl]
        exact ⟨⟨nofun, nofun⟩, fits_chunks_of_none (fits_uploadChunk.mp h)⟩
      rw [if_neg h₃]
      by_cases h₄ : c = 4
      · subst h₄
        rw [fits_uploadInit] at h
        have hsize := h.1.pathSizeVariable junk 0
        have hfits : PathSizeFits (pathSizeVariable junk 0 bytes) := hsize ▸ h.1.2
        obtain ⟨hpc', hrest⟩ := initUpload_rest srv dir short hfits
        rw [if_pos rfl, Served.Fits, MhProtoServer.Fits, hpc', hrest, hsize]
        exact ⟨⟨nofun, fun _ => h.1.2⟩, h.2⟩
      rw [if_neg h₄, Served.Fits, MhProtoServer.Fits, hpc]
      exact ⟨⟨fun h => absurd h h₂, fun h => absurd h h₄⟩, (fits_unknown ⟨h₁, h₂, h₃, h₄⟩).mp h⟩
  | sendChunk file wait pos =>
    rw [hpc] at h hr
    cases hr
    unfold accesses
    rw [hpc]
    exact (requests_fits_iff fun h => hwait (by rw [waits, hpc, h])).mp h
  | receiveChunk file pos n m buffer =>
    rw [hpc] at h hr
    cases hr
    unfold accesses
    rw [hpc]
    exact chunks_fits_iff.mp h
  | exited | faulted =>
    rw [hpc] at hr
    cases hr

/-- **Conversely**: with large bytes in the memory, and where the files are there, a step that
stays in bounds and leaves a stream that fits was on one. -/
theorem fits_of_step (hdir : ∀ p ≠ [], (dir p).isSome = true) (hwait : srv.waits ≠ some 0)
    {r : Served} (hr : srv.step md5 filled dir ⟨bytes, [], short⟩ = some r)
    (hin : AllInBounds (srv.accesses filled ⟨bytes, [], short⟩)) (h : r.Fits) :
    srv.Fits bytes := by
  unfold step at hr
  unfold MhProtoServer.Fits
  cases hpc : srv.pc with
  | rcvCmd =>
    rw [hpc] at hr
    cases hr
    cases bytes with
    | nil => exact Mhftp.fits_nil _
    | cons c bytes =>
      rw [allInBounds_accesses_cons hpc] at hin
      rw [rcvCmd_cons] at h
      dsimp only
      by_cases h₁ : c = 1
      · subst h₁
        rw [if_pos rfl] at h
        exact fits_of_sendChunkToClient hdir h
      rw [if_neg h₁] at h
      by_cases h₂ : c = 2
      · subst h₂
        have hpath := pathFits_of_filled (hin.1 rfl)
        obtain ⟨hpc', hrest⟩ := sendMetadataToClient_rest md5 srv dir short (hin.1 rfl)
        rw [if_pos rfl, Served.Fits, MhProtoServer.Fits, hpc', hrest,
          hpath.pathSizeVariable] at h
        exact fits_downloadMetadata.mpr ⟨hpath, h⟩
      rw [if_neg h₂] at h
      by_cases h₃ : c = 3
      · subst h₃
        rw [if_pos rfl] at h
        exact fits_uploadChunk.mpr (fits_chunks_none h)
      rw [if_neg h₃] at h
      by_cases h₄ : c = 4
      · subst h₄
        have hpath := pathFits_of_filled (hin.2 rfl)
        obtain ⟨hpc', hrest⟩ := initUpload_rest srv dir short (hin.2 rfl)
        rw [if_pos rfl, Served.Fits, MhProtoServer.Fits, hpc', hrest,
          hpath.pathSizeVariable] at h
        exact fits_uploadInit.mpr ⟨hpath, h⟩
      rw [if_neg h₄, Served.Fits, MhProtoServer.Fits, hpc] at h
      exact (fits_unknown ⟨h₁, h₂, h₃, h₄⟩).mpr h
  | sendChunk file wait pos =>
    rw [hpc] at hr
    cases hr
    unfold accesses at hin
    rw [hpc] at hin
    exact (requests_fits_iff fun h => hwait (by rw [waits, hpc, h])).mpr ⟨hin, h⟩
  | receiveChunk file pos n m buffer =>
    rw [hpc] at hr
    cases hr
    unfold accesses at hin
    rw [hpc] at hin
    exact chunks_fits_iff.mpr ⟨hin, h⟩
  | exited | faulted => trivial

/-- The loop of `SendChunkToClient` ends when it has waited long enough. -/
theorem step_waits {w : Wire} {r : Served} (hr : srv.step md5 junk dir w = some r) :
    r.server.waits ≠ some 0 := by
  have hquiet {srv : MhProtoServer} (h : ∀ file wait pos, srv.pc ≠ .sendChunk file wait pos) :
      srv.waits ≠ some 0 := by
    unfold waits
    split
    · next hpc => exact absurd hpc (h _ _ _)
    · nofun
  unfold step at hr
  split at hr <;> cases hr
  · next hpc =>
    unfold rcvCmd
    dsimp only
    split
    · exact hquiet nofun
    · split
      · unfold sendChunkToClient
        dsimp only
        split
        · exact hquiet nofun
        · split
          · exact fun h => absurd (Option.some.inj h) (by decide)
          · exact hquiet nofun
      · split
        · unfold sendMetadataToClient
          dsimp only
          split
          · exact hquiet nofun
          · split <;> exact hquiet nofun
        · split
          · exact hquiet nofun
          · split
            · unfold initUpload
              dsimp only
              split <;> exact hquiet nofun
            · exact hquiet (by rw [hpc]; nofun)
  · have hanswer (n pos : Nat) (file : Path) (data : List UInt8) (v : Wire) :
        (srv.writeAnswer md5 (if n = 0 then .rcvCmd else .sendChunk file n pos) data dir
          v).server.waits ≠ some 0 := by
      unfold writeAnswer
      cases md5Buffer md5 data with
      | none => exact hquiet nofun
      | some md5sum =>
        by_cases hn : n = 0
        · rw [if_pos hn]
          exact hquiet nofun
        · rw [if_neg hn]
          exact fun h => hn (Option.some.inj h)
    unfold sendChunkTurn
    dsimp only
    split
    · exact hquiet nofun
    · split
      · exact hquiet nofun
      · split
        · exact hquiet nofun
        · split
          · exact hquiet nofun
          · exact hanswer _ _ _ _ _
  · obtain ⟨v, -, ⟨pc, rfl | rfl, hturn⟩ | ⟨n, m, b, hturn⟩⟩ := receiveChunkTurn_cases
    · rw [hturn]
      exact hquiet nofun
    · rw [hturn]
      exact hquiet nofun
    · rw [hturn]
      unfold writeChunk
      split <;> exact hquiet nofun

end Steps

/-! ### Runs -/

/-- No file has the empty name, and none is open. -/
structure Session.Named (s : Session) : Prop where
  dir : s.dir [] = none
  file : s.server.fileOpen ≠ some []
  waits : s.server.waits ≠ some 0

section Runs
variable {md5 : Md5} {s s' : Session} {a : SessionAct}

/-- The empty name stays without a file. -/
theorem named_step (hs : s.Named) (ha : a.Possible) (h : s.step md5 a = some s') : s'.Named := by
  cases a with
  | files dir =>
    obtain rfl := Option.some.inj h
    exact ⟨ha, hs.file, hs.waits⟩
  | serve junk script =>
    obtain ⟨r, hr, rfl⟩ := Option.map_eq_some_iff.mp h
    have hwaits := step_waits hr
    rcases MhProtoServer.step_names hr with ⟨p, -, -, hdir, hopen⟩ | hkeep
    · refine ⟨?_, fun hnil => Option.some_ne_none _ (hnil.symm.trans hopen), hwaits⟩
      show r.dir [] = none
      rw [hdir]
      by_cases hp : absoluteFile p = []
      · rw [hp, touch, if_pos (.inl rfl)]
        exact hs.dir
      · rw [touch_of_ne (Ne.symm hp)]
        exact hs.dir
    · refine ⟨?_, fun hnil => ?_, hwaits⟩
      · rcases hkeep.files with hsame | ⟨f, content, hf, hdir⟩
        · exact (congrFun hsame []).trans hs.dir
        · have hne : [] ≠ f := fun hnil => hs.file (hnil ▸ hf)
          show r.dir [] = none
          rw [hdir, update_of_ne _ _ hne]
          exact hs.dir
      · rcases hkeep.fileOpen [] hnil with hopen | hopens
        · exact hs.file hopen
        · -- only UPLOAD_CHUNK opens a file in such a step, and one that is there
          rw [MhProtoServer.opens, hkeep.initPath] at hopens
          split at hopens
          · obtain ⟨hsome, hnil⟩ := Option.ite_none_right_eq_some.mp hopens
            rw [Option.some.inj hnil, Dir.hasFile, hs.dir] at hsome
            cases hsome
          · cases hopens

/-- **One step** on a stream that fits. -/
theorem stepInBounds_of_fits (hs : s.Named) (ha : a.Possible) (hfits : s.server.Fits s.unread)
    (h : s.step md5 a = some s') : StepInBounds s a s' ∧ s'.server.Fits s'.unread := by
  cases a with
  | files dir =>
    obtain rfl := Option.some.inj h
    exact ⟨allInBounds_nil, hfits⟩
  | serve junk script =>
    obtain ⟨r, hr, rfl⟩ := Option.map_eq_some_iff.mp h
    have halike : (Wire.mk s.unread script s.short).Alike ⟨s.unread, [], s.short⟩ :=
      ⟨rfl, rfl, ha, nofun⟩
    have halike' : (Wire.mk s.unread [] s.short).Alike ⟨s.unread, script, s.short⟩ :=
      ⟨rfl, rfl, nofun, ha⟩
    obtain ⟨q, hq, hqr⟩ := MhProtoServer.step_alike halike' hr
    obtain ⟨hin, hrest⟩ := fits_step hs.dir hs.waits hfits hq
    refine ⟨?_, ?_⟩
    · show AllInBounds (s.server.accesses junk _)
      rw [MhProtoServer.accesses_alike halike]
      exact hin
    · rw [Served.Fits, hqr.server, hqr.wire.unread] at hrest
      exact hrest

/-- What has a file or a folder keeps it. -/
theorem isSome_leaves {dir dir' : Dir} (h : MhProtoServer.Leaves dir dir') {p : Path}
    (hp : (dir p).isSome = true) : (dir' p).isSome = true := by
  have hupdate (f : Path) (content : List UInt8) :
      ((update dir f (some (.file content))) p).isSome = true := by
    by_cases hpf : p = f
    · rw [hpf, update_self]
      rfl
    · rwa [update_of_ne _ _ hpf]
  cases h with
  | same => exact hp
  | touched f =>
    unfold touch
    split
    · exact hp
    · exact hupdate f []
  | wrote f content => exact hupdate f content

/-- A stream on which a process with large bytes in its memory, and all files there, stays in
bounds. -/
theorem fits_of_along (md5 : Md5) (hdir : ∀ p ≠ [], (s.dir p).isSome = true)
    (hwait : s.server.waits ≠ some 0)
    (h : ∀ n, (Session.machine md5).Along StepInBounds s (List.replicate n (.serve filled []))) :
    s.server.Fits s.unread := by
  -- by induction on what the process can still do
  induction hn : s.server.pc.rank + 3 * s.unread.length using Nat.strong_induction_on
    generalizing s with
  | _ n ih =>
    cases hstep : s.server.step md5 filled s.dir ⟨s.unread, [], s.short⟩ with
    | none =>
      -- only a process that has ended takes no step
      unfold MhProtoServer.Fits
      unfold MhProtoServer.step at hstep
      cases hpc : s.server.pc with
      | exited | faulted => trivial
      | rcvCmd | sendChunk | receiveChunk =>
        rw [hpc] at hstep
        cases hstep
    | some r =>
      have hrun : s.step md5 (.serve filled []) = some (s.after r) := by
        rw [Session.step, hstep]
        rfl
      have hrank := MhProtoServer.step_rank hstep
      have hleaves := MhProtoServer.step_leaves hstep
      have hrest : (s.after r).server.Fits (s.after r).unread :=
        ih _ (hn ▸ hrank) (fun p hp => isSome_leaves hleaves (hdir p hp)) (step_waits hstep)
          (fun n => (h (n + 1) _ hrun).2) rfl
      exact fits_of_step hdir hwait hstep (h 1 _ hrun).1 hrest

end Runs

/-- An UPLOAD_INIT that is cut behind its path. -/
example : Reading.commands.Fits [4, 1, 0, 97] :=
  fits_uploadInit.mpr ⟨⟨by decide, by decide, by decide⟩, fits_nil _⟩

/-- A session with a client that sends `unread`, on a server that has a file "a". -/
def sampleAccepted (unread : List UInt8) : Session :=
  .accept ⟨Buffer.zero _, 0, Buffer.zero _, 0, 0⟩ [] (Buffer.zero _)
    (fun p => if p = [97] then some (.file []) else none) unread

/-- The header of that file. -/
def sampleAcceptedHeader : Header := ⟨Buffer.zero _, 0, (Buffer.zero _).overlay [97], 1, 0⟩

end Mhftp
