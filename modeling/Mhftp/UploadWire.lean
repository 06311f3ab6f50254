import Mathlib.Data.List.TakeWhile
import Mhftp.Server

/-! # An upload on the wire

What a client sends in an upload, and what the server makes of each piece of it when it
is read without trouble.
-/

namespace Mhftp
open Library

/-- UPLOAD_INIT as `InitUploadOnServer` sends it. -/
def uploadInit (local_file : Path) (chunk_size file_size : Int) (digest : Digest) : List UInt8 :=
  4 :: (encodeInt 2 local_file.length ++ (local_file ++ (encodeInt 8 chunk_size ++
    (encodeInt 8 file_size ++ digest.bytes))))

/-- A chunk as the upload worker sends it. -/
structure ChunkMessage where
  chunkNumber : Nat
  data : List UInt8
  deriving DecidableEq

namespace ChunkMessage

def bytes (m : ChunkMessage) : List UInt8 :=
  encodeInt 8 m.chunkNumber ++ (encodeInt 8 m.data.length ++ m.data)

/-- The numbers fit into their fields, and the data into the server's buffer. -/
structure Fits (m : ChunkMessage) : Prop where
  chunkNumber : (m.chunkNumber : Int) < 2 ^ 63
  data : m.data.length ≤ maxChunkSize

theorem length_bytes (m : ChunkMessage) : m.bytes.length = 16 + m.data.length := by
  simp [bytes]; omega

/-- A message can be told from what follows it. -/
theorem bytes_inj {m m' : ChunkMessage} {xs ys : List UInt8} (hm : m.Fits) (hm' : m'.Fits)
    (h : m.bytes ++ xs = m'.bytes ++ ys) : m = m' ∧ xs = ys := by
  have decoded : ∀ x y : Int, 0 ≤ x → x < 2 ^ 63 → 0 ≤ y → y < 2 ^ 63 →
      encodeInt 8 x = encodeInt 8 y → x = y := by
    intro x y hx hx' hy hy' he
    rw [← decodeInt_encodeInt_of_range (w := 8) (x := x) (by omega) (by omega), he,
      decodeInt_encodeInt_of_range (by omega) (by omega)]
  have hdata := hm.data
  have hdata' := hm'.data
  rw [maxChunkSize_eq] at hdata hdata'
  simp only [bytes, List.append_assoc] at h
  obtain ⟨hnumber, h⟩ := List.append_inj h (by simp)
  obtain ⟨hsize, h⟩ := List.append_inj h (by simp)
  have hlen := decoded _ _ (by omega) (by omega) (by omega) (by omega) hsize
  obtain ⟨hbytes, h⟩ := List.append_inj h (by exact_mod_cast hlen)
  have hk := decoded _ _ (by omega) hm.chunkNumber (by omega) hm'.chunkNumber hnumber
  refine ⟨?_, h⟩
  cases m
  cases m'
  simp only [mk.injEq]
  exact ⟨by exact_mod_cast hk, hbytes⟩

end ChunkMessage

/-- The number that ends an upload. -/
def uploadEnd : List UInt8 := encodeInt 8 (-1)

section Server
variable (md5 : Md5) (junk : Nat → UInt8) {srv : MhProtoServer} {dir : Dir} {ys : List UInt8}
  {short : Bool}

theorem cString_of_notMem {p : Path} (h : 0 ∉ p) : cString p = p := by
  refine List.takeWhile_eq_self_iff.mpr fun b hb => ?_
  simp only [ne_eq, decide_not, Bool.not_eq_true', decide_eq_false_iff_not]
  rintro rfl
  exact h hb

theorem step_of_rcvCmd (hpc : srv.pc = .rcvCmd) (w : Wire) :
    srv.step md5 junk dir w = some (srv.rcvCmd md5 junk dir w) := by
  unfold MhProtoServer.step
  rw [hpc]

/-- The end of the stream ends the process. -/
theorem rcvCmd_eof (short : Bool) :
    srv.rcvCmd md5 junk dir ⟨[], [], short⟩ = ⟨srv.goto .exited, dir, ⟨[], [], true⟩, []⟩ := by
  simp [MhProtoServer.rcvCmd, Wire.soRead_clean]

/-- A path is read in full. -/
theorem readPath_clean {p : Path} (hnul : 0 ∉ p) :
    MhProtoServer.readPath p.length ⟨p ++ ys, [], short⟩ = ⟨p.length, p, ys, [], short⟩ := by
  rw [MhProtoServer.readPath, if_neg (by omega)]
  simp only [Int.toNat_natCast, Wire.soRead_clean_append, cString_of_notMem hnul]

/-- The size of a path is read in full. -/
theorem readPathSize_clean {p : Path} (hlength : p.length < fnameSize) (b : Buffer 2)
    (ys : List UInt8) (short : Bool) :
    ∃ size : Buffer 2, decodeInt size.bytes = p.length ∧
      (Wire.mk (encodeInt 2 (p.length : Int) ++ ys) [] short).readBuffer b =
        ⟨2, size, ys, [], short⟩ := by
  unfold fnameSize at hlength
  exact ⟨⟨encodeInt 2 p.length, length_encodeInt _ _⟩,
    decodeInt_encodeInt_of_range (by omega) (by omega),
    Wire.readBuffer_clean (c := ⟨encodeInt 2 p.length, length_encodeInt _ _⟩)⟩

/-- A request for metadata is answered with the metadata of the file, or that there is none. -/
theorem rcvCmd_sendMetadata {p : Path} {chunk_size : Int} (hlen : p.length < fnameSize)
    (hnul : 0 ∉ p) (hc : -2 ^ 63 ≤ chunk_size ∧ chunk_size < 2 ^ 63) :
    srv.rcvCmd md5 junk dir
        ⟨2 :: (encodeInt 8 chunk_size ++ (encodeInt 2 p.length ++ (p ++ ys))), [], short⟩ =
      let taken := if chunk_size = 0 then (defaultChunkSize : Int) else chunk_size
      ⟨{ srv with pc := .rcvCmd, chunkSize := taken }, dir, ⟨ys, [], short⟩,
        (dir p).elim (encodeInt 2 1) fun node => encodeInt 2 0 ++
          (MhProtoServer.metadataForNode md5 junk p node taken).writeMetadataHeader⟩ := by
  have hcmd : ∀ zs, (Wire.mk (2 :: zs) [] short).soRead 1 = ⟨1, [2], zs, [], short⟩ :=
    fun zs => Wire.soRead_clean_append [2]
  obtain ⟨size, hsize, hread⟩ :=
    readPathSize_clean hlen (unsetBuffer junk 8 2) (p ++ ys) short
  rw [MhProtoServer.rcvCmd]
  simp only [hcmd]
  rw [if_neg (by decide), if_neg (by decide), if_pos trivial, MhProtoServer.sendMetadataToClient]
  simp only [Wire.readInt64_clean hc, hread, hsize]
  rw [if_neg (by omega)]
  simp only [readPath_clean hnul]
  cases dir p <;> rfl

/-- **UPLOAD_INIT** sets the chunk size and the file, and creates the file. -/
theorem rcvCmd_uploadInit {local_file : Path} {chunk_size file_size : Int} {digest : Digest}
    (hlen : local_file.length < fnameSize) (hnul : 0 ∉ local_file)
    (hc : -2 ^ 63 ≤ chunk_size ∧ chunk_size < 2 ^ 63)
    (hs : -2 ^ 63 ≤ file_size ∧ file_size < 2 ^ 63) :
    srv.rcvCmd md5 junk dir
        ⟨uploadInit local_file chunk_size file_size digest ++ ys, [], short⟩ =
      ⟨⟨.rcvCmd, srv.metadata, chunk_size, absoluteFile local_file, digest⟩,
        touch dir (absoluteFile local_file), ⟨ys, [], short⟩, []⟩ := by
  have hcmd : ∀ zs, (Wire.mk (4 :: zs) [] short).soRead 1 = ⟨1, [4], zs, [], short⟩ :=
    fun zs => Wire.soRead_clean_append [4]
  simp only [uploadInit, List.cons_append, List.append_assoc]
  rw [MhProtoServer.rcvCmd]
  simp only [hcmd]
  rw [if_neg (by decide), if_neg (by decide), if_neg (by decide), if_neg (by decide),
    if_pos trivial, MhProtoServer.initUpload]
  obtain ⟨size, hsize, hread⟩ := readPathSize_clean hlen (unsetBuffer junk 0 2)
    (local_file ++ (encodeInt 8 chunk_size ++ (encodeInt 8 file_size ++ (digest.bytes ++ ys))))
    short
  simp only [hread, hsize]
  rw [if_neg (by omega)]
  simp only [readPath_clean hnul, Wire.readInt64_clean hc, Wire.readInt64_clean hs,
    Wire.readBuffer_clean]

/-- **UPLOAD_CHUNK** opens the file. -/
theorem rcvCmd_uploadChunk :
    srv.rcvCmd md5 junk dir ⟨3 :: ys, [], short⟩ =
      srv.receiveChunkFromClient junk dir ⟨ys, [], short⟩ := by
  simp [MhProtoServer.rcvCmd, Wire.soRead_clean]

variable {file : Option Path} {pos : Nat} {chunkNumber chunkSize : Int} {buffer : Nat → UInt8}

/-- The server turns on a chunk message: all of the message is written. -/
theorem receiveChunkTurn_message {m : ChunkMessage} (hm : m.Fits) :
    srv.receiveChunkTurn file pos chunkNumber chunkSize buffer dir ⟨m.bytes ++ ys, [], short⟩ =
      srv.writeChunk file pos m.chunkNumber m.data.length (store buffer m.data) dir
        ⟨ys, [], short⟩ := by
  have hdata : m.data.length ≤ maxChunkSize := hm.data
  have hdata' : m.data.length ≤ 20971520 := maxChunkSize_eq ▸ hm.data
  have hnumber := hm.chunkNumber
  have hlen : (m.data.length : Int).bmod (2 ^ 32) = m.data.length :=
    Int.bmod_eq_of_le_mul_two (by omega) (by omega)
  have hpos : ¬ (8 : Int) ≤ 0 := by decide
  simp only [ChunkMessage.bytes, List.append_assoc]
  rw [MhProtoServer.receiveChunkTurn]
  simp only [Wire.readInt64_clean (y := (m.chunkNumber : Int)) (by omega), hpos, if_false]
  rw [if_neg (by omega)]
  simp only [Wire.readInt64_clean (y := (m.data.length : Int)) (by omega), hlen]
  rw [if_neg (by omega), if_neg (by omega)]
  simp only [Int.toNat_natCast, Wire.soRead_clean_append]

/-- What the server writes of a message that it has read. -/
theorem writeChunk_message {f : Path} {m : ChunkMessage} {w : Wire} :
    srv.writeChunk (some f) pos m.chunkNumber m.data.length (store buffer m.data) dir w =
      ⟨srv.goto (.receiveChunk (some f)
          (seek pos (m.chunkNumber * srv.chunkSize) + m.data.length) m.chunkNumber m.data.length
          (store buffer m.data)),
        update dir f
          (some (.file
            (pwrite (dir.content f) (seek pos (m.chunkNumber * srv.chunkSize)) m.data))),
        w, []⟩ := by
  simp only [MhProtoServer.writeChunk, Int.toNat_natCast, map_store]

/-- The end of the stream ends the loop. -/
theorem receiveChunkTurn_eof :
    srv.receiveChunkTurn file pos chunkNumber chunkSize buffer dir ⟨[], [], short⟩ =
      ⟨srv.goto .rcvCmd, dir, ⟨[], [], true⟩, []⟩ := by
  simp [MhProtoServer.receiveChunkTurn, Wire.readInt64, Wire.soRead_clean]

/-- The closing number ends the loop. -/
theorem receiveChunkTurn_end :
    srv.receiveChunkTurn file pos chunkNumber chunkSize buffer dir ⟨uploadEnd ++ ys, [], short⟩ =
      ⟨srv.goto .rcvCmd, dir, ⟨ys, [], short⟩, []⟩ := by
  simp [MhProtoServer.receiveChunkTurn, uploadEnd, Wire.readInt64_clean]

end Server
end Mhftp
