import Mhftp.Server

/-! # A session with a server process

A server process on one connection, as a machine: it serves (`serve`, with what its memory
holds and what its reads return), and other processes may change the files of its directory
(`files`).

How the bytes of a connection come in pieces makes no difference to what the process does,
as long as each `read` returns some of them (`step_alike`).
-/

namespace Mhftp
open Library

/-- A server process, its directory, the bytes that it will still read, and those that it
has sent. -/
structure Session where
  server : MhProtoServer
  dir : Dir
  unread : List UInt8
  short : Bool := false
  sent : List UInt8 := []

inductive SessionAct
  | serve (junk : Nat → UInt8) (script : List (List ReadResult))
  | files (dir : Dir)

namespace Session
variable (md5 : Md5)

/-- A connection that has been accepted: the members of the process that its constructor
does not set are what the memory held. -/
def accept (metadata : Header) (localFile : Path) (uploadDigest : Digest) (dir : Dir)
    (unread : List UInt8) : Session :=
  { server := .create metadata localFile uploadDigest, dir, unread }

/-- The session after a step of its process. -/
def after (s : Session) (r : Served) : Session :=
  ⟨r.server, r.dir, r.wire.unread, r.wire.short, s.sent ++ r.out⟩

def step (s : Session) : SessionAct → Option Session
  | .serve junk script =>
    (s.server.step md5 junk s.dir ⟨s.unread, script, s.short⟩).map s.after
  | .files dir => some { s with dir }

def machine : Machine Session SessionAct := ⟨step md5⟩

end Session

/-! ### Pieces -/

/-- Every `read` returns some bytes. -/
def ReadResult.Piece : ReadResult → Prop
  | count n => 0 < n
  | eagain | error => False

instance (r : ReadResult) : Decidable r.Piece :=
  match r with
  | .count n => inferInstanceAs (Decidable (0 < n))
  | .eagain | .error => inferInstanceAs (Decidable False)

/-- The bytes come in pieces. -/
def Pieces (script : List (List ReadResult)) : Prop := ∀ rs ∈ script, ∀ r ∈ rs, r.Piece

section SoRead
variable {stream : List UInt8} {len : Nat} {rs : List ReadResult}

theorem soReadLoop_pieces (h : ∀ r ∈ rs, r.Piece) :
    soReadLoop stream len rs = min len stream.length := by
  induction rs generalizing stream len with
  | nil => rfl
  | cons r rs ih =>
    have hrs : ∀ r ∈ rs, r.Piece := fun r hr => h r (List.mem_cons_of_mem _ hr)
    cases r with
    | eagain | error => exact (h _ List.mem_cons_self).elim
    | count n =>
      have hn : 0 < n := h _ List.mem_cons_self
      rw [soReadLoop]
      split
      · omega
      · dsimp only
        rw [ih hrs, List.length_drop]
        split <;> omega

/-- **A `so_read` puts the pieces together.** -/
theorem soRead_pieces (h : ∀ r ∈ rs, r.Piece) : soRead stream len rs = soRead stream len [] := by
  cases rs with
  | nil => rfl
  | cons r rs =>
    have hrs : ∀ r ∈ rs, r.Piece := fun r hr => h r (List.mem_cons_of_mem _ hr)
    cases r with
    | eagain | error => exact (h _ List.mem_cons_self).elim
    | count n =>
      have hcount : soReadCount stream len (.count n :: rs) = soReadCount stream len [] := by
        have hn : 0 < n := h _ List.mem_cons_self
        rw [soReadCount, soReadCount, soReadLoop_pieces hrs, List.length_drop]
        congr 1
        omega
      rw [soRead, hcount, soRead]

end SoRead

/-- Two wires with the same bytes, which come in pieces. -/
structure Wire.Alike (w v : Wire) : Prop where
  unread : w.unread = v.unread
  short : w.short = v.short
  left : Pieces w.script
  right : Pieces v.script

/-- Two reads that differ in how the bytes come only. -/
structure Read.Alike {α : Type} (r q : Read α) : Prop where
  br : r.br = q.br
  value : r.value = q.value
  wire : r.wire.Alike q.wire

/-- Two steps that do. -/
structure Served.Alike (r q : Served) : Prop where
  server : r.server = q.server
  dir : r.dir = q.dir
  out : r.out = q.out
  wire : r.wire.Alike q.wire

section Reads
variable {w v : Wire} {n : Nat}

theorem Pieces.head {script : List (List ReadResult)} (h : Pieces script) :
    ∀ r ∈ script.headD [], r.Piece := by
  cases script with
  | nil => exact fun r hr => by cases hr
  | cons rs script => exact h rs List.mem_cons_self

theorem Pieces.tail {script : List (List ReadResult)} (h : Pieces script) : Pieces script.tail :=
  fun rs hrs => h rs (List.mem_of_mem_tail hrs)

theorem Wire.Alike.soRead (h : w.Alike v) (n : Nat) : (w.soRead n).Alike (v.soRead n) := by
  have hread : Mhftp.soRead w.unread n (w.script.headD []) =
      Mhftp.soRead v.unread n (v.script.headD []) := by
    rw [soRead_pieces h.left.head, soRead_pieces h.right.head, h.unread]
  refine ⟨congrArg SoRead.br hread, congrArg SoRead.bytes hread, congrArg SoRead.rest hread, ?_,
    h.left.tail, h.right.tail⟩
  show (w.short || (Mhftp.soRead _ _ _).br != n) = (v.short || (Mhftp.soRead _ _ _).br != n)
  rw [hread, h.short]

theorem Wire.Alike.readBuffer (h : w.Alike v) (b : Buffer n) :
    (w.readBuffer b).Alike (v.readBuffer b) :=
  ⟨(h.soRead n).br, congrArg b.overlay (h.soRead n).value, (h.soRead n).wire⟩

theorem Wire.Alike.readInt64 (h : w.Alike v) (x : Int) : (w.readInt64 x).Alike (v.readInt64 x) :=
  ⟨(h.soRead 8).br, congrArg (Wire.overlayInt x) (h.soRead 8).value, (h.soRead 8).wire⟩

theorem Wire.Alike.readMetadataHeader (h : w.Alike v) (g : Header) :
    (g.readMetadataHeader w).1 = (g.readMetadataHeader v).1 ∧
      (g.readMetadataHeader w).2.Alike (g.readMetadataHeader v).2 := by
  have hdigest := h.readBuffer g.digest
  have hfileSize := hdigest.wire.readInt64 g.fileSize
  have hfileFull := hfileSize.wire.readBuffer g.fileFull
  have hchunkSize := hfileFull.wire.readInt64 g.chunkSize
  have hchunks := hchunkSize.wire.readInt64 g.chunks
  simp only [Header.readMetadataHeader, hdigest.value, hfileSize.value, hfileFull.value,
    hchunkSize.value, hchunks.value, true_and]
  exact hchunks.wire

end Reads

namespace MhProtoServer
variable {md5 : Md5} {junk : Nat → UInt8} {srv : MhProtoServer} {dir : Dir} {w v : Wire}

theorem readPath_alike (h : w.Alike v) (size : Int) :
    (readPath size w).Alike (readPath size v) := by
  unfold readPath
  split
  · exact ⟨rfl, rfl, h⟩
  · have hpath := h.soRead size.toNat
    exact ⟨hpath.br, congrArg cString hpath.value, hpath.wire⟩

theorem sendChunkToClient_alike (h : w.Alike v) :
    (srv.sendChunkToClient dir w).Alike (srv.sendChunkToClient dir v) := by
  obtain ⟨hheader, hwire⟩ := h.readMetadataHeader srv.metadata
  unfold sendChunkToClient
  simp only [hheader]
  repeat (first | exact ⟨rfl, rfl, rfl, hwire⟩ | split)

theorem writeAnswer_alike {pc : ServerPc} {data : List UInt8} (h : w.Alike v) :
    (srv.writeAnswer md5 pc data dir w).Alike (srv.writeAnswer md5 pc data dir v) := by
  unfold writeAnswer
  split <;> exact ⟨rfl, rfl, rfl, h⟩

theorem sendChunkTurn_alike {file : Path} {wait pos : Nat} (h : w.Alike v) :
    (srv.sendChunkTurn md5 junk file wait pos dir w).Alike
      (srv.sendChunkTurn md5 junk file wait pos dir v) := by
  have hnumber := h.readBuffer (Buffer.zero 7)
  unfold sendChunkTurn
  simp only [hnumber.br, hnumber.value]
  repeat first
    | exact ⟨rfl, rfl, rfl, hnumber.wire⟩
    | exact writeAnswer_alike hnumber.wire
    | split

theorem sendMetadataToClient_alike (h : w.Alike v) :
    (srv.sendMetadataToClient md5 junk dir w).Alike (srv.sendMetadataToClient md5 junk dir v) := by
  have hchunkSize := h.readInt64 (decodeInt (unset junk 0 8))
  have hpathSize := hchunkSize.wire.readBuffer (unsetBuffer junk 8 2)
  have hpath := readPath_alike hpathSize.wire (decodeInt
    ((v.readInt64 (decodeInt (unset junk 0 8))).wire.readBuffer
      (unsetBuffer junk 8 2)).value.bytes)
  unfold sendMetadataToClient
  simp only [hchunkSize.value, hpathSize.value, hpath.value]
  split
  · exact ⟨rfl, rfl, rfl, hpathSize.wire⟩
  · split
    · exact ⟨rfl, rfl, rfl, hpath.wire⟩
    · exact ⟨rfl, rfl, rfl, hpath.wire⟩

theorem writeChunk_alike {file : Option Path} {pos : Nat} {chunkNumber chunkSize : Int}
    {buffer : Nat → UInt8} (h : w.Alike v) :
    (srv.writeChunk file pos chunkNumber chunkSize buffer dir w).Alike
      (srv.writeChunk file pos chunkNumber chunkSize buffer dir v) := by
  unfold writeChunk
  split <;> exact ⟨rfl, rfl, rfl, h⟩

theorem receiveChunkTurn_alike {file : Option Path} {pos : Nat} {chunkNumber chunkSize : Int}
    {buffer : Nat → UInt8} (h : w.Alike v) :
    (srv.receiveChunkTurn file pos chunkNumber chunkSize buffer dir w).Alike
      (srv.receiveChunkTurn file pos chunkNumber chunkSize buffer dir v) := by
  have hnumber := h.readInt64 chunkNumber
  have hsize := hnumber.wire.readInt64 chunkSize
  have hdata := hsize.wire.soRead (((v.readInt64 chunkNumber).wire.readInt64 chunkSize).value.bmod
    (2 ^ 32)).toNat
  unfold receiveChunkTurn
  simp only [hnumber.br, hnumber.value, hsize.value, hdata.value]
  by_cases hend : (if (v.readInt64 chunkNumber).br ≤ 0 then -1
      else (v.readInt64 chunkNumber).value) = -1
  · rw [if_pos hend, if_pos hend]
    exact ⟨rfl, rfl, rfl, hnumber.wire⟩
  · rw [if_neg hend, if_neg hend]
    split
    · exact ⟨rfl, rfl, rfl, hsize.wire⟩
    · split
      · exact writeChunk_alike hsize.wire
      · exact writeChunk_alike hdata.wire

theorem initUpload_alike (h : w.Alike v) :
    (srv.initUpload junk dir w).Alike (srv.initUpload junk dir v) := by
  have hpathSize := h.readBuffer (unsetBuffer junk 0 2)
  have hpath := readPath_alike hpathSize.wire (decodeInt
    (v.readBuffer (unsetBuffer junk 0 2)).value.bytes)
  have hchunkSize := hpath.wire.readInt64 srv.chunkSize
  have hfileSize := hchunkSize.wire.readInt64 (decodeInt (unset junk 2 8))
  have hdigest := hfileSize.wire.readBuffer srv.uploadDigest
  unfold initUpload
  simp only [hpathSize.value, hpath.value, hchunkSize.value, hdigest.value]
  split
  · exact ⟨rfl, rfl, rfl, hpathSize.wire⟩
  · exact ⟨rfl, rfl, rfl, hdigest.wire⟩

theorem rcvCmd_alike (h : w.Alike v) :
    (srv.rcvCmd md5 junk dir w).Alike (srv.rcvCmd md5 junk dir v) := by
  have hcmd := h.soRead 1
  unfold rcvCmd
  simp only [hcmd.br, hcmd.value]
  split
  · exact ⟨rfl, rfl, rfl, hcmd.wire⟩
  · split
    · exact sendChunkToClient_alike hcmd.wire
    · split
      · exact sendMetadataToClient_alike hcmd.wire
      · split
        · exact ⟨rfl, rfl, rfl, hcmd.wire⟩
        · split
          · exact initUpload_alike hcmd.wire
          · exact ⟨rfl, rfl, rfl, hcmd.wire⟩

/-- **How the bytes come in pieces makes no difference** to what a process does. -/
theorem step_alike (h : w.Alike v) {q : Served} (hq : srv.step md5 junk dir v = some q) :
    ∃ r, srv.step md5 junk dir w = some r ∧ r.Alike q := by
  unfold step at hq ⊢
  split at hq
  · obtain rfl := Option.some.inj hq
    exact ⟨_, rfl, rcvCmd_alike h⟩
  · obtain rfl := Option.some.inj hq
    exact ⟨_, rfl, sendChunkTurn_alike h⟩
  · obtain rfl := Option.some.inj hq
    exact ⟨_, rfl, receiveChunkTurn_alike h⟩
  · cases hq
  · cases hq

end MhProtoServer

namespace MhProtoServer
variable {srv : MhProtoServer} {w : Wire}

/-- The command that a process reads next. -/
def nextCommand (srv : MhProtoServer) (w : Wire) : List UInt8 :=
  match srv.pc with
  | .rcvCmd => if (w.soRead 1).br ≤ 0 then [] else (w.soRead 1).value
  | _ => []

theorem nextCommand_alike {v : Wire} (h : w.Alike v) :
    srv.nextCommand w = srv.nextCommand v := by
  have hcmd := h.soRead 1
  unfold nextCommand
  rw [hcmd.br, hcmd.value]

theorem nextCommand_of_ne (h : srv.pc ≠ .rcvCmd) : srv.nextCommand w = [] := by
  unfold nextCommand
  split
  · next hpc => exact absurd hpc h
  · rfl

end MhProtoServer

/-- The process serves, and the bytes come in pieces. -/
def SessionAct.InPieces : SessionAct → Prop
  | serve _ script => Pieces script
  | files _ => False

/-- A session may be followed on the clean wire, where each `read` returns all it can. -/
theorem SessionAct.InPieces.step (md5 : Md5) {a : SessionAct} (h : a.InPieces) :
    ∃ junk, ∀ {s : Session} {q : Served},
      s.server.step md5 junk s.dir ⟨s.unread, [], s.short⟩ = some q →
        s.step md5 a = some (s.after q) := by
  cases a with
  | files => exact h.elim
  | serve junk script =>
    refine ⟨junk, fun {s q} hq => ?_⟩
    have halike : (Wire.mk s.unread script s.short).Alike ⟨s.unread, [], s.short⟩ :=
      ⟨rfl, rfl, h, nofun⟩
    obtain ⟨r, hr, hrq⟩ := MhProtoServer.step_alike halike hq
    rw [Session.step, hr, Option.map_some, Session.after, Session.after, hrq.server, hrq.dir,
      hrq.out, hrq.wire.unread, hrq.wire.short]

end Mhftp
