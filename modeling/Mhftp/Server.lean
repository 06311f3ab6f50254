import Mhftp.Metadata
import Mhftp.Library.Machine

/-! # The server process

`core` calls `RcvCmd` for ever.  The process is cut where it goes back to its socket:
one `step` handles a command up to its loop, or one turn of the loop of
`SendChunkToClient` or `ReceiveChunkFromClient`.  A step reads from its `Wire`, may
show the files of its directory, and says what it writes to the socket.

Memory that the code does not initialise is an input of the step (`junk`), one place of it
for each variable and each buffer.  Where the code leaves its arrays or runs out of memory
the process is `faulted`, and the model says nothing more.

A name stands for a regular file or a folder.  Outside the model are names that are devices
or pipes, two names for one file, names that the system refuses for their length, files
without permission to read and write, the largest size that the file system has for a file,
and a `malloc` of less than the address space that fails.
-/

namespace Mhftp
open Library

/-- What a name stands for. -/
inductive Node
  | file (content : List UInt8)
  | folder (st_size : Nat)
  deriving DecidableEq

/-- What a `read` gives; on a folder it fails. -/
def Node.content : Node → List UInt8
  | .file content => content
  | .folder _ => []

/-- What `fstat` says. -/
def Node.st_size : Node → Nat
  | .file content => content.length
  | .folder st_size => st_size

/-- The names that the process can see. -/
abbrev Dir := Path → Option Node

/-- The bytes of a regular file. -/
def Dir.content (dir : Dir) (p : Path) : List UInt8 := ((dir p).map Node.content).getD []

/-- A regular file, one that can be opened for writing. -/
def Dir.hasFile (dir : Dir) (p : Path) : Bool :=
  match dir p with
  | some (.file _) => true
  | _ => false

/-- A folder, which can only be opened for reading. -/
def Dir.isFolder (dir : Dir) (p : Path) : Bool :=
  match dir p with
  | some (.folder _) => true
  | _ => false

section Dir
variable {dir : Dir} {p : Path} {content : List UInt8}

theorem content_of_file (h : dir p = some (.file content)) : dir.content p = content := by
  rw [Dir.content, h]; rfl

theorem hasFile_of_file (h : dir p = some (.file content)) : dir.hasFile p = true := by
  rw [Dir.hasFile, h]

theorem hasFile_iff : dir.hasFile p = true ↔ ∃ content, dir p = some (.file content) := by
  unfold Dir.hasFile
  split <;> simp_all

theorem hasFile_congr {dir' : Dir} (h : dir p = dir' p) : dir.hasFile p = dir'.hasFile p := by
  rw [Dir.hasFile, Dir.hasFile, h]

theorem isFolder_congr {dir' : Dir} (h : dir p = dir' p) : dir.isFolder p = dir'.isFolder p := by
  rw [Dir.isFolder, Dir.isFolder, h]

theorem content_congr {dir' : Dir} (h : dir p = dir' p) : dir.content p = dir'.content p := by
  rw [Dir.content, Dir.content, h]

end Dir

/-- The string in a buffer. -/
def cString (bytes : List UInt8) : Path := bytes.takeWhile (· ≠ 0)

/-- `AbsoluteFile`: what follows the last '/', where one at the very front does not
count. -/
def absoluteFile : Path → Path
  | [] => []
  | c :: p => if 47 ∈ p then (p.reverse.takeWhile (· ≠ 47)).reverse else c :: p

/-! ### The text of a chunk request -/

/-- `"%ld"` -/
def decimalText (n : Int) : List UInt8 :=
  (if n < 0 then [45] else []) ++ (Nat.toDigits 10 n.natAbs).map fun c => UInt8.ofNat c.toNat

/-- The seven bytes `RequestChunk` writes: `snprintf` keeps six characters and a NUL. -/
def requestChunk (chunkNumber : Int) : Buffer 7 :=
  (Buffer.zero 7).overlay ((decimalText chunkNumber).take 6)

def isSpace (b : UInt8) : Bool := b = 32 || (9 ≤ b && b ≤ 13)
def isDigit (b : UInt8) : Bool := 48 ≤ b && b ≤ 57

/-- The value of a string of digits. -/
def digitsValue (s : List UInt8) : Nat := s.foldl (fun v b => 10 * v + (b.toNat - 48)) 0

/-- `atoi`: blanks, a sign, digits; `strtol` saturates and the result is cut to an int. -/
def atoi (s : List UInt8) : Int :=
  let s := s.dropWhile isSpace
  let text := if s.head? = some 45 ∨ s.head? = some 43 then s.tail else s
  let value : Int := digitsValue (text.takeWhile isDigit)
  let value := if s.head? = some 45 then -value else value
  (max (-2 ^ 63) (min (2 ^ 63 - 1) value)).bmod (2 ^ 32)

/-! ### Memory that nobody has written to -/

/-- `n` bytes of it. -/
def unset (junk : Nat → UInt8) (start n : Nat) : List UInt8 :=
  (List.range n).map fun i => junk (start + i)

@[simp] theorem length_unset (junk : Nat → UInt8) (start n : Nat) :
    (unset junk start n).length = n := by
  simp [unset]

/-- A variable of `n` bytes, or an array on the stack. -/
def unsetBuffer (junk : Nat → UInt8) (start n : Nat) : Buffer n :=
  ⟨unset junk start n, length_unset junk start n⟩

/-! ### The process -/

/-- Where the process is. -/
inductive ServerPc
  | rcvCmd
  /-- in the loop of `SendChunkToClient`, with the file it has opened and its position -/
  | sendChunk (file : Path) (waitForClient : Nat) (pos : Nat)
  /-- in the loop of `ReceiveChunkFromClient`, with the file it has opened, if that
  worked, its position, and the local variables -/
  | receiveChunk (file : Option Path) (pos : Nat) (chunkNumber chunkSize : Int)
      (buffer : Nat → UInt8)
  | exited
  | faulted

structure MhProtoServer where
  pc : ServerPc
  metadata : Header
  chunkSize : Int
  localFile : Path
  uploadDigest : Digest

/-- What a step leaves, and what it writes to the socket. -/
structure Served where
  server : MhProtoServer
  dir : Dir
  wire : Wire
  out : List UInt8 := []

/-- MH_RETRY -/
def mhRetry : Nat := 10

/-- The bytes stored in a large buffer. -/
def store (buffer : Nat → UInt8) (bytes : List UInt8) : Nat → UInt8 :=
  fun i => (bytes[i]?).getD (buffer i)

theorem map_store (buffer : Nat → UInt8) (data : List UInt8) :
    (List.range data.length).map (store buffer data) = data := by
  refine List.ext_getElem (by simp) fun i h₁ h₂ => ?_
  simp [store, h₂]

/-- A `lseek` to `filePos`, which has 64 bits; where it is negative it fails and leaves the
position as it was. -/
def seek (pos : Nat) (filePos : Int) : Nat :=
  if 0 ≤ int64 filePos then (int64 filePos).toNat else pos

theorem seek_of_lt {n : Nat} (pos : Nat) (h : n < 2 ^ 63) : seek pos n = n := by
  rw [seek, int64_of_range (by omega), if_pos (Int.natCast_nonneg n), Int.toNat_natCast]

/-- The position of a chunk in a file of possible size. -/
theorem seek_mul {k c : Nat} (pos : Nat) (h : k * c < 2 ^ 63) :
    seek pos ((k : Int) * c) = k * c := by
  rw [← Int.natCast_mul, seek_of_lt pos h]

/-- `malloc` has no block of that size: as a `size_t` it goes beyond the address space. -/
def NoBlock (size : Int) : Prop := size < 0 ∨ 2 ^ 47 ≤ size

instance (size : Int) : Decidable (NoBlock size) := inferInstanceAs (Decidable (_ ∨ _))

/-- One `read` or `write` moves less than the address space. -/
theorem not_noBlock {size : Int} (h : 0 ≤ size) (hmax : size ≤ maxCount) : ¬ NoBlock size := by
  rw [maxCount_eq] at hmax
  unfold NoBlock
  omega

/-- `Chunk` and `LoadChunkFromFile`: the bytes of the file that one `read` gives, and what
was in the fresh memory behind them. -/
def loadChunkFromFile (junk : Nat → UInt8) (file : List UInt8) (pos size : Nat) : List UInt8 :=
  let data := pread file pos (min size maxCount)
  data ++ unset junk data.length (size - data.length)

/-- What one `read` gives of the file does not depend on the memory. -/
theorem loadChunkFromFile_of_le {file : List UInt8} {pos size : Nat} (hmax : size ≤ maxCount)
    (h : size ≤ file.length - pos) (junk : Nat → UInt8) :
    loadChunkFromFile junk file pos size = pread file pos size := by
  have hlen : (pread file pos size).length = size := by
    rw [pread, List.length_take, List.length_drop]
    omega
  rw [loadChunkFromFile, min_eq_left hmax, hlen, Nat.sub_self]
  exact List.append_nil _

/-- All of the memory of a chunk is sent. -/
theorem length_loadChunkFromFile (junk : Nat → UInt8) (file : List UInt8) (pos size : Nat) :
    (loadChunkFromFile junk file pos size).length = size := by
  have hle : (pread file pos (min size maxCount)).length ≤ min size maxCount :=
    List.length_take_le _ _
  simp only [loadChunkFromFile, List.length_append, length_unset]
  omega

/-- The names that no regular file has: the empty one, ".", "..", "/", "/." and "/..". -/
def namesNoFile (file : Path) : Bool :=
  file ∈ [[], [46], [46, 46], [47], [47, 46], [47, 46, 46]]

/-- The directory after an `open` for writing with O_CREAT. -/
def touch (dir : Dir) (file : Path) : Dir :=
  if namesNoFile file ∨ (dir file).isSome then dir else update dir file (some (.file []))

section Touch
variable {dir : Dir} {file p : Path}

theorem hasFile_update (h : dir.hasFile p = true) (content : List UInt8) :
    Dir.hasFile (update dir file (some (.file content))) p = true := by
  by_cases hp : p = file
  · rw [Dir.hasFile, hp, update_self]
  · rw [hasFile_congr (update_of_ne _ _ hp)]; exact h

theorem content_update_self (content : List UInt8) :
    Dir.content (update dir file (some (.file content))) file = content :=
  content_of_file (update_self _ _ _)

theorem hasFile_touch_of_hasFile (h : dir.hasFile p = true) :
    (touch dir file).hasFile p = true := by
  unfold touch
  split
  · exact h
  · exact hasFile_update h []

/-- The file is there, unless its name is that of a folder. -/
theorem hasFile_touch (hfile : namesNoFile file = false) (hfolder : dir.isFolder file = false) :
    (touch dir file).hasFile file = true := by
  unfold touch
  split
  · next h =>
    obtain ⟨node, hnode⟩ := Option.isSome_iff_exists.mp (h.resolve_left (by simp [hfile]))
    cases node with
    | file content => exact hasFile_of_file hnode
    | folder n => simp [Dir.isFolder, hnode] at hfolder
  · exact hasFile_of_file (update_self _ _ _)

theorem hasFile_touch_of_isFolder (h : dir.isFolder file = true) :
    (touch dir file).hasFile file = false := by
  have hnode : ∃ n, dir file = some (.folder n) := by
    unfold Dir.isFolder at h
    split at h
    · next n hn => exact ⟨n, hn⟩
    · cases h
  obtain ⟨n, hn⟩ := hnode
  rw [touch, if_pos (.inr (by rw [hn]; rfl)), Dir.hasFile, hn]

theorem touch_of_ne (h : p ≠ file) : touch dir file p = dir p := by
  unfold touch
  split
  · rfl
  · exact update_of_ne _ _ h

theorem content_touch : (touch dir file).content file = dir.content file := by
  unfold touch
  split
  · rfl
  · next hno =>
    rw [not_or, Option.not_isSome_iff_eq_none] at hno
    rw [content_update_self, Dir.content, hno.2]
    rfl

theorem isFolder_update (h : dir.isFolder p = false) (content : List UInt8) :
    Dir.isFolder (update dir file (some (.file content))) p = false := by
  by_cases hp : p = file
  · rw [Dir.isFolder, hp, update_self]
  · rw [isFolder_congr (update_of_ne _ _ hp)]; exact h

theorem isFolder_touch (h : dir.isFolder p = false) : (touch dir file).isFolder p = false := by
  unfold touch
  split
  · exact h
  · exact isFolder_update h []

end Touch

/-- A chunk as a worker takes it in: md5sum, size, data. -/
def chunkMessage (md5 : Md5) (data : List UInt8) : List UInt8 :=
  (md5 data).bytes ++ (encodeInt 8 data.length ++ data)

/-- What the three writes of `SendChunkToClient` send. -/
def sentMessage (md5sum : Digest) (data : List UInt8) : List UInt8 :=
  md5sum.bytes ++ (encodeInt 8 data.length ++ data.take maxCount)

theorem sentMessage_of_le (md5 : Md5) {data : List UInt8} (h : data.length ≤ maxCount) :
    sentMessage (md5 data) data = chunkMessage md5 data := by
  rw [sentMessage, List.take_of_length_le h, chunkMessage]

namespace MhProtoServer
variable (md5 : Md5) (junk : Nat → UInt8)

def goto (srv : MhProtoServer) (pc : ServerPc) : MhProtoServer := { srv with pc }

/-- `SendChunkToClient` up to its loop.  `getPayLoadArray` counts with an int: from 2^31
chunks on it leaves its array. -/
def sendChunkToClient (srv : MhProtoServer) (dir : Dir) (w : Wire) : Served :=
  let r := srv.metadata.readMetadataHeader w
  let srv := { srv with metadata := r.1 }
  let file := cString r.1.fileFull.bytes
  if 2 ^ 31 ≤ r.1.chunks then ⟨srv.goto .faulted, dir, r.2, []⟩
  else if (dir file).isSome then ⟨srv.goto (.sendChunk file mhRetry 0), dir, r.2, []⟩
  else ⟨srv.goto .exited, dir, r.2, []⟩

/-- The last part of a turn of the loop of `SendChunkToClient`: the md5sum of the chunk and
the three writes. -/
def writeAnswer (srv : MhProtoServer) (pc : ServerPc) (data : List UInt8) (dir : Dir) (w : Wire) :
    Served :=
  match md5Buffer md5 data with
  | none => ⟨srv.goto .faulted, dir, w, []⟩
  | some md5sum => ⟨srv.goto pc, dir, w, sentMessage md5sum data⟩

/-- A chunk that one `write` can move. -/
theorem writeAnswer_of_le (srv : MhProtoServer) (pc : ServerPc) {data : List UInt8} (dir : Dir)
    (w : Wire) (h : data.length ≤ maxCount) :
    srv.writeAnswer md5 pc data dir w = ⟨srv.goto pc, dir, w, chunkMessage md5 data⟩ := by
  have hlt : data.length < 2 ^ 31 := h.trans_lt (by rw [maxCount_eq]; decide)
  rw [writeAnswer, md5Buffer_of_lt md5 hlt]
  dsimp only
  rw [sentMessage_of_le md5 h]

/-- One turn of the loop of `SendChunkToClient`. -/
def sendChunkTurn (srv : MhProtoServer) (file : Path) (waitForClient pos : Nat) (dir : Dir)
    (w : Wire) : Served :=
  let chunkNumberStr := w.readBuffer (Buffer.zero 7)
  let w := chunkNumberStr.wire
  if chunkNumberStr.br ≤ 0 then ⟨srv.goto .rcvCmd, dir, w, []⟩
  else
    let waitForClient := if chunkNumberStr.br ≠ 7 then waitForClient - 1 else waitForClient
    let chunkNumber := atoi chunkNumberStr.value.bytes
    if chunkNumber = -1 then ⟨srv.goto .rcvCmd, dir, w, []⟩
    else if chunkNumber < 0 ∨ srv.metadata.chunks ≤ chunkNumber then
      ⟨srv.goto .faulted, dir, w, []⟩
    else
      let size := payLoad srv.metadata.fileSize srv.metadata.chunkSize chunkNumber.toNat
      let pos := seek pos (chunkNumber * srv.metadata.chunkSize)
      let content := dir.content file
      -- the constructor of `Chunk` ends the process when malloc fails
      if NoBlock size then ⟨srv.goto .exited, dir, w, []⟩
      else
        let data := loadChunkFromFile junk content pos size.toNat
        let pos := pos + (pread content pos (min size.toNat maxCount)).length
        let pc := if waitForClient = 0 then .rcvCmd else .sendChunk file waitForClient pos
        srv.writeAnswer md5 pc data dir w

/-- A read of a path whose size, a short, has been read before.  A negative size makes
`read` fail. -/
def readPath (size : Int) (w : Wire) : Read Path :=
  if size < 0 then ⟨-1, [], w⟩
  else
    let r := w.soRead size.toNat
    ⟨r.br, cString r.value, r.wire⟩

/-- The metadata `SendMetadataToClient` creates for a file, in memory from place 10 on. -/
def metadataFor (file_path : Path) (content : List UInt8) (chunk_size : Int) : Header :=
  createHeader md5 ((unsetBuffer junk 10 fnameSize : FName).overlay (file_path ++ [0]))
    content chunk_size

/-- The metadata it creates for what the name stands for. -/
def metadataForNode (file_path : Path) (node : Node) (chunk_size : Int) : Header :=
  { metadataFor md5 junk file_path node.content chunk_size with
    fileSize := node.st_size
    chunks := chunkCount node.st_size chunk_size }

def sendMetadataToClient (srv : MhProtoServer) (dir : Dir) (w : Wire) : Served :=
  let chunk_size := w.readInt64 (decodeInt (unset junk 0 8))
  let srv := { srv with
    chunkSize := if chunk_size.value = 0 then defaultChunkSize else chunk_size.value }
  let path_size := chunk_size.wire.readBuffer (unsetBuffer junk 8 2)
  let size := decodeInt path_size.value.bytes
  -- `file_path` has FNAME_SIZE bytes
  if (fnameSize : Int) < size then ⟨srv.goto .faulted, dir, path_size.wire, []⟩
  else
    let file_path := readPath size path_size.wire
    match dir file_path.value with
    | none => ⟨srv.goto .rcvCmd, dir, file_path.wire, encodeInt 2 1⟩
    | some node =>
      ⟨srv.goto .rcvCmd, dir, file_path.wire, encodeInt 2 0 ++
        (metadataForNode md5 junk file_path.value node srv.chunkSize).writeMetadataHeader⟩

/-- `ReceiveChunkFromClient` up to its loop. -/
def receiveChunkFromClient (srv : MhProtoServer) (dir : Dir) (w : Wire) : Served :=
  let file := if dir.hasFile srv.localFile then some srv.localFile else none
  ⟨srv.goto (.receiveChunk file 0 0 (decodeInt (unset junk 0 8)) fun i => junk (8 + i)),
    dir, w, []⟩

/-- The last part of a turn of the loop of `ReceiveChunkFromClient`: the bytes of the
buffer go to the file. -/
def writeChunk (srv : MhProtoServer) (file : Option Path) (pos : Nat)
    (chunkNumber chunkSize : Int) (buffer : Nat → UInt8) (dir : Dir) (w : Wire) : Served :=
  let pos := seek pos (chunkNumber * srv.chunkSize)
  let data := (List.range chunkSize.toNat).map buffer
  match file with
  | none => ⟨srv.goto (.receiveChunk file pos chunkNumber chunkSize buffer), dir, w, []⟩
  | some f =>
    ⟨srv.goto (.receiveChunk file (pos + data.length) chunkNumber chunkSize buffer),
      update dir f (some (.file (pwrite (dir.content f) pos data))), w, []⟩

/-- One turn of the loop of `ReceiveChunkFromClient`.  The length given to `so_read` is
an int; a negative one makes `read` and `write` fail. -/
def receiveChunkTurn (srv : MhProtoServer) (file : Option Path) (pos : Nat)
    (chunkNumber chunkSize : Int) (buffer : Nat → UInt8) (dir : Dir) (w : Wire) : Served :=
  let number := w.readInt64 chunkNumber
  let chunkNumber := if number.br ≤ 0 then -1 else number.value
  if chunkNumber = -1 then ⟨srv.goto .rcvCmd, dir, number.wire, []⟩
  else
    let size := number.wire.readInt64 chunkSize
    let chunkSize := size.value
    let len := chunkSize.bmod (2 ^ 32)
    if (maxChunkSize : Int) < len ∨ (maxChunkSize : Int) < chunkSize then
      ⟨srv.goto .faulted, dir, size.wire, []⟩
    else if len < 0 then srv.writeChunk file pos chunkNumber chunkSize buffer dir size.wire
    else
      let data := size.wire.soRead len.toNat
      srv.writeChunk file pos chunkNumber chunkSize (store buffer data.value) dir data.wire

/-- `InitUpload`: no read is checked. -/
def initUpload (srv : MhProtoServer) (dir : Dir) (w : Wire) : Served :=
  let path_size := w.readBuffer (unsetBuffer junk 0 2)
  let size := decodeInt path_size.value.bytes
  -- `local_file` has FNAME_SIZE bytes
  if (fnameSize : Int) < size then ⟨srv.goto .faulted, dir, path_size.wire, []⟩
  else
    let local_file := readPath size path_size.wire
    let chunkSize := local_file.wire.readInt64 srv.chunkSize
    let file_size := chunkSize.wire.readInt64 (decodeInt (unset junk 2 8))
    let uploadDigest := file_size.wire.readBuffer srv.uploadDigest
    let localFile := absoluteFile local_file.value
    ⟨⟨.rcvCmd, srv.metadata, chunkSize.value, localFile, uploadDigest.value⟩,
      touch dir localFile, uploadDigest.wire, []⟩

/-- `RcvCmd`: DOWNLOAD_CHUNK is 1, DOWNLOAD_METADATA 2, UPLOAD_CHUNK 3, UPLOAD_INIT 4. -/
def rcvCmd (srv : MhProtoServer) (dir : Dir) (w : Wire) : Served :=
  let cmd := w.soRead 1
  let w := cmd.wire
  if cmd.br ≤ 0 then ⟨srv.goto .exited, dir, w, []⟩
  else if cmd.value = [1] then srv.sendChunkToClient dir w
  else if cmd.value = [2] then srv.sendMetadataToClient md5 junk dir w
  else if cmd.value = [3] then srv.receiveChunkFromClient junk dir w
  else if cmd.value = [4] then srv.initUpload junk dir w
  else ⟨srv, dir, w, []⟩

/-- One step of the process; none once it has ended. -/
def step (srv : MhProtoServer) (dir : Dir) (w : Wire) : Option Served :=
  match srv.pc with
  | .rcvCmd => some (srv.rcvCmd md5 junk dir w)
  | .sendChunk file waitForClient pos =>
    some (srv.sendChunkTurn md5 junk file waitForClient pos dir w)
  | .receiveChunk file pos chunkNumber chunkSize buffer =>
    some (srv.receiveChunkTurn file pos chunkNumber chunkSize buffer dir w)
  | .exited | .faulted => none

section Short
variable {md5} {junk} {srv : MhProtoServer} {dir : Dir} {w : Wire} {r : Served}

theorem readPath_short {size : Int} (h : w.short = true) :
    (readPath size w).wire.short = true := by
  unfold readPath
  split <;> simp [Wire.soRead_wire_short, h]

theorem sendChunkToClient_wire :
    (srv.sendChunkToClient dir w).wire = (srv.metadata.readMetadataHeader w).2 := by
  unfold sendChunkToClient
  dsimp only
  repeat (first | rfl | split)

theorem sendChunkToClient_short (h : w.short = true) :
    (srv.sendChunkToClient dir w).wire.short = true := by
  rw [sendChunkToClient_wire]
  exact Header.readMetadataHeader_short h

theorem writeAnswer_wire {pc : ServerPc} {data : List UInt8} :
    (srv.writeAnswer md5 pc data dir w).wire = w := by
  unfold writeAnswer
  cases md5Buffer md5 data <;> rfl

theorem sendChunkTurn_wire {file : Path} {wait pos : Nat} :
    (srv.sendChunkTurn md5 junk file wait pos dir w).wire =
      (w.readBuffer (Buffer.zero 7)).wire := by
  unfold sendChunkTurn
  dsimp only
  repeat' split
  all_goals first | exact writeAnswer_wire | rfl

theorem sendMetadataToClient_short (h : w.short = true) :
    (srv.sendMetadataToClient md5 junk dir w).wire.short = true := by
  unfold sendMetadataToClient
  dsimp only
  split
  · simp [Wire.readBuffer_wire, Wire.readInt64_wire, Wire.soRead_wire_short, h]
  · split <;> exact readPath_short
      (by simp [Wire.readBuffer_wire, Wire.readInt64_wire, Wire.soRead_wire_short, h])

theorem initUpload_short (h : w.short = true) :
    (srv.initUpload junk dir w).wire.short = true := by
  unfold initUpload
  dsimp only
  split <;> simp [Wire.readBuffer_wire, Wire.readInt64_wire, Wire.soRead_wire_short,
    readPath_short, h]

theorem writeChunk_wire {file : Option Path} {pos : Nat} {chunkNumber chunkSize : Int}
    {buffer : Nat → UInt8} :
    (srv.writeChunk file pos chunkNumber chunkSize buffer dir w).wire = w := by
  unfold writeChunk
  dsimp only
  split <;> rfl

/-- A turn of the loop ends it, comes to a fault, or writes a chunk. -/
theorem receiveChunkTurn_cases {file : Option Path} {pos : Nat} {chunkNumber chunkSize : Int}
    {buffer : Nat → UInt8} :
    ∃ v : Wire, (w.short = true → v.short = true) ∧
      ((∃ pc, (pc = .rcvCmd ∨ pc = .faulted) ∧
          srv.receiveChunkTurn file pos chunkNumber chunkSize buffer dir w =
            ⟨srv.goto pc, dir, v, []⟩) ∨
        ∃ n m b, srv.receiveChunkTurn file pos chunkNumber chunkSize buffer dir w =
          srv.writeChunk file pos n m b dir v) := by
  unfold receiveChunkTurn
  dsimp only
  have hnumber : w.short = true → (w.readInt64 chunkNumber).wire.short = true := fun h => by
    simp [Wire.readInt64_wire, Wire.soRead_wire_short, h]
  have hsize : w.short = true →
      ((w.readInt64 chunkNumber).wire.readInt64 chunkSize).wire.short = true := fun h => by
    simp [Wire.readInt64_wire, Wire.soRead_wire_short, h]
  by_cases hend : (if (w.readInt64 chunkNumber).br ≤ 0 then -1
      else (w.readInt64 chunkNumber).value) = -1
  · rw [if_pos hend]
    exact ⟨_, hnumber, .inl ⟨_, .inl rfl, rfl⟩⟩
  · rw [if_neg hend]
    split
    · exact ⟨_, hsize, .inl ⟨_, .inr rfl, rfl⟩⟩
    · split
      · exact ⟨_, hsize, .inr ⟨_, _, _, rfl⟩⟩
      · refine ⟨_, fun h => ?_, .inr ⟨_, _, _, rfl⟩⟩
        rw [Wire.soRead_wire_short, hsize h]
        rfl

theorem receiveChunkTurn_short {file : Option Path} {pos : Nat} {chunkNumber chunkSize : Int}
    {buffer : Nat → UInt8} (h : w.short = true) :
    (srv.receiveChunkTurn file pos chunkNumber chunkSize buffer dir w).wire.short = true := by
  obtain ⟨v, hv, ⟨pc, -, hturn⟩ | ⟨n, m, b, hturn⟩⟩ := receiveChunkTurn_cases
  · rw [hturn]
    exact hv h
  · rw [hturn, writeChunk_wire]
    exact hv h

/-- **A process that has come up short stays so.** -/
theorem step_short (hr : srv.step md5 junk dir w = some r) (h : w.short = true) :
    r.wire.short = true := by
  have hcmd : (w.soRead 1).wire.short = true := by rw [Wire.soRead_wire_short, h]; rfl
  unfold step at hr
  split at hr <;> cases hr
  · unfold rcvCmd
    dsimp only
    split
    · exact hcmd
    · split
      · exact sendChunkToClient_short hcmd
      · split
        · exact sendMetadataToClient_short hcmd
        · split
          · exact hcmd
          · split
            · exact initUpload_short hcmd
            · exact hcmd
  · simp [sendChunkTurn_wire, Wire.readBuffer_wire, Wire.soRead_wire_short, h]
  · exact receiveChunkTurn_short h

end Short

section Files
variable {md5} {junk} {srv : MhProtoServer} {dir : Dir} {w : Wire} {r : Served} {p : Path}

/-- What a step does to the directory. -/
inductive Leaves (dir : Dir) : Dir → Prop
  | same : Leaves dir dir
  | touched (f : Path) : Leaves dir (touch dir f)
  | wrote (f : Path) (content : List UInt8) : Leaves dir (update dir f (some (.file content)))

theorem Leaves.hasFile {dir' : Dir} (h : Leaves dir dir') (hp : dir.hasFile p = true) :
    dir'.hasFile p = true := by
  cases h with
  | same => exact hp
  | touched f => exact hasFile_touch_of_hasFile hp
  | wrote f content => exact hasFile_update hp content

theorem Leaves.isFolder {dir' : Dir} (h : Leaves dir dir') (hp : dir.isFolder p = false) :
    dir'.isFolder p = false := by
  cases h with
  | same => exact hp
  | touched f => exact isFolder_touch hp
  | wrote f content => exact isFolder_update hp content

theorem writeChunk_leaves {file : Option Path} {pos : Nat} {chunkNumber chunkSize : Int}
    {buffer : Nat → UInt8} :
    Leaves dir (srv.writeChunk file pos chunkNumber chunkSize buffer dir w).dir := by
  unfold writeChunk
  dsimp only
  split
  · exact .same
  · exact .wrote _ _

theorem receiveChunkTurn_leaves {file : Option Path} {pos : Nat} {chunkNumber chunkSize : Int}
    {buffer : Nat → UInt8} :
    Leaves dir (srv.receiveChunkTurn file pos chunkNumber chunkSize buffer dir w).dir := by
  obtain ⟨v, -, ⟨pc, -, hturn⟩ | ⟨n, m, b, hturn⟩⟩ := receiveChunkTurn_cases
  · rw [hturn]
    exact .same
  · rw [hturn]
    exact writeChunk_leaves

theorem initUpload_leaves : Leaves dir (srv.initUpload junk dir w).dir := by
  unfold initUpload
  dsimp only
  split
  · exact .same
  · exact .touched _

theorem sendChunkToClient_dir : (srv.sendChunkToClient dir w).dir = dir := by
  unfold sendChunkToClient
  dsimp only
  repeat (first | rfl | split)

theorem writeAnswer_dir {pc : ServerPc} {data : List UInt8} :
    (srv.writeAnswer md5 pc data dir w).dir = dir := by
  unfold writeAnswer
  cases md5Buffer md5 data <;> rfl

theorem sendChunkTurn_dir {file : Path} {wait pos : Nat} :
    (srv.sendChunkTurn md5 junk file wait pos dir w).dir = dir := by
  unfold sendChunkTurn
  dsimp only
  repeat' split
  all_goals first | exact writeAnswer_dir | rfl

theorem sendMetadataToClient_dir : (srv.sendMetadataToClient md5 junk dir w).dir = dir := by
  unfold sendMetadataToClient
  dsimp only
  split
  · rfl
  · split <;> rfl

/-- **What a step of a server process does to the directory**: it may create or write one
file. -/
theorem step_leaves (hr : srv.step md5 junk dir w = some r) : Leaves dir r.dir := by
  unfold step at hr
  split at hr <;> cases hr
  · unfold rcvCmd
    dsimp only
    split
    · exact .same
    · split
      · rw [sendChunkToClient_dir]; exact .same
      · split
        · rw [sendMetadataToClient_dir]; exact .same
        · split
          · exact .same
          · split
            · exact initUpload_leaves
            · exact .same
  · rw [sendChunkTurn_dir]; exact .same
  · exact receiveChunkTurn_leaves

end Files

/-- `MhProtoServer(sd, 0)`: the other members are whatever the memory held. -/
def create (metadata : Header) (localFile : Path) (uploadDigest : Digest) : MhProtoServer :=
  ⟨.rcvCmd, metadata, defaultChunkSize, localFile, uploadDigest⟩

end MhProtoServer
end Mhftp
