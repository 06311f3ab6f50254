import Mhftp.Library.Framing
import Mhftp.SentBytes
import Mhftp.UploadFraming

/-! # The commands of a connection

The bytes of a connection are a sequence of commands.  Each of them ends where it ends, whatever
follows it, so that the bytes have one reading (`commands_inj`); and a server process serves the
commands in their order, however the bytes come in pieces (`commands_served`).
-/

namespace Mhftp
open Library

inductive Command
  /-- DOWNLOAD_CHUNK, with the chunks that are asked for; the request for -1 behind them takes
  the server out of its loop (mhclient never sends it and closes the connection instead) -/
  | download (h : Header) (chunkNumbers : List Nat)
  /-- DOWNLOAD_METADATA -/
  | metadata (file_path : Path) (chunk_size : Int)
  /-- UPLOAD_CHUNK -/
  | upload (messages : List ChunkMessage)
  /-- UPLOAD_INIT -/
  | init (local_file : Path) (chunk_size file_size : Int) (digest : Digest)
  /-- a byte that is none of the four -/
  | unknown (cmd : UInt8)

namespace Command

def bytes : Command → List UInt8
  | download h chunkNumbers =>
    1 :: (h.writeMetadataHeader ++
      (chunkNumbers.flatMap (fun k : Nat => (requestChunk k).bytes) ++ (requestChunk (-1)).bytes))
  | metadata file_path chunk_size => MetadataRequest.bytes ⟨file_path, [], chunk_size⟩
  | upload messages => 3 :: (messages.flatMap ChunkMessage.bytes ++ uploadEnd)
  | init local_file chunk_size file_size digest =>
    uploadInit local_file chunk_size file_size digest
  | unknown cmd => [cmd]

/-- What the fields of a command have room for. -/
def Fits : Command → Prop
  | download h chunkNumbers => h.InRange ∧ ∀ k ∈ chunkNumbers, k < 10 ^ 6
  | metadata file_path chunk_size =>
    file_path.length < fnameSize ∧ 0 ∉ file_path ∧ -2 ^ 63 ≤ chunk_size ∧ chunk_size < 2 ^ 63
  | upload messages => ∀ m ∈ messages, m.Fits
  | init local_file chunk_size file_size _ =>
    local_file.length < fnameSize ∧ 0 ∉ local_file ∧
      (-2 ^ 63 ≤ chunk_size ∧ chunk_size < 2 ^ 63) ∧ -2 ^ 63 ≤ file_size ∧ file_size < 2 ^ 63
  | unknown cmd => cmd ∉ [1, 2, 3, 4]

/-- A step for the command and one for each turn of its loop. -/
def turns : Command → Nat
  | download _ chunkNumbers => chunkNumbers.length + 2
  | upload messages => messages.length + 2
  | _ => 1

end Command

/-! ### One reading -/

section Reading
variable {xs ys : List UInt8}

theorem int64_inj {x y : Int} (hx : -2 ^ 63 ≤ x ∧ x < 2 ^ 63) (hy : -2 ^ 63 ≤ y ∧ y < 2 ^ 63)
    (he : encodeInt 8 x ++ xs = encodeInt 8 y ++ ys) : x = y ∧ xs = ys := by
  obtain ⟨hbytes, hrest⟩ := List.append_inj he (by simp)
  refine ⟨?_, hrest⟩
  rw [← decodeInt_encodeInt_of_range (w := 8) (x := x) (by omega) (by omega), hbytes,
    decodeInt_encodeInt_of_range (by omega) (by omega)]

theorem buffer_inj {n : Nat} {b c : Buffer n} (he : b.bytes ++ xs = c.bytes ++ ys) :
    b = c ∧ xs = ys := by
  obtain ⟨hbytes, hrest⟩ := List.append_inj he (by rw [b.length, c.length])
  exact ⟨Buffer.ext hbytes, hrest⟩

/-- A path is sent behind its size. -/
theorem path_inj {p q : Path} (hp : p.length < fnameSize) (hq : q.length < fnameSize)
    (he : encodeInt 2 p.length ++ (p ++ xs) = encodeInt 2 q.length ++ (q ++ ys)) :
    p = q ∧ xs = ys := by
  unfold fnameSize at hp hq
  obtain ⟨hsize, hrest⟩ := List.append_inj he (by simp)
  have hlength : (p.length : Int) = q.length := by
    rw [← decodeInt_encodeInt_of_range (w := 2) (x := p.length) (by omega) (by omega), hsize,
      decodeInt_encodeInt_of_range (by omega) (by omega)]
  exact List.append_inj hrest (by exact_mod_cast hlength)

theorem writeMetadataHeader_inj {h g : Header} (hh : h.InRange) (hg : g.InRange)
    (he : h.writeMetadataHeader ++ xs = g.writeMetadataHeader ++ ys) : h = g ∧ xs = ys := by
  have hread := readMetadataHeader_clean hh h xs false
  rw [he, readMetadataHeader_clean hg] at hread
  obtain ⟨hheader, hwire⟩ := Prod.mk.inj hread
  exact ⟨hheader.symm, (Wire.mk.inj hwire).1.symm⟩

theorem requestChunk_selfDelimiting :
    SelfDelimiting (fun k : Nat => (requestChunk k).bytes) (· < 10 ^ 6) := by
  intro k k' xs ys hk hk' he
  obtain ⟨hrequest, hrest⟩ := buffer_inj he
  refine ⟨?_, hrest⟩
  have hnumber := atoi_requestChunk hk
  rw [hrequest, atoi_requestChunk hk'] at hnumber
  exact_mod_cast hnumber.symm

/-- No request is the one that ends the loop. -/
theorem requestChunk_ne (k : Nat) (xs ys : List UInt8) (hk : k < 10 ^ 6) :
    (requestChunk k).bytes ++ xs ≠ (requestChunk (-1)).bytes ++ ys := by
  intro he
  obtain ⟨hrequest, -⟩ := buffer_inj he
  have hnumber := atoi_requestChunk hk
  rw [hrequest] at hnumber
  have hend : atoi (requestChunk (-1)).bytes = -1 := by decide
  omega

theorem message_selfDelimiting : SelfDelimiting ChunkMessage.bytes ChunkMessage.Fits :=
  fun _ _ _ _ hm hm' he => ChunkMessage.bytes_inj hm hm' he

/-- No message begins with the number that ends an upload. -/
theorem message_ne (m : ChunkMessage) (xs ys : List UInt8) (hm : m.Fits) :
    m.bytes ++ xs ≠ uploadEnd ++ ys := by
  intro he
  simp only [ChunkMessage.bytes, uploadEnd, List.append_assoc] at he
  have hfits := hm.chunkNumber
  obtain ⟨hnumber, -⟩ := int64_inj (by omega) (by omega) he
  omega

/-- The first byte of a command. -/
def Command.code : Command → UInt8
  | download _ _ => 1
  | metadata _ _ => 2
  | upload _ => 3
  | init _ _ _ _ => 4
  | unknown cmd => cmd

theorem Command.bytes_eq (c : Command) : c.bytes = c.code :: c.bytes.tail := by
  cases c <;> rfl

/-- **A command ends where it ends.** -/
theorem command_selfDelimiting : SelfDelimiting Command.bytes Command.Fits := by
  intro c c' xs ys hc hc' he
  have hcode : c.code = c'.code := by
    rw [c.bytes_eq, c'.bytes_eq] at he
    exact (List.cons.inj he).1
  have other {d : Command} {cmd : UInt8} (hd : d.Fits) (hcmd : cmd ∈ [1, 2, 3, 4])
      (hcode : d.code = cmd) : ∀ cmd', d ≠ .unknown cmd' := by
    rintro cmd' rfl
    have hcode : cmd' = cmd := hcode
    exact hd (hcode ▸ hcmd)
  cases c with
  | unknown cmd =>
    cases c' with
    | unknown cmd' =>
      obtain ⟨hcmd, hrest⟩ := List.cons.inj he
      exact ⟨congrArg _ hcmd, hrest⟩
    | download | metadata | upload | init =>
      exact absurd rfl (other hc (by simp [Command.code]) hcode cmd)
  | download h ks =>
    cases c' with
    | unknown cmd => exact absurd rfl (other hc' (by simp [Command.code]) hcode.symm cmd)
    | metadata | upload | init => cases hcode
    | download h' ks' =>
      simp only [Command.bytes, List.cons_append, List.append_assoc] at he
      obtain ⟨rfl, hrest⟩ := writeMetadataHeader_inj hc.1 hc'.1 (List.cons.inj he).2
      obtain ⟨rfl, hend⟩ := requestChunk_selfDelimiting.closed_inj requestChunk_ne hc.2 hc'.2 hrest
      exact ⟨rfl, hend⟩
  | metadata p size =>
    cases c' with
    | unknown cmd => exact absurd rfl (other hc' (by simp [Command.code]) hcode.symm cmd)
    | download | upload | init => cases hcode
    | metadata p' size' =>
      simp only [Command.bytes, MetadataRequest.bytes, List.cons_append, List.append_assoc] at he
      obtain ⟨rfl, hrest⟩ := int64_inj hc.2.2 hc'.2.2 (List.cons.inj he).2
      obtain ⟨rfl, hend⟩ := path_inj hc.1 hc'.1 hrest
      exact ⟨rfl, hend⟩
  | upload ms =>
    cases c' with
    | unknown cmd => exact absurd rfl (other hc' (by simp [Command.code]) hcode.symm cmd)
    | download | metadata | init => cases hcode
    | upload ms' =>
      simp only [Command.bytes, List.cons_append, List.append_assoc] at he
      obtain ⟨rfl, hrest⟩ :=
        message_selfDelimiting.closed_inj message_ne hc hc' (List.cons.inj he).2
      exact ⟨rfl, hrest⟩
  | init p size fileSize digest =>
    cases c' with
    | unknown cmd => exact absurd rfl (other hc' (by simp [Command.code]) hcode.symm cmd)
    | download | metadata | upload => cases hcode
    | init p' size' fileSize' digest' =>
      simp only [Command.bytes, uploadInit, List.cons_append, List.append_assoc] at he
      obtain ⟨rfl, hrest⟩ := path_inj hc.1 hc'.1 (List.cons.inj he).2
      obtain ⟨rfl, hfileSize⟩ := int64_inj hc.2.2.1 hc'.2.2.1 hrest
      obtain ⟨rfl, hdigest⟩ := int64_inj hc.2.2.2 hc'.2.2.2 hfileSize
      obtain ⟨rfl, hend⟩ := buffer_inj hdigest
      exact ⟨rfl, hend⟩

/-- **The bytes of a connection have one reading.** -/
theorem commands_inj :
    Set.InjOn (List.flatMap Command.bytes) {cs | ∀ c ∈ cs, c.Fits} := by
  intro cs hcs cs' hcs' he
  refine command_selfDelimiting.flatMap_inj (fun c _ => ?_) hcs hcs' he
  rw [c.bytes_eq]
  exact List.cons_ne_nil _ _

end Reading

/-! ### What the commands do -/

/-- What a server process has between two commands, and what it has sent. -/
structure Desk where
  metadata : Header
  chunkSize : Int
  localFile : Path
  uploadDigest : Digest
  dir : Dir
  sent : List UInt8

def Session.desk (s : Session) : Desk :=
  ⟨s.server.metadata, s.server.chunkSize, s.server.localFile, s.server.uploadDigest, s.dir, s.sent⟩

/-- The chunk of a file that the header describes. -/
def Header.chunkOf (h : Header) (content : List UInt8) (k : Nat) : List UInt8 :=
  pread content (k * h.chunkSize).toNat (payLoad h.fileSize h.chunkSize k).toNat

/-- The file has this chunk, and one `read` and one `write` can move it. -/
structure Header.Covers (h : Header) (content : List UInt8) (k : Nat) : Prop where
  lt : (k : Int) < h.chunks
  place : 0 ≤ k * h.chunkSize ∧ k * h.chunkSize < 2 ^ 63
  size : 0 ≤ payLoad h.fileSize h.chunkSize k ∧ payLoad h.fileSize h.chunkSize k ≤ maxCount
  le : k * h.chunkSize + payLoad h.fileSize h.chunkSize k ≤ content.length

namespace Command
variable (md5 : Md5)

/-- What a command needs. -/
def Admitted (d : Desk) : Command → Prop
  | download h chunkNumbers =>
    h.chunks < 2 ^ 31 ∧ ∃ content, d.dir (cString h.fileFull.bytes) = some (.file content) ∧
      ∀ k ∈ chunkNumbers, h.Covers content k
  | upload messages =>
    d.dir.hasFile d.localFile = true ∧ ∀ m ∈ messages, m.Placed d.chunkSize
  | _ => True

/-- What it makes of what there is. -/
inductive Effect (d : Desk) : Command → Desk → Prop
  | download {h chunkNumbers content} : d.dir (cString h.fileFull.bytes) = some (.file content) →
      Effect d (.download h chunkNumbers)
        { d with
          metadata := h
          sent := d.sent ++ chunkNumbers.flatMap fun k => chunkMessage md5 (h.chunkOf content k) }
  | metadata {file_path chunk_size content taken h} : d.dir file_path = some (.file content) →
      taken = (if chunk_size = 0 then (defaultChunkSize : Int) else chunk_size) →
      MetadataRequest.Describes md5 ⟨file_path, content, taken⟩ h →
      Effect d (.metadata file_path chunk_size)
        { d with
          chunkSize := taken
          sent := d.sent ++ (encodeInt 2 0 ++ h.writeMetadataHeader) }
  | folder {file_path chunk_size st_size taken} {h : Header} :
      d.dir file_path = some (.folder st_size) →
      taken = (if chunk_size = 0 then (defaultChunkSize : Int) else chunk_size) →
      cString h.fileFull.bytes = file_path → h.digest = md5 [] → h.fileSize = st_size →
      h.chunkSize = taken → h.chunks = chunkCount st_size taken →
      Effect d (.metadata file_path chunk_size)
        { d with
          chunkSize := taken
          sent := d.sent ++ (encodeInt 2 0 ++ h.writeMetadataHeader) }
  | notFound {file_path chunk_size taken} : d.dir file_path = none →
      taken = (if chunk_size = 0 then (defaultChunkSize : Int) else chunk_size) →
      Effect d (.metadata file_path chunk_size)
        { d with chunkSize := taken, sent := d.sent ++ encodeInt 2 1 }
  | upload {messages content} : d.dir d.localFile = some (.file content) →
      Effect d (.upload messages)
        { d with
          dir := update d.dir d.localFile
            (some (.file (writeMessages d.chunkSize content messages))) }
  | init {local_file chunk_size file_size digest} :
      Effect d (.init local_file chunk_size file_size digest)
        { d with
          chunkSize := chunk_size
          localFile := absoluteFile local_file
          uploadDigest := digest
          dir := touch d.dir (absoluteFile local_file) }
  | unknown {cmd} : Effect d (.unknown cmd) d

end Command

/-! ### The server -/

section Steps
variable (md5 : Md5) {s : Session} {a : SessionAct} {rest : List UInt8}

theorem step_unknown (ha : a.InPieces) (hpc : s.server.pc = .rcvCmd) {cmd : UInt8}
    (hcmd : cmd ∉ [1, 2, 3, 4]) (hu : s.unread = cmd :: rest) :
    s.step md5 a = some { s with unread := rest } := by
  obtain ⟨junk, hserve⟩ := ha.step md5
  have hread : (Wire.mk (cmd :: rest) [] s.short).soRead 1 = ⟨1, [cmd], rest, [], s.short⟩ :=
    Wire.soRead_clean_append [cmd]
  simp only [List.mem_cons, List.not_mem_nil, or_false, not_or] at hcmd
  obtain ⟨h₁, h₂, h₃, h₄⟩ := hcmd
  have hstep : s.server.step md5 junk s.dir ⟨s.unread, [], s.short⟩ =
      some ⟨s.server, s.dir, ⟨rest, [], s.short⟩, []⟩ := by
    rw [step_of_rcvCmd md5 junk hpc, hu, MhProtoServer.rcvCmd]
    simp only [hread]
    rw [if_neg (by decide), if_neg (by simpa using h₁), if_neg (by simpa using h₂),
      if_neg (by simpa using h₃), if_neg (by simpa using h₄)]
  rw [hserve hstep, Session.after, List.append_nil]

/-- DOWNLOAD_METADATA is answered for a file or a folder that is there, and for a name that is
not. -/
theorem step_metadata (ha : a.InPieces) (hpc : s.server.pc = .rcvCmd) {p : Path} {size : Int}
    (hfits : (Command.metadata p size).Fits)
    (hu : s.unread = (Command.metadata p size).bytes ++ rest) :
    ∃ s', s.step md5 a = some s' ∧ s'.server.pc = .rcvCmd ∧ s'.unread = rest ∧
      s'.short = s.short ∧ Command.Effect md5 s.desk (.metadata p size) s'.desk := by
  obtain ⟨hlength, hnul, hsize⟩ := hfits
  obtain ⟨junk, hserve⟩ := ha.step md5
  let taken : Int := if size = 0 then defaultChunkSize else size
  have hstep : s.server.step md5 junk s.dir ⟨s.unread, [], s.short⟩ = some
      ⟨{ s.server with pc := .rcvCmd, chunkSize := taken }, s.dir, ⟨rest, [], s.short⟩,
        (s.dir p).elim (encodeInt 2 1) fun node => encodeInt 2 0 ++
          (MhProtoServer.metadataForNode md5 junk p node taken).writeMetadataHeader⟩ := by
    rw [step_of_rcvCmd md5 junk hpc, hu]
    simp only [Command.bytes, MetadataRequest.bytes, List.cons_append, List.append_assoc]
    rw [rcvCmd_sendMetadata md5 junk hlength hnul hsize]
  cases hdir : s.dir p with
  | none =>
    rw [hdir] at hstep
    exact ⟨_, hserve hstep, rfl, rfl, rfl, .notFound hdir rfl⟩
  | some node =>
    rw [hdir] at hstep
    have hname := cString_overlay (b := unsetBuffer junk 10 fnameSize) hlength hnul
    cases node with
    | file content =>
      exact ⟨_, hserve hstep, rfl, rfl, rfl, .metadata hdir rfl ⟨hname, rfl, rfl, rfl, rfl⟩⟩
    | folder st_size =>
      exact ⟨_, hserve hstep, rfl, rfl, rfl, .folder hdir rfl hname rfl rfl rfl rfl⟩

/-- A turn on a request. -/
theorem step_request (ha : a.InPieces) {file : Path} {wait pos k : Nat} (hwait : wait ≠ 0)
    (hpc : s.server.pc = .sendChunk file wait pos) (hk : k < 10 ^ 6) {content : List UInt8}
    (hdir : s.dir file = some (.file content)) (hcovers : s.server.metadata.Covers content k)
    (hu : s.unread = (requestChunk k).bytes ++ rest) :
    ∃ pos', s.step md5 a = some
      { s with
        server := s.server.goto (.sendChunk file wait pos')
        unread := rest
        sent := s.sent ++ chunkMessage md5 (s.server.metadata.chunkOf content k) } := by
  obtain ⟨junk, hserve⟩ := ha.step md5
  have hfull : ((Wire.mk ((requestChunk k).bytes ++ rest) [] s.short).readBuffer
      (Buffer.zero 7)).br = 7 := by
    rw [Wire.readBuffer_clean]
    rfl
  have hplace : seek pos (k * s.server.metadata.chunkSize) =
      (k * s.server.metadata.chunkSize).toNat := by
    have := hcovers.place
    rw [seek, int64_of_range (by omega), if_pos this.1]
  have hdata : loadChunkFromFile junk content (k * s.server.metadata.chunkSize).toNat
      (payLoad s.server.metadata.fileSize s.server.metadata.chunkSize k).toNat =
        s.server.metadata.chunkOf content k := by
    have hplace := hcovers.place
    have hle := hcovers.le
    have hsize := hcovers.size
    exact loadChunkFromFile_of_le (by omega) (by omega) junk
  have hturn : s.server.sendChunkTurn md5 junk file wait pos s.dir
      ⟨(requestChunk k).bytes ++ rest, [], s.short⟩ =
        ⟨s.server.goto (.sendChunk file wait ((k * s.server.metadata.chunkSize).toNat +
            (s.server.metadata.chunkOf content k).length)), s.dir, ⟨rest, [], s.short⟩,
          chunkMessage md5 (s.server.metadata.chunkOf content k)⟩ := by
    rw [sendChunkTurn_of_le md5 junk rfl hfull (atoi_requestChunk hk) hcovers.lt hcovers.size.1
      hcovers.size.2, content_of_file hdir]
    simp only [hplace, hdata, if_neg hwait]
    rfl
  have hstep : s.server.step md5 junk s.dir ⟨s.unread, [], s.short⟩ =
      some (s.server.sendChunkTurn md5 junk file wait pos s.dir
        ⟨(requestChunk k).bytes ++ rest, [], s.short⟩) := by
    rw [MhProtoServer.step, hpc, hu]
  rw [hturn] at hstep
  exact ⟨_, hserve hstep⟩

/-- The turn on the request that ends the loop. -/
theorem step_endDownload (ha : a.InPieces) {file : Path} {wait pos : Nat}
    (hpc : s.server.pc = .sendChunk file wait pos)
    (hu : s.unread = (requestChunk (-1)).bytes ++ rest) :
    s.step md5 a = some { s with server := s.server.goto .rcvCmd, unread := rest } := by
  obtain ⟨junk, hserve⟩ := ha.step md5
  have hnumber : atoi (requestChunk (-1)).bytes = -1 := by decide
  have hturn : s.server.step md5 junk s.dir ⟨s.unread, [], s.short⟩ =
      some ⟨s.server.goto .rcvCmd, s.dir, ⟨rest, [], s.short⟩, []⟩ := by
    rw [MhProtoServer.step, hpc, hu]
    refine congrArg some ?_
    rw [MhProtoServer.sendChunkTurn, Wire.readBuffer_clean]
    simp [hnumber]
  rw [hserve hturn, Session.after, List.append_nil]

/-- **The loop of SendChunkToClient**, by induction on the requests. -/
theorem run_requests (chunkNumbers : List Nat) {s : Session} {as : List SessionAct}
    (has : ∀ a ∈ as, a.InPieces) (hlength : as.length = chunkNumbers.length + 1) {file : Path}
    {wait pos : Nat} (hwait : wait ≠ 0) (hpc : s.server.pc = .sendChunk file wait pos)
    (hfits : ∀ k ∈ chunkNumbers, k < 10 ^ 6) {content : List UInt8}
    (hdir : s.dir file = some (.file content))
    (hcovers : ∀ k ∈ chunkNumbers, s.server.metadata.Covers content k)
    (hu : s.unread = chunkNumbers.flatMap (fun k : Nat => (requestChunk k).bytes) ++
      ((requestChunk (-1)).bytes ++ rest)) :
    (Session.machine md5).run s as = some
      { s with
        server := s.server.goto .rcvCmd
        unread := rest
        sent := s.sent ++ chunkNumbers.flatMap fun k =>
          chunkMessage md5 (s.server.metadata.chunkOf content k) } := by
  induction chunkNumbers generalizing s as pos with
  | nil =>
    obtain ⟨a, rfl⟩ := List.length_eq_one_iff.mp hlength
    have hstep := step_endDownload md5 (has a List.mem_cons_self) hpc hu
    rw [Machine.run_cons_of_step hstep, List.flatMap_nil, List.append_nil]
    rfl
  | cons k chunkNumbers ih =>
    obtain ⟨a, as, rfl⟩ := List.exists_cons_of_length_eq_add_one hlength
    rw [List.flatMap_cons, List.append_assoc] at hu
    obtain ⟨pos', hstep⟩ := step_request md5 (has a List.mem_cons_self) hwait hpc
      (hfits k List.mem_cons_self) hdir (hcovers k List.mem_cons_self) hu
    rw [Machine.run_cons_of_step hstep, List.flatMap_cons]
    refine (ih (s := { s with
        server := s.server.goto (.sendChunk file wait pos')
        unread := chunkNumbers.flatMap (fun k : Nat => (requestChunk k).bytes) ++
          ((requestChunk (-1)).bytes ++ rest)
        sent := s.sent ++ chunkMessage md5 (s.server.metadata.chunkOf content k) })
      (fun b hb => has b (List.mem_cons_of_mem _ hb)) (by simpa using hlength) rfl
      (fun k hk => hfits k (List.mem_cons_of_mem _ hk)) hdir
      (fun k hk => hcovers k (List.mem_cons_of_mem _ hk)) rfl).trans ?_
    rw [List.append_assoc]
    rfl

/-- The process is at `RcvCmd`, with `unread` to read. -/
structure Session.Idle (short : Bool) (s : Session) (unread : List UInt8) (d : Desk) : Prop where
  pc : s.server.pc = .rcvCmd
  unread : s.unread = unread
  desk : s.desk = d
  short : s.short = short

/-- **A command is served**, whatever follows it. -/
theorem command_served {short : Bool} (c : Command) (rest : List UInt8) (s : Session) (d : Desk)
    (as : List SessionAct) (hidle : s.Idle short (c.bytes ++ rest) d)
    (hadmits : c.Fits ∧ c.Admitted d) (has : ∀ a ∈ as, a.InPieces)
    (hlength : as.length = c.turns) :
    ∃ s' d', (Session.machine md5).run s as = some s' ∧ s'.Idle short rest d' ∧
      c.Effect md5 d d' := by
  obtain ⟨hpc, hu, rfl, rfl⟩ := hidle
  obtain ⟨hfits, hadmitted⟩ := hadmits
  cases c with
  | download h chunkNumbers =>
    obtain ⟨hchunks, content, hdir, hcovers⟩ := hadmitted
    have hdir : s.dir (cString h.fileFull.bytes) = some (.file content) := hdir
    obtain ⟨a, as, rfl⟩ := List.exists_cons_of_length_eq_add_one hlength
    simp only [Command.bytes, List.cons_append, List.append_assoc] at hu
    have hstep := step_sendChunk md5 hfits.1 hchunks (has a List.mem_cons_self) hpc hu
      (by rw [hdir]; rfl)
    have hrun := run_requests md5 chunkNumbers (s := { s with
        server :=
          { s.server with pc := .sendChunk (cString h.fileFull.bytes) mhRetry 0, metadata := h }
        unread := chunkNumbers.flatMap (fun k : Nat => (requestChunk k).bytes) ++
          ((requestChunk (-1)).bytes ++ rest) })
      (fun b hb => has b (List.mem_cons_of_mem _ hb)) (Nat.succ.inj hlength)
      (show mhRetry ≠ 0 by decide) rfl hfits.2 hdir hcovers
      (show _ = _ ++ ((requestChunk (-1)).bytes ++ rest) from rfl)
    exact ⟨_, _, (Machine.run_cons_of_step hstep as).trans hrun, ⟨rfl, rfl, rfl, rfl⟩,
      .download hdir⟩
  | metadata p size =>
    obtain ⟨a, rfl⟩ := List.length_eq_one_iff.mp hlength
    obtain ⟨s', hstep, hpc', hu', hshort, heffect⟩ :=
      step_metadata md5 (has a List.mem_cons_self) hpc hfits hu
    exact ⟨s', _, Machine.run_singleton hstep, ⟨hpc', hu', rfl, hshort⟩, heffect⟩
  | upload messages =>
    obtain ⟨hfile, hplaced⟩ := hadmitted
    obtain ⟨content, hdir⟩ := hasFile_iff.mp hfile
    obtain ⟨a, as, rfl⟩ := List.exists_cons_of_length_eq_add_one hlength
    simp only [Command.bytes, List.cons_append, List.append_assoc] at hu
    obtain ⟨chunkSize, buffer, hstart⟩ :=
      step_uploadChunk md5 (has a List.mem_cons_self) hpc hu hfile
    obtain ⟨dir, hrun, hwritten, hothers, -⟩ := run_messages md5 messages (c := s.server.chunkSize)
      (s := { s with
        server := s.server.goto (.receiveChunk (some s.server.localFile) 0 0 chunkSize buffer)
        unread := messages.flatMap ChunkMessage.bytes ++ (uploadEnd ++ rest) })
      (fun b hb => has b (List.mem_cons_of_mem _ hb)) (Nat.succ.inj hlength)
      (fun m hm => ⟨hfits m hm, hplaced m hm⟩) rfl rfl rfl
    have hdir' : dir = update s.dir s.server.localFile
        (some (.file (writeMessages s.server.chunkSize content messages))) := by
      funext p
      by_cases hp : p = s.server.localFile
      · rw [hp, update_self]
        exact hwritten content hdir
      · rw [update_of_ne _ _ hp]
        exact hothers p hp
    subst hdir'
    exact ⟨_, _, (Machine.run_cons_of_step hstart as).trans hrun, ⟨rfl, rfl, rfl, rfl⟩,
      .upload hdir⟩
  | init p size fileSize digest =>
    obtain ⟨a, rfl⟩ := List.length_eq_one_iff.mp hlength
    have hstep := step_uploadInit md5 (has a List.mem_cons_self) hfits.1 hfits.2.1 hfits.2.2.1
      hfits.2.2.2 hpc hu
    refine ⟨_, _, Machine.run_singleton hstep, ⟨rfl, rfl, rfl, rfl⟩, ?_⟩
    exact .init
  | unknown cmd =>
    obtain ⟨a, rfl⟩ := List.length_eq_one_iff.mp hlength
    have hstep := step_unknown md5 (has a List.mem_cons_self) hpc hfits hu
    refine ⟨_, _, Machine.run_singleton hstep, ⟨hpc, rfl, rfl, rfl⟩, ?_⟩
    exact .unknown

/-- The service of a session. -/
def sessionService (short : Bool) : Service (Session.machine md5) Command UInt8 Desk where
  idle s unread d := s.Idle short unread d
  fine := SessionAct.InPieces
  bytes := Command.bytes
  turns := Command.turns
  admits d c := c.Fits ∧ c.Admitted d
  effect d c d' := c.Effect md5 d d'
  serves := command_served md5

/-- **The commands of a connection are served in their order.**  Whatever they are, if the files
and chunks that they name are there when their turn comes, and however their bytes come in
pieces, a process that is at `RcvCmd` is there again after as many steps as they take, right
behind them; its members, its files and what it has sent are what one command after the other
makes of them. -/
theorem commands_served (cs : List Command) (rest : List UInt8) (s : Session)
    (as : List SessionAct) (hpc : s.server.pc = .rcvCmd)
    (hu : s.unread = cs.flatMap Command.bytes ++ rest)
    (hadmits : (sessionService md5 s.short).AdmitsAll s.desk cs) (has : ∀ a ∈ as, a.InPieces)
    (hlength : as.length = (cs.map Command.turns).sum) :
    ∃ s', (Session.machine md5).run s as = some s' ∧ s'.server.pc = .rcvCmd ∧ s'.unread = rest ∧
      s'.short = s.short ∧ (sessionService md5 s.short).Effects s.desk cs s'.desk := by
  obtain ⟨s', d', hrun, hidle, heffects⟩ := (sessionService md5 s.short).run cs
    ⟨hpc, hu, rfl, rfl⟩ hadmits has hlength
  obtain ⟨hpc', hu', rfl, hshort⟩ := hidle
  exact ⟨s', hrun, hpc', hu', hshort, heffects⟩

end Steps

/-- A file that is not there is asked for, and then it is uploaded. -/
def sampleCommands : List Command :=
  [.metadata [97] 2, .init [97] 2 3 (Buffer.zero _), .upload sampleMessages, .unknown 7]

def sampleCommandSession : Session :=
  .accept ⟨Buffer.zero _, 0, Buffer.zero _, 0, 0⟩ [] (Buffer.zero _) (fun _ => none)
    (sampleCommands.flatMap Command.bytes)

theorem commands_served_sample :
    ∃ s', (Session.machine fun _ => Buffer.zero _).run sampleCommandSession
        ([.serve (fun _ => 0) [[], [.count 1]]] ++ sampleServes.take 4 ++
          [.serve (fun _ => 0) [], .serve (fun _ => 0) []]) = some s' ∧
      s'.unread = [] ∧ s'.dir [97] = some (.file [1, 2, 3]) ∧ s'.sent = encodeInt 2 1 := by
  have hserves : ∀ a ∈ [.serve (fun _ => 0) [[], [.count 1]]] ++ sampleServes.take 4 ++
      [.serve (fun _ => 0) [], .serve (fun _ => 0) []], a.InPieces := by
    simp [sampleServes, SessionAct.InPieces, Pieces, ReadResult.Piece]
  have hadmits : (sessionService (fun _ => Buffer.zero _) false).AdmitsAll
      sampleCommandSession.desk sampleCommands := by
    refine ⟨⟨⟨by decide, by decide, by decide⟩, trivial⟩, fun d₁ h₁ => ?_⟩
    cases h₁ with
    | metadata hdir | folder hdir => cases hdir
    | notFound =>
      refine ⟨⟨⟨by decide, by decide, by decide, by decide⟩, trivial⟩, fun d₂ h₂ => ?_⟩
      cases h₂ with
      | init =>
        refine ⟨⟨fun m hm => (sampleMessages_placed m hm).1, rfl,
          fun m hm => (sampleMessages_placed m hm).2⟩,
          fun d₃ h₃ => ⟨⟨?_, trivial⟩, fun _ _ => trivial⟩⟩
        show (7 : UInt8) ∉ [1, 2, 3, 4]
        decide
  obtain ⟨s', hrun, -, hu, -, d₁, h₁, d₂, h₂, d₃, h₃, d₄, h₄, hdesk⟩ :=
    commands_served (fun _ => Buffer.zero _) sampleCommands [] sampleCommandSession _ rfl
      (List.append_nil _).symm hadmits hserves rfl
  cases h₁ with
  | metadata hdir | folder hdir => cases hdir
  | notFound =>
    cases h₂
    cases h₃ with
    | upload hdir =>
      obtain rfl := Node.file.inj (Option.some.inj hdir)
      cases h₄
      exact ⟨s', hrun, hu, congrFun (congrArg Desk.dir hdesk) [97], congrArg Desk.sent hdesk⟩

end Mhftp
