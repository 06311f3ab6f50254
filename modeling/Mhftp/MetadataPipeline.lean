import Mhftp.MetadataFile
import Mhftp.Session
import Mhftp.UploadWire

/-! # The way of the metadata

The metadata of a file is computed by `SendMetadataToClient`, goes over the wire to the
client, into the .mdata file, from there to every worker, and over the wire again to the
server that sends the chunks.  It arrives as it was computed, and every byte that was sent
on the way has been read (`metadata_pipeline`).
-/

namespace Mhftp
open Library

/-- A request for metadata: a path, the file of that name on the server, and a chunk size. -/
structure MetadataRequest where
  file_path : Path
  content : List UInt8
  chunk_size : Int

namespace MetadataRequest

structure WellFormed (r : MetadataRequest) : Prop where
  length : r.file_path.length < fnameSize
  nul : 0 ∉ r.file_path
  content : r.content.length < 2 ^ 63
  chunk_size : 1 ≤ r.chunk_size ∧ r.chunk_size < 2 ^ 63
  table : 32 * chunkCount r.content.length r.chunk_size < 2 ^ 31

/-- What `DownloadMetadataFromServer` sends. -/
def bytes (r : MetadataRequest) : List UInt8 :=
  2 :: (encodeInt 8 r.chunk_size ++ (encodeInt 2 r.file_path.length ++ r.file_path))

/-- The header of the file. -/
structure Describes (md5 : Md5) (r : MetadataRequest) (h : Header) : Prop where
  file_path : cString h.fileFull.bytes = r.file_path
  fileSize : h.fileSize = r.content.length
  chunkSize : h.chunkSize = r.chunk_size
  chunks : h.chunks = chunkCount r.content.length r.chunk_size
  digest : h.digest = md5 r.content

end MetadataRequest

/-! ### The client -/

/-- What `DownloadMetadataFromServer` finds in memory that it has not initialised: the
response, and the members of its metadata. -/
structure ClientMemory where
  response : Buffer 2
  metadata : Header
  inUse : UInt8

/-- `DownloadMetadataFromServer` after its request, with what the .mdata file holds: it
saves a fresh table, or ends the process where the response is MH_FILE_NOT_FOUND or there is
no such table. -/
def downloadMetadataFromServer (mem : ClientMemory) (file : List UInt8) (w : Wire) :
    Option (List UInt8 × Wire) :=
  let response := w.readBuffer mem.response
  if decodeInt response.value.bytes = 1 then none
  else
    let header := mem.metadata.readMetadataHeader response.wire
    if header.1.NoTable then none
    else some ((header.1.fresh mem.inUse).saveMetadata file, header.2)

section Wire
theorem readMetadataHeader_clean {h : Header} (hr : h.InRange) (g : Header) (ys : List UInt8)
    (short : Bool) :
    g.readMetadataHeader ⟨h.writeMetadataHeader ++ ys, [], short⟩ = (h, ⟨ys, [], short⟩) := by
  simp only [Header.readMetadataHeader, Header.writeMetadataHeader, List.append_assoc,
    Wire.readBuffer_clean, Wire.readInt64_clean hr.fileSize, Wire.readInt64_clean hr.chunkSize,
    Wire.readInt64_clean hr.chunks]

/-- The name is read back out of its field, whatever follows it there. -/
theorem cString_overlay {n : Nat} {b : Buffer n} {p : List UInt8} (hlength : p.length < n)
    (hnul : 0 ∉ p) : cString (b.overlay (p ++ [0])).bytes = p := by
  have hbytes : (b.overlay (p ++ [0])).bytes =
      p ++ 0 :: b.bytes.drop (p ++ [(0 : UInt8)]).length := by
    show ((p ++ [0]) ++ b.bytes.drop (p ++ [(0 : UInt8)]).length).take n = _
    rw [List.take_of_length_le, List.append_assoc]
    · rfl
    · simp [b.length]
      omega
  rw [hbytes, cString, List.takeWhile_append_of_pos]
  · simp
  · intro x hx
    simp only [ne_eq, decide_not, Bool.not_eq_true', decide_eq_false_iff_not]
    rintro rfl
    exact hnul hx

end Wire

section Steps
variable (md5 : Md5) {r : MetadataRequest} {s : Session} {a : SessionAct} {h : Header}

theorem MetadataRequest.Describes.inRange {md5 : Md5} (hr : r.WellFormed) (h' : r.Describes md5 h) :
    h.InRange ∧ 0 ≤ h.chunks ∧ 32 * h.chunks < 2 ^ 31 := by
  have hnonneg := chunkCount_nonneg (Int.natCast_nonneg r.content.length) hr.chunk_size.1
  have hcontent := hr.content
  have hchunk := hr.chunk_size
  have htable := hr.table
  have hfileSize := h'.fileSize
  have hchunkSize := h'.chunkSize
  have hchunks := h'.chunks
  exact ⟨⟨by omega, by omega, by omega⟩, by omega, by omega⟩

theorem MetadataRequest.Describes.table {md5 : Md5} (hr : r.WellFormed) (h' : r.Describes md5 h) :
    ¬ h.NoTable := by
  obtain ⟨-, hnonneg, htable⟩ := h'.inRange hr
  exact Header.not_noTable hnonneg (by omega)

/-- The server answers a request for the metadata of a file that it has, for any chunk size;
for 0 it takes its own. -/
theorem step_sendMetadata_of_range (hlength : r.file_path.length < fnameSize)
    (hnul : 0 ∉ r.file_path) (hchunk : -2 ^ 63 ≤ r.chunk_size ∧ r.chunk_size < 2 ^ 63)
    (ha : a.InPieces) (hpc : s.server.pc = .rcvCmd) (hu : s.unread = r.bytes)
    (hdir : s.dir r.file_path = some (.file r.content)) :
    ∃ h s', MetadataRequest.Describes md5
        { r with chunk_size := if r.chunk_size = 0 then defaultChunkSize else r.chunk_size } h ∧
      s.step md5 a = some s' ∧ s'.server.pc = .rcvCmd ∧ s'.unread = [] ∧
      s'.sent = s.sent ++ (encodeInt 2 0 ++ h.writeMetadataHeader) := by
  obtain ⟨junk, hserve⟩ := ha.step md5
  let chunk_size := if r.chunk_size = 0 then (defaultChunkSize : Int) else r.chunk_size
  let h := MhProtoServer.metadataFor md5 junk r.file_path r.content chunk_size
  have hstep : s.server.step md5 junk s.dir ⟨s.unread, [], s.short⟩ = some
      ⟨{ s.server with pc := .rcvCmd, chunkSize := chunk_size }, s.dir, ⟨[], [], s.short⟩,
        encodeInt 2 0 ++ h.writeMetadataHeader⟩ := by
    rw [step_of_rcvCmd md5 junk hpc, hu, ← List.append_nil r.bytes]
    simp only [MetadataRequest.bytes, List.cons_append, List.append_assoc]
    rw [rcvCmd_sendMetadata md5 junk hlength hnul hchunk, hdir]
    rfl
  refine ⟨h, _, ⟨cString_overlay hlength hnul, rfl, rfl, rfl, rfl⟩, hserve hstep, rfl, rfl, rfl⟩

/-- The server answers a request for the metadata of a file that it has. -/
theorem step_sendMetadata (hr : r.WellFormed) (ha : a.InPieces) (hpc : s.server.pc = .rcvCmd)
    (hu : s.unread = r.bytes) (hdir : s.dir r.file_path = some (.file r.content)) :
    ∃ h s', r.Describes md5 h ∧ s.step md5 a = some s' ∧ s'.server.pc = .rcvCmd ∧
      s'.unread = [] ∧ s'.sent = s.sent ++ (encodeInt 2 0 ++ h.writeMetadataHeader) := by
  have hchunk := hr.chunk_size
  have hanswer := step_sendMetadata_of_range md5 hr.length hr.nul (by omega) ha hpc hu hdir
  rwa [if_neg (by omega)] at hanswer

/-- The client saves the metadata that it is sent. -/
theorem downloadMetadata_clean (hh : h.InRange) (htable : ¬ h.NoTable) (mem : ClientMemory)
    (file : List UInt8) {script : List (List ReadResult)} (hp : Pieces script) :
    ∃ w, downloadMetadataFromServer mem file
        ⟨encodeInt 2 0 ++ h.writeMetadataHeader, script, false⟩ =
      some ((h.fresh mem.inUse).saveMetadata file, w) ∧ w.unread = [] ∧ w.short = false := by
  have halike : (Wire.mk (encodeInt 2 0 ++ h.writeMetadataHeader) script false).Alike
      ⟨encodeInt 2 0 ++ h.writeMetadataHeader, [], false⟩ := ⟨rfl, rfl, hp, nofun⟩
  have hresponse := halike.readBuffer mem.response
  obtain ⟨hheader, hwire⟩ := hresponse.wire.readMetadataHeader mem.metadata
  have hclean : (Wire.mk (encodeInt 2 0 ++ h.writeMetadataHeader) [] false).readBuffer
      mem.response =
        ⟨2, ⟨encodeInt 2 0, length_encodeInt _ _⟩, ⟨h.writeMetadataHeader, [], false⟩⟩ :=
    Wire.readBuffer_clean (c := ⟨encodeInt 2 0, length_encodeInt _ _⟩)
  have hread := readMetadataHeader_clean hh mem.metadata [] false
  rw [List.append_nil] at hread
  rw [hclean] at hheader hwire
  simp only [hread] at hheader hwire
  rw [downloadMetadataFromServer]
  simp only [hresponse.value, hclean, hheader]
  rw [if_neg (by decide), if_neg htable]
  exact ⟨_, rfl, hwire.unread, hwire.short⟩

/-- The header reaches the server. -/
theorem rcvCmd_sendChunk (hh : h.InRange) (junk : Nat → UInt8) {srv : MhProtoServer} {dir : Dir}
    {rest : List UInt8} {short : Bool} :
    srv.rcvCmd md5 junk dir ⟨1 :: (h.writeMetadataHeader ++ rest), [], short⟩ =
      let srv := { srv with metadata := h }
      let file := cString h.fileFull.bytes
      if 2 ^ 31 ≤ h.chunks then ⟨srv.goto .faulted, dir, ⟨rest, [], short⟩, []⟩
      else if (dir file).isSome then
        ⟨srv.goto (.sendChunk file mhRetry 0), dir, ⟨rest, [], short⟩, []⟩
      else ⟨srv.goto .exited, dir, ⟨rest, [], short⟩, []⟩ := by
  have hcmd : ∀ zs, (Wire.mk (1 :: zs) [] short).soRead 1 = ⟨1, [1], zs, [], short⟩ :=
    fun zs => Wire.soRead_clean_append [1]
  rw [MhProtoServer.rcvCmd]
  simp only [hcmd]
  rw [if_neg (by decide), if_pos trivial, MhProtoServer.sendChunkToClient]
  simp only [readMetadataHeader_clean hh]

/-- Too many chunks. -/
theorem step_sendChunk_faulted (hh : h.InRange) (hchunks : 2 ^ 31 ≤ h.chunks) (ha : a.InPieces)
    (hpc : s.server.pc = .rcvCmd) {rest : List UInt8}
    (hu : s.unread = 1 :: (h.writeMetadataHeader ++ rest)) :
    s.step md5 a = some
      { s with server := { s.server with pc := .faulted, metadata := h }, unread := rest } := by
  obtain ⟨junk, hserve⟩ := ha.step md5
  have hstep : s.server.step md5 junk s.dir ⟨s.unread, [], s.short⟩ = some
      ⟨{ s.server with pc := .faulted, metadata := h }, s.dir, ⟨rest, [], s.short⟩, []⟩ := by
    rw [step_of_rcvCmd md5 junk hpc, hu, rcvCmd_sendChunk md5 hh]
    dsimp only
    rw [if_pos hchunks]
    rfl
  rw [hserve hstep, Session.after, List.append_nil]

/-- The server that is sent the header goes into its loop. -/
theorem step_sendChunk (hh : h.InRange) (hchunks : h.chunks < 2 ^ 31) (ha : a.InPieces)
    (hpc : s.server.pc = .rcvCmd) {rest : List UInt8}
    (hu : s.unread = 1 :: (h.writeMetadataHeader ++ rest))
    (hdir : (s.dir (cString h.fileFull.bytes)).isSome = true) :
    s.step md5 a = some
      { s with
        server :=
          { s.server with pc := .sendChunk (cString h.fileFull.bytes) mhRetry 0, metadata := h }
        unread := rest } := by
  obtain ⟨junk, hserve⟩ := ha.step md5
  have hstep : s.server.step md5 junk s.dir ⟨s.unread, [], s.short⟩ = some
      ⟨{ s.server with pc := .sendChunk (cString h.fileFull.bytes) mhRetry 0, metadata := h },
        s.dir, ⟨rest, [], s.short⟩, []⟩ := by
    rw [step_of_rcvCmd md5 junk hpc, hu, rcvCmd_sendChunk md5 hh]
    dsimp only
    rw [if_neg hchunks.not_ge, if_pos hdir]
    rfl
  rw [hserve hstep, Session.after, List.append_nil]

end Steps

/-! ### The .mdata file between two runs of a worker -/

/-- A worker's `UpdateControlData` on the file of `m`. -/
structure Metadata.Updates (u m : Metadata) : Prop where
  length : u.chunkInfo.length = m.chunkInfo.length
  sizes : ∀ c ∈ u.chunkInfo, -2 ^ 63 ≤ c.size ∧ c.size < 2 ^ 63

/-- **The header stays**, however often the table is updated. -/
theorem loadMetadata_updates {m : Metadata} (hm : m.Fits) {obj : Loaded} {file : List UInt8}
    {updates : List Metadata} (hupdates : ∀ u ∈ updates, u.Updates m) :
    ∃ l, loadMetadata obj (updates.foldl (fun file u => u.writeTable file) (m.saveMetadata file)) =
      some l ∧ l.header = m.header := by
  induction updates generalizing m with
  | nil => exact ⟨m.moved.loaded, loadMetadata_saveMetadata hm, m.header_moved⟩
  | cons u updates ih =>
    have hu := hupdates u List.mem_cons_self
    have hchunks : (u.updateControlData m).chunks = m.chunks := congrArg Nat.cast hu.length
    have hheader : (u.updateControlData m).header = m.header := by
      rw [Metadata.header, hchunks]
      rfl
    obtain ⟨l, hl, hlh⟩ := ih (hm.updateControlData hu.length hu.sizes) fun v hv =>
      ⟨((hupdates v (List.mem_cons_of_mem _ hv)).length).trans hu.length.symm,
        (hupdates v (List.mem_cons_of_mem _ hv)).sizes⟩
    refine ⟨l, ?_, hlh.trans hheader⟩
    rw [List.foldl_cons, writeTable_saveMetadata hu.length rfl]
    exact hl

/-- **Metadata survives the whole way.**  The server computes a header that describes the file;
the client, which has read all that was sent to it, saves it with a fresh table; the parent
loads that (`moved`, which has the header, and up to `tableEntries` chunks is all that was
saved) and marks it in use; a worker, after any updates of the table, loads a header and
sends it; and the server that reads it has the header that was computed, is in the loop of
`SendChunkToClient` with the file that was asked for, and has read nothing more. -/
theorem metadata_pipeline (md5 : Md5) (r : MetadataRequest) (hr : r.WellFormed) (s : Session)
    (hpc : s.server.pc = .rcvCmd) (hu : s.unread = r.bytes)
    (hdir : s.dir r.file_path = some (.file r.content)) (a : SessionAct) (ha : a.InPieces) :
    ∃ h s', r.Describes md5 h ∧ s.step md5 a = some s' ∧ s'.server.pc = .rcvCmd ∧
      s'.unread = [] ∧ s'.sent = s.sent ++ (encodeInt 2 0 ++ h.writeMetadataHeader) ∧
      ∀ (mem : ClientMemory) (file : List UInt8) (script : List (List ReadResult)), Pieces script →
        ∃ m w, downloadMetadataFromServer mem file
            ⟨encodeInt 2 0 ++ h.writeMetadataHeader, script, false⟩ =
              some (m.saveMetadata file, w) ∧ w.unread = [] ∧
          ∀ (obj : Loaded) (updates : List Metadata), (∀ u ∈ updates, u.Updates m) →
            loadMetadata obj (m.saveMetadata file) = some m.moved.loaded ∧
            m.moved.header = h ∧ (m.chunks ≤ tableEntries → m.moved = m) ∧
            ∃ l, loadMetadata obj (updates.foldl (fun file u => u.writeTable file)
                ((m.moved.setInUse 1).saveMetadata (m.saveMetadata file))) = some l ∧
              ∀ (t : Session) (b : SessionAct) (rest : List UInt8), t.server.pc = .rcvCmd →
                t.unread = 1 :: (l.header.writeMetadataHeader ++ rest) →
                (t.dir r.file_path).isSome = true → b.InPieces →
                ∃ t', t.step md5 b = some t' ∧ t'.server.metadata = h ∧
                  t'.server.pc = .sendChunk r.file_path mhRetry 0 ∧ t'.unread = rest ∧
                  t'.sent = t.sent := by
  obtain ⟨h, s', hdescribes, hstep, hpc', hunread, hsent⟩ :=
    step_sendMetadata md5 hr ha hpc hu hdir
  obtain ⟨hh, hnonneg, htable⟩ := hdescribes.inRange hr
  refine ⟨h, s', hdescribes, hstep, hpc', hunread, hsent, fun mem file script hp => ?_⟩
  have hfits : (h.fresh mem.inUse).Fits := fits_fresh hh hnonneg htable
  obtain ⟨w, hdownload, hw, -⟩ :=
    downloadMetadata_clean hh (hdescribes.table hr) mem file hp
  refine ⟨h.fresh mem.inUse, w, hdownload, hw, fun obj updates hupdates =>
    ⟨loadMetadata_saveMetadata hfits, ?_⟩⟩
  have hfresh : (h.fresh mem.inUse).moved.header = h :=
    (Metadata.header_moved _).trans (Header.fresh_header hnonneg)
  -- the updates leave the header that the first save has written
  have hfits' : ((h.fresh mem.inUse).moved.setInUse 1).Fits :=
    ⟨hfits.moved.header, hfits.moved.sizes, hfits.moved.table⟩
  obtain ⟨l, hl, hheader⟩ := loadMetadata_updates hfits' fun u hu =>
    ⟨(hupdates u hu).length.trans length_keepFront.symm, (hupdates u hu).sizes⟩
  refine ⟨hfresh, Metadata.moved_of_le, l, hl, fun t b rest htpc htu htdir hb => ?_⟩
  have hlh : l.header = h := hheader.trans hfresh
  rw [hlh] at htu
  rw [← hdescribes.file_path] at htdir ⊢
  exact ⟨_, step_sendChunk md5 hh (by omega) hb htpc htu htdir, rfl, rfl, rfl, rfl⟩

/-- A file "a" of three bytes, in chunks of two. -/
def sampleRequest : MetadataRequest := ⟨[97], [1, 2, 3], 2⟩

theorem sampleRequest_wellFormed : sampleRequest.WellFormed where
  length := by decide
  nul := by decide
  content := by decide
  chunk_size := by decide
  table := by decide

/-- The connections for the metadata and for the chunks. -/
def sampleConnection (unread : List UInt8) : Session :=
  .accept ⟨Buffer.zero _, 0, Buffer.zero _, 0, 0⟩ [] (Buffer.zero _)
    (fun p => if p = [97] then some (.file [1, 2, 3]) else none) unread

theorem metadata_pipeline_sample :
    ∃ h s' l t', (sampleConnection sampleRequest.bytes).step (fun _ => Buffer.zero _)
        (.serve (fun _ => 0) [[], [.count 3]]) = some s' ∧
      s'.sent = encodeInt 2 0 ++ h.writeMetadataHeader ∧
      (sampleConnection (1 :: (Loaded.header l).writeMetadataHeader)).step (fun _ => Buffer.zero _)
        (.serve (fun _ => 0) []) = some t' ∧
      t'.server.metadata = h ∧ h.chunks = 2 := by
  have hserve : (SessionAct.serve (fun _ => 0) [[], [.count 3]]).InPieces := by
    simp [SessionAct.InPieces, Pieces, ReadResult.Piece]
  obtain ⟨h, s', hdescribes, hstep, -, -, hsent, hclient⟩ := metadata_pipeline
    (fun _ => Buffer.zero _) sampleRequest sampleRequest_wellFormed
    (sampleConnection sampleRequest.bytes) rfl rfl rfl _ hserve
  obtain ⟨m, w, -, -, hworker⟩ := hclient ⟨Buffer.zero _, sampleHeader, 0⟩ [] [] nofun
  obtain ⟨-, -, -, l, -, hserver⟩ := hworker sampleMetadata.loaded [] nofun
  obtain ⟨t', ht, hmetadata, -⟩ := hserver (sampleConnection (1 :: l.header.writeMetadataHeader))
    (.serve (fun _ => 0) []) [] rfl (by rw [List.append_nil]; rfl) rfl nofun
  exact ⟨h, s', l, t', hstep, hsent, ht, hmetadata, hdescribes.chunks⟩

end Mhftp
