import Mhftp.Session
import Mhftp.UploadWire

/-! # The framing of an upload session

The bytes that `InitUploadOnServer` and then the upload worker send are taken by the server
as what they are, however they come in pieces: the fields of UPLOAD_INIT, the messages one
by one, and the closing number, after which the server is back at `RcvCmd` and nothing of
the session is left (`upload_session`).
-/

namespace Mhftp
open Library

/-- What `InitUploadOnServer` and the upload worker send. -/
def uploadStream (local_file : Path) (chunk_size file_size : Int) (digest : Digest)
    (messages : List ChunkMessage) : List UInt8 :=
  uploadInit local_file chunk_size file_size digest ++
    3 :: (messages.flatMap ChunkMessage.bytes ++ uploadEnd)

/-- A file after the positional writes of messages, one after the other; a write at a
negative position fails. -/
def writeMessages (chunk_size : Int) : List UInt8 → List ChunkMessage → List UInt8 :=
  List.foldl fun file m =>
    if 0 ≤ m.chunkNumber * chunk_size then pwrite file (m.chunkNumber * chunk_size).toNat m.data
    else file

/-- The offset of a message is one that a file can have. -/
def ChunkMessage.Placed (chunk_size : Int) (m : ChunkMessage) : Prop :=
  0 ≤ m.chunkNumber * chunk_size ∧ m.chunkNumber * chunk_size < 2 ^ 63

/-- The message that a turn of the loop of `ReceiveChunkFromClient` has decoded. -/
def receivedMessage (md5 : Md5) (s : Session) (a : SessionAct) : Option (Int × List UInt8) :=
  match s.server.pc, (s.step md5 a).map fun s' : Session => s'.server.pc with
  | .receiveChunk .., some (.receiveChunk _ _ chunkNumber chunkSize buffer) =>
    some (chunkNumber, (List.range chunkSize.toNat).map buffer)
  | _, _ => none

section Observer
variable {md5 : Md5} {s s' : Session} {a : SessionAct}

theorem receivedMessage_rcvCmd (hpc : s.server.pc = .rcvCmd) : receivedMessage md5 s a = none := by
  rw [receivedMessage, hpc]

theorem receivedMessage_end (hstep : s.step md5 a = some s') (hpc : s'.server.pc = .rcvCmd) :
    receivedMessage md5 s a = none := by
  rw [receivedMessage, hstep, Option.map_some, hpc]
  cases s.server.pc <;> rfl

theorem receivedMessage_turn (hstep : s.step md5 a = some s') {file : Option Path} {pos : Nat}
    {chunkNumber chunkSize : Int} {buffer : Nat → UInt8}
    (hpc : s.server.pc = .receiveChunk file pos chunkNumber chunkSize buffer)
    {file' : Option Path} {pos' : Nat} {chunkNumber' chunkSize' : Int} {buffer' : Nat → UInt8}
    (hpc' : s'.server.pc = .receiveChunk file' pos' chunkNumber' chunkSize' buffer') :
    receivedMessage md5 s a =
      some (chunkNumber', (List.range chunkSize'.toNat).map buffer') := by
  rw [receivedMessage, hstep, Option.map_some, hpc, hpc']

end Observer

section Loop
variable (md5 : Md5) {c : Int} {file : Path} {rest : List UInt8}

theorem step_uploadInit {s : Session} {a : SessionAct} (ha : a.InPieces) {local_file : Path}
    (hlength : local_file.length < fnameSize) (hnul : 0 ∉ local_file) {chunk_size file_size : Int}
    (hc : -2 ^ 63 ≤ chunk_size ∧ chunk_size < 2 ^ 63)
    (hf : -2 ^ 63 ≤ file_size ∧ file_size < 2 ^ 63) {digest : Digest}
    (hpc : s.server.pc = .rcvCmd)
    (hu : s.unread = uploadInit local_file chunk_size file_size digest ++ rest) :
    s.step md5 a = some
      { s with
        server := ⟨.rcvCmd, s.server.metadata, chunk_size, absoluteFile local_file, digest⟩
        dir := touch s.dir (absoluteFile local_file)
        unread := rest } := by
  obtain ⟨junk, hserve⟩ := ha.step md5
  have hinit : s.server.step md5 junk s.dir ⟨s.unread, [], s.short⟩ = some
      ⟨⟨.rcvCmd, s.server.metadata, chunk_size, absoluteFile local_file, digest⟩,
        touch s.dir (absoluteFile local_file), ⟨rest, [], s.short⟩, []⟩ := by
    rw [step_of_rcvCmd md5 junk hpc, hu, rcvCmd_uploadInit md5 junk hlength hnul hc hf]
  rw [hserve hinit, Session.after, List.append_nil]

theorem step_uploadChunk {s : Session} {a : SessionAct} (ha : a.InPieces)
    (hpc : s.server.pc = .rcvCmd) (hu : s.unread = 3 :: rest)
    (hfile : s.dir.hasFile s.server.localFile = true) :
    ∃ chunkSize buffer, s.step md5 a = some
      { s with
        server := s.server.goto (.receiveChunk (some s.server.localFile) 0 0 chunkSize buffer)
        unread := rest } := by
  obtain ⟨junk, hserve⟩ := ha.step md5
  have hstart : s.server.step md5 junk s.dir ⟨s.unread, [], s.short⟩ = some
      ⟨s.server.goto (.receiveChunk (some s.server.localFile) 0 0
        (decodeInt (unset junk 0 8)) fun i => junk (8 + i)), s.dir, ⟨rest, [], s.short⟩, []⟩ := by
    rw [step_of_rcvCmd md5 junk hpc, hu, rcvCmd_uploadChunk, MhProtoServer.receiveChunkFromClient,
      if_pos hfile]
  refine ⟨decodeInt (unset junk 0 8), fun i => junk (8 + i), ?_⟩
  rw [hserve hstart, Session.after, List.append_nil]

/-- The session after a turn on a message, which leaves `pos` and `buffer`. -/
def Session.afterMessage (s : Session) (c : Int) (file : Path) (m : ChunkMessage) (pos : Nat)
    (buffer : Nat → UInt8) (rest : List UInt8) : Session :=
  { s with
    server := s.server.goto (.receiveChunk (some file) pos m.chunkNumber m.data.length
      (store buffer m.data))
    dir := update s.dir file
      (some (.file (pwrite (s.dir.content file) (m.chunkNumber * c).toNat m.data)))
    unread := rest }

/-- A turn on a message. -/
theorem step_message {s : Session} {a : SessionAct} (ha : a.InPieces) {m : ChunkMessage}
    (hfits : m.Fits) (hplaced : m.Placed c) {pos : Nat} {chunkNumber chunkSize : Int}
    {buffer : Nat → UInt8}
    (hpc : s.server.pc = .receiveChunk (some file) pos chunkNumber chunkSize buffer)
    (hc : s.server.chunkSize = c) (hu : s.unread = m.bytes ++ rest) :
    ∃ pos', s.step md5 a = some (s.afterMessage c file m pos' buffer rest) := by
  obtain ⟨junk, hserve⟩ := ha.step md5
  have hturn : s.server.step md5 junk s.dir ⟨s.unread, [], s.short⟩ = some
      (s.server.writeChunk (some file) pos m.chunkNumber m.data.length (store buffer m.data)
        s.dir ⟨rest, [], s.short⟩) := by
    rw [MhProtoServer.step, hpc, hu]
    exact congrArg some (receiveChunkTurn_message hfits)
  have hseek : seek pos (m.chunkNumber * c) = (m.chunkNumber * c).toNat := by
    rw [seek, int64_of_range ⟨by have := hplaced.1; omega, hplaced.2⟩, if_pos hplaced.1]
  rw [writeChunk_message, hc, hseek] at hturn
  refine ⟨(m.chunkNumber * c).toNat + m.data.length, ?_⟩
  rw [hserve hturn, Session.after, List.append_nil]
  rfl

/-- The turn on the closing number. -/
theorem step_end {s : Session} {a : SessionAct} (ha : a.InPieces) {pos : Nat}
    {chunkNumber chunkSize : Int} {buffer : Nat → UInt8}
    (hpc : s.server.pc = .receiveChunk (some file) pos chunkNumber chunkSize buffer)
    (hu : s.unread = uploadEnd ++ rest) :
    s.step md5 a = some { s with server := s.server.goto .rcvCmd, unread := rest } := by
  obtain ⟨junk, hserve⟩ := ha.step md5
  have hturn : s.server.step md5 junk s.dir ⟨s.unread, [], s.short⟩ = some
      ⟨s.server.goto .rcvCmd, s.dir, ⟨rest, [], s.short⟩, []⟩ := by
    rw [MhProtoServer.step, hpc, hu]
    exact congrArg some receiveChunkTurn_end
  rw [hserve hturn, Session.after, List.append_nil]

/-- **The loop**, by induction on the messages. -/
theorem run_messages (messages : List ChunkMessage) {s : Session} {as : List SessionAct}
    (has : ∀ a ∈ as, a.InPieces) (hlength : as.length = messages.length + 1)
    (hmessages : ∀ m ∈ messages, m.Fits ∧ m.Placed c) {pos : Nat} {chunkNumber chunkSize : Int}
    {buffer : Nat → UInt8}
    (hpc : s.server.pc = .receiveChunk (some file) pos chunkNumber chunkSize buffer)
    (hc : s.server.chunkSize = c)
    (hu : s.unread = messages.flatMap ChunkMessage.bytes ++ (uploadEnd ++ rest)) :
    ∃ dir, (Session.machine md5).run s as =
        some { s with server := s.server.goto .rcvCmd, dir, unread := rest } ∧
      (∀ content, s.dir file = some (.file content) →
        dir file = some (.file (writeMessages c content messages))) ∧
      (∀ p, p ≠ file → dir p = s.dir p) ∧
      (Session.machine md5).events (receivedMessage md5) s as =
        messages.map fun m => ((m.chunkNumber : Int), m.data) := by
  induction messages generalizing s as pos chunkNumber chunkSize buffer with
  | nil =>
    -- the number -1 that ends the session
    obtain ⟨a, rfl⟩ := List.length_eq_one_iff.mp hlength
    have hstep := step_end md5 (has a List.mem_cons_self) hpc hu
    refine ⟨s.dir, (Machine.run_cons_of_step hstep []).trans rfl, fun content h => h,
      fun p _ => rfl, ?_⟩
    rw [Machine.events_cons_of_step hstep, receivedMessage_end hstep rfl]
    rfl
  | cons m messages ih =>
    obtain ⟨a, as, rfl⟩ := List.exists_cons_of_length_eq_add_one hlength
    obtain ⟨hfits, hplaced⟩ := hmessages m List.mem_cons_self
    rw [List.flatMap_cons, List.append_assoc] at hu
    obtain ⟨pos', hstep⟩ := step_message md5 (has a List.mem_cons_self) hfits hplaced hpc hc hu
    obtain ⟨dir, hrun, hfile, hothers, hevents⟩ := ih
      (s := s.afterMessage c file m pos' buffer
        (messages.flatMap ChunkMessage.bytes ++ (uploadEnd ++ rest)))
      (fun b hb => has b (List.mem_cons_of_mem _ hb)) (by simpa using hlength)
      (fun m' h => hmessages m' (List.mem_cons_of_mem _ h)) rfl hc rfl
    refine ⟨dir, (Machine.run_cons_of_step hstep as).trans hrun, fun content h => ?_,
      fun p hp => (hothers p hp).trans (update_of_ne _ _ hp), ?_⟩
    · rw [hfile _ (update_self _ _ _), content_of_file h, writeMessages, List.foldl_cons,
        if_pos hplaced.1]
    · rw [Machine.events_cons_of_step hstep, receivedMessage_turn hstep hpc rfl, hevents,
        Int.toNat_natCast, map_store]
      rfl

end Loop

/-- **The framing of an upload.**  Whatever the fields and the messages are, as long as the
offset of each message is one that a file can have and so is the name that is cut from the
path, which is not that of a folder, the server decodes them, its file is the old one after the
positional writes, no other file has changed, and it is back at `RcvCmd` right behind the closing
number. -/
theorem upload_session (md5 : Md5) (local_file : Path) (chunk_size file_size : Int)
    (digest : Digest) (messages : List ChunkMessage) (rest : List UInt8) (s : Session)
    (as : List SessionAct) (hlength : local_file.length < fnameSize) (hnul : 0 ∉ local_file)
    (hname : namesNoFile (absoluteFile local_file) = false)
    (hfolder : s.dir.isFolder (absoluteFile local_file) = false)
    (hc : -2 ^ 63 ≤ chunk_size ∧ chunk_size < 2 ^ 63)
    (hf : -2 ^ 63 ≤ file_size ∧ file_size < 2 ^ 63)
    (hmessages : ∀ m ∈ messages, m.Fits ∧ m.Placed chunk_size) (hpc : s.server.pc = .rcvCmd)
    (hu : s.unread = uploadStream local_file chunk_size file_size digest messages ++ rest)
    (has : ∀ a ∈ as, a.InPieces) (hsteps : as.length = messages.length + 3) :
    ∃ dir, (Session.machine md5).run s as = some
        { s with
          server := ⟨.rcvCmd, s.server.metadata, chunk_size, absoluteFile local_file, digest⟩
          dir, unread := rest } ∧
      dir (absoluteFile local_file) =
        some (.file
          (writeMessages chunk_size (s.dir.content (absoluteFile local_file)) messages)) ∧
      (∀ p, p ≠ absoluteFile local_file → dir p = s.dir p) ∧
      (Session.machine md5).events (receivedMessage md5) s as =
        messages.map fun m => ((m.chunkNumber : Int), m.data) := by
  -- one step for each command, and then one for each message
  obtain ⟨a, as, rfl⟩ := List.exists_cons_of_length_eq_add_one hsteps
  obtain ⟨b, as, rfl⟩ := List.exists_cons_of_length_eq_add_one (Nat.succ.inj hsteps)
  simp only [uploadStream, List.append_assoc, List.cons_append] at hu
  have hinit := step_uploadInit md5 (has a List.mem_cons_self) hlength hnul hc hf hpc hu
  obtain ⟨chunkSize, buffer, hstart⟩ := step_uploadChunk md5
    (s := { s with
      server := ⟨.rcvCmd, s.server.metadata, chunk_size, absoluteFile local_file, digest⟩
      dir := touch s.dir (absoluteFile local_file)
      unread := 3 :: (messages.flatMap ChunkMessage.bytes ++ (uploadEnd ++ rest)) })
    (has b (List.mem_cons_of_mem _ List.mem_cons_self)) rfl rfl (hasFile_touch hname hfolder)
  obtain ⟨dir, hrun, hfile, hothers, hevents⟩ := run_messages md5 messages
    (s := { s with
      server := ⟨.receiveChunk (some (absoluteFile local_file)) 0 0 chunkSize buffer,
        s.server.metadata, chunk_size, absoluteFile local_file, digest⟩
      dir := touch s.dir (absoluteFile local_file)
      unread := messages.flatMap ChunkMessage.bytes ++ (uploadEnd ++ rest) })
    (fun c h => has c (List.mem_cons_of_mem _ (List.mem_cons_of_mem _ h)))
    (by simpa using hsteps) hmessages rfl rfl rfl
  obtain ⟨content, hcontent⟩ := hasFile_iff.mp (hasFile_touch hname hfolder)
  have hold : content = s.dir.content (absoluteFile local_file) := by
    rw [← content_touch, content_of_file hcontent]
  refine ⟨dir, ?_, hold ▸ hfile content hcontent, fun p hp => (hothers p hp).trans ?_, ?_⟩
  · exact (Machine.run_cons_of_step hinit _).trans ((Machine.run_cons_of_step hstart _).trans hrun)
  · exact touch_of_ne hp
  · rw [Machine.events_cons_of_step hinit, Machine.events_cons_of_step hstart,
      receivedMessage_rcvCmd hpc, receivedMessage_rcvCmd rfl]
    exact hevents

/-- A connection with an upload on it, and with nothing else. -/
def sampleUpload (local_file : Path) (chunk_size : Int) (messages : List ChunkMessage) : Session :=
  .accept ⟨Buffer.zero _, 0, Buffer.zero _, 0, 0⟩ [] (Buffer.zero _) (fun _ => none)
    (uploadStream local_file chunk_size 3 (Buffer.zero _) messages)

/-- The same, where the name "a" is that of a folder. -/
def sampleFolder : Session :=
  { sampleUpload [97] 1 [⟨0, [7]⟩] with
    dir := fun p => if p = [97] then some (.folder 4096) else none }

def sampleMessages : List ChunkMessage := [⟨0, [1, 2]⟩, ⟨1, [3]⟩]

/-- The first of these messages comes in two pieces. -/
def sampleServes : List SessionAct :=
  [.serve (fun _ => 0) [], .serve (fun _ => 0) [], .serve (fun _ => 0) [[.count 1]],
    .serve (fun _ => 0) [], .serve (fun _ => 0) []]

theorem sampleMessages_placed : ∀ m ∈ sampleMessages, m.Fits ∧ m.Placed 2 := by
  intro m hm
  have hmax := maxChunkSize_eq
  simp only [sampleMessages, List.mem_cons, List.not_mem_nil, or_false] at hm
  rcases hm with rfl | rfl <;>
    exact ⟨⟨by decide, by rw [hmax]; decide⟩, ⟨by decide, by decide⟩⟩

theorem upload_session_sample :
    ∃ dir, (Session.machine fun _ => Buffer.zero _).run (sampleUpload [97] 2 sampleMessages)
        sampleServes = some
        { sampleUpload [97] 2 sampleMessages with
          server := ⟨.rcvCmd, ⟨Buffer.zero _, 0, Buffer.zero _, 0, 0⟩, 2, [97], Buffer.zero _⟩
          dir, unread := [] } ∧
      dir [97] = some (.file [1, 2, 3]) := by
  have hserves : ∀ a ∈ sampleServes, a.InPieces := by
    simp [sampleServes, SessionAct.InPieces, Pieces, ReadResult.Piece]
  obtain ⟨dir, hrun, hfile, -, -⟩ := upload_session (fun _ => Buffer.zero _) [97] 2 3
    (Buffer.zero _) sampleMessages [] (sampleUpload [97] 2 sampleMessages) sampleServes (by decide)
    (by decide) (by decide) rfl (by decide) (by decide) sampleMessages_placed rfl
    (List.append_nil _).symm hserves rfl
  exact ⟨dir, hrun, hfile⟩

/-- A negative chunk size: `lseek` fails, and the message for chunk 1 goes to the front of
the file.  The path "a/", which has no name after its '/', and the name of a folder: there is
no file to write to. -/
theorem upload_session_fails :
    (¬ ∃ s', (Session.machine fun _ => Buffer.zero _).run (sampleUpload [97] (-1) [⟨1, [7]⟩])
        (List.replicate 4 (.serve (fun _ => 0) [])) = some s' ∧
      s'.dir [97] = some (.file (writeMessages (-1) [] [⟨1, [7]⟩]))) ∧
    (¬ ∃ s', (Session.machine fun _ => Buffer.zero _).run (sampleUpload [97, 47] 1 [⟨0, [7]⟩])
        (List.replicate 4 (.serve (fun _ => 0) [])) = some s' ∧
      s'.dir (absoluteFile [97, 47]) = some (.file (writeMessages 1 [] [⟨0, [7]⟩]))) ∧
    ¬ ∃ s', (Session.machine fun _ => Buffer.zero _).run sampleFolder
        (List.replicate 4 (.serve (fun _ => 0) [])) = some s' ∧
      s'.dir [97] = some (.file (writeMessages 1 [] [⟨0, [7]⟩])) := by
  refine ⟨?_, ?_, ?_⟩
  · rintro ⟨s', hrun, hfile⟩
    have hwritten : ((Session.machine fun _ => Buffer.zero _).run
        (sampleUpload [97] (-1) [⟨1, [7]⟩]) (List.replicate 4 (.serve (fun _ => 0) []))).map
          (fun s' => s'.dir [97]) = some (some (.file [7])) := by
      decide +kernel
    rw [hrun, Option.map_some, hfile] at hwritten
    cases hwritten
  · rintro ⟨s', hrun, hfile⟩
    have hwritten : ((Session.machine fun _ => Buffer.zero _).run
        (sampleUpload [97, 47] 1 [⟨0, [7]⟩]) (List.replicate 4 (.serve (fun _ => 0) []))).map
          (fun s' => s'.dir (absoluteFile [97, 47])) = some none := by
      decide +kernel
    rw [hrun, Option.map_some, hfile] at hwritten
    cases hwritten
  · rintro ⟨s', hrun, hfile⟩
    have hwritten : ((Session.machine fun _ => Buffer.zero _).run sampleFolder
        (List.replicate 4 (.serve (fun _ => 0) []))).map (fun s' => s'.dir [97]) =
          some (some (.folder 4096)) := by
      decide +kernel
    rw [hrun, Option.map_some, hfile] at hwritten
    cases hwritten

end Mhftp
