import Mhftp.Chunks
import Mhftp.Upload

/-! # The connections of an upload

As long as every write is accepted in full and the server reads what it is sent, the bytes
on a connection are whole messages, in the order in which they were sent, and the server is
where it has read the ones before them (`Source.Link`).  Each step that it takes then takes
one message off, and a chunk it puts at `chunkNumber * chunk_size_` (`Source.Link.server`).
-/

namespace Mhftp.Upload
open Library

/-- A local file in the chunks of its .mdata file, its name, and the chunk size announced to
the servers. -/
structure Source extends ChunkedFile where
  local_file : FileName
  announced : Int
  length_lt : content.length < 2 ^ 63
  announced_range : -2 ^ 63 ≤ announced ∧ announced < 2 ^ 63

namespace Source
variable (src : Source)

/-- The name of the file on the server. -/
def remote : Path := absoluteFile src.local_file.path

def message (k : Nat) : ChunkMessage := ⟨k, src.chunk k⟩

/-- Chunk `k` fits into the buffers, and the server computes the place the client does. -/
structure Sendable (k : Nat) : Prop where
  has : src.Has k
  size : src.size k ≤ maxChunkSize
  place : src.announced = src.chunkSize ∨ k = 0

/-- What a worker sends from its first message on: chunks, and when `closing` the number
that ends an upload. -/
def body (closing : Bool) (ks : List Nat) : List UInt8 :=
  ks.flatMap (fun k => (src.message k).bytes) ++ if closing then uploadEnd else []

/-- What follows UPLOAD_INIT. -/
def tail (opened closing : Bool) (ks : List Nat) : List UInt8 :=
  if opened then 3 :: src.body closing ks else []

/-- A connection with the chunks `ks` on their way to the server.  `idle`: the parent has
not turned to it; `opened`: its worker has sent UPLOAD_CHUNK; `ended`: nothing more will be
sent. -/
inductive Link (idle ended : Prop) (opened : Bool) (dir : Dir) (unread : List UInt8)
    (srv : MhProtoServer) : List Nat → Prop
  | idle : idle → opened = false → unread = [] → srv.pc = .rcvCmd →
      Link idle ended opened dir unread srv []
  | init {ks} (digest : Digest) (closing : Bool) : srv.pc = .rcvCmd →
      (opened = false → ks = []) → (closing = true → ended) →
      unread = uploadInit src.local_file.path src.announced src.content.length digest ++
        src.tail opened closing ks →
      Link idle ended opened dir unread srv ks
  | ready {ks} (closing : Bool) : srv.pc = .rcvCmd → srv.localFile = src.remote →
      srv.chunkSize = src.announced → dir.hasFile src.remote = true →
      (opened = false → ks = []) → (closing = true → ended) →
      unread = src.tail opened closing ks → Link idle ended opened dir unread srv ks
  | loop {ks} (closing : Bool) {pos : Nat} {chunkNumber chunkSize : Int}
      {buffer : Nat → UInt8} :
      srv.pc = .receiveChunk (some src.remote) pos chunkNumber chunkSize buffer →
      srv.chunkSize = src.announced → dir.hasFile src.remote = true → opened = true →
      (closing = true → ended) → unread = src.body closing ks →
      Link idle ended opened dir unread srv ks
  | done : ended → (opened = true → dir.hasFile src.remote = true) → unread = [] →
      srv.pc = .rcvCmd ∨ srv.pc = .exited → Link idle ended opened dir unread srv []

/-- What a step of a server does to the chunks on their way and to the directory: nothing,
or it makes sure that the file is there, or it writes the first chunk to its place. -/
inductive Wrote (dir : Dir) (ks : List Nat) : Dir → List Nat → Prop
  | nothing : Wrote dir ks dir ks
  | touched : Wrote dir ks (touch dir src.remote) ks
  | chunk {k ks'} : ks = k :: ks' →
      Wrote dir ks (update dir src.remote
        (some (.file (pwrite (dir.content src.remote) (k * src.chunkSize) (src.chunk k))))) ks'

variable {src} {idle ended idle' ended' : Prop} {opened : Bool} {dir dir' : Dir}
  {unread : List UInt8} {srv : MhProtoServer} {k : Nat} {ks ks' : List Nat}

section Message

theorem Sendable.fits (h : src.Sendable k) : (src.message k).Fits where
  chunkNumber := by
    have hlt := h.has.lt
    have hle : k * 1 ≤ k * src.chunkSize := Nat.mul_le_mul_left k src.one_le
    have hlen := src.length_lt
    show (k : Int) < 2 ^ 63
    omega
  data := by
    show (src.chunk k).length ≤ maxChunkSize
    rw [h.has.length_chunk]
    exact h.size

theorem Sendable.seek (h : src.Sendable k) (pos : Nat) :
    seek pos ((k : Int) * src.announced) = k * src.chunkSize := by
  have hplace : (k : Int) * src.announced = (k * src.chunkSize : Nat) := by
    rcases h.place with he | rfl
    · rw [he]; push_cast; rfl
    · simp
  rw [hplace, seek_of_lt pos (h.has.lt.trans src.length_lt)]

theorem body_cons (closing : Bool) :
    src.body closing (k :: ks) = (src.message k).bytes ++ src.body closing ks := by
  simp [body]

theorem body_snoc : src.body false (ks ++ [k]) = src.body false ks ++ (src.message k).bytes := by
  simp [body]

theorem body_closing : src.body true ks = src.body false ks ++ uploadEnd := by
  simp [body]

theorem eq_nil_of_body {closing : Bool} (h : src.body closing ks = []) : ks = [] := by
  cases ks with
  | nil => rfl
  | cons k ks =>
    have := congrArg List.length h
    rw [body_cons, List.length_append, ChunkMessage.length_bytes, List.length_nil] at this
    omega

end Message

section Client

/-- A link survives what does not concern it. -/
theorem Link.imp (h : src.Link idle ended opened dir unread srv ks) (hidle : idle → idle')
    (hended : ended → ended')
    (hdir : dir.hasFile src.remote = true → dir'.hasFile src.remote = true) :
    src.Link idle' ended' opened dir' unread srv ks := by
  cases h with
  | idle hi ho hu hpc => exact .idle (hidle hi) ho hu hpc
  | init digest closing hpc hks hc hu =>
    exact .init digest closing hpc hks (fun h => hended (hc h)) hu
  | ready closing hpc hf hs hd hks hc hu =>
    exact .ready closing hpc hf hs (hdir hd) hks (fun h => hended (hc h)) hu
  | loop closing hpc hs hd ho hc hu =>
    exact .loop closing hpc hs (hdir hd) ho (fun h => hended (hc h)) hu
  | done ho hd hu hpc => exact .done (hended ho) (fun h => hdir (hd h)) hu hpc

/-- The parent sends UPLOAD_INIT. -/
theorem link_init {digest : Digest} (hpc : srv.pc = .rcvCmd) :
    src.Link idle ended false dir
      (uploadInit src.local_file.path src.announced src.content.length digest) srv [] :=
  .init digest false hpc (fun _ => rfl) (fun h => by cases h) (by simp [tail])

/-- A worker sends UPLOAD_CHUNK. -/
theorem Link.open (h : src.Link idle ended false dir unread srv ks) (hidle : ¬ idle)
    (hended : ¬ ended) : src.Link idle' ended' true dir (unread ++ [3]) srv ks := by
  cases h with
  | idle hi => exact absurd hi hidle
  | init digest closing hpc hks hc hu =>
    obtain rfl := hks rfl
    exact .init digest false hpc (fun h => by cases h) (fun h => by cases h)
      (by simp [hu, tail, body])
  | ready closing hpc hf hs hd hks hc hu =>
    obtain rfl := hks rfl
    exact .ready false hpc hf hs hd (fun h => by cases h) (fun h => by cases h)
      (by simp [hu, tail, body])
  | loop closing hpc hs hd ho => cases ho
  | done ho => exact absurd ho hended

/-- What an opened link gets before it has ended, it has at its end. -/
theorem Link.extend (h : src.Link idle ended true dir unread srv ks) (hended : ¬ ended)
    {closing : Bool} {bytes : List UInt8} (hc : closing = true → ended')
    (hbytes : src.body closing ks' = src.body false ks ++ bytes) :
    src.Link idle' ended' true dir (unread ++ bytes) srv ks' := by
  have hopen : ∀ b : Bool, (b = true → ended) → b = false :=
    fun b h => Bool.eq_false_iff.mpr fun hb => hended (h hb)
  cases h with
  | idle _ ho => cases ho
  | init digest b hpc _ hb hu =>
    obtain rfl := hopen b hb
    exact .init digest closing hpc (fun h => by cases h) hc (by simp [hu, tail, hbytes])
  | ready b hpc hf hs hd _ hb hu =>
    obtain rfl := hopen b hb
    exact .ready closing hpc hf hs hd (fun h => by cases h) hc (by simp [hu, tail, hbytes])
  | loop b hpc hs hd _ hb hu =>
    obtain rfl := hopen b hb
    exact .loop closing hpc hs hd rfl hc (by rw [hu, hbytes])
  | done ho => exact absurd ho hended

/-- Where nothing is left to be read no chunk is on its way. -/
theorem Link.eq_nil (h : src.Link idle ended opened dir [] srv ks) : ks = [] := by
  cases h with
  | idle => rfl
  | init _ _ _ _ _ hu => simp [uploadInit] at hu
  | ready closing _ _ _ _ hks _ hu =>
    cases opened with
    | false => exact hks rfl
    | true => cases hu
  | loop closing _ _ _ _ _ hu => exact eq_nil_of_body hu.symm
  | done => rfl

theorem Link.eq_nil_of_not_opened (h : src.Link idle ended false dir unread srv ks) : ks = [] := by
  cases h with
  | idle | done => rfl
  | init _ _ _ hks | ready _ _ _ _ _ hks => exact hks rfl
  | loop _ _ _ _ ho => cases ho

/-- Where a worker has opened and the server has read all of it the file is there. -/
theorem Link.hasFile (h : src.Link idle ended true dir [] srv ks) :
    dir.hasFile src.remote = true := by
  cases h with
  | idle _ ho => cases ho
  | init _ _ _ _ _ hu => simp [uploadInit] at hu
  | ready _ _ _ _ hd => exact hd
  | loop _ _ _ hd => exact hd
  | done _ hd => exact hd rfl

end Client

section Server
variable {md5 : Md5} {junk : Nat → UInt8} {short : Bool} {r : Served}

/-- The server reads a chunk and puts it in its place. -/
theorem step_message {pos : Nat} {number size : Int} {buffer : Nat → UInt8} {ys : List UInt8}
    (hpc : srv.pc = .receiveChunk (some src.remote) pos number size buffer)
    (hsize : srv.chunkSize = src.announced) (hk : src.Sendable k) :
    srv.step md5 junk dir ⟨(src.message k).bytes ++ ys, [], short⟩ = some
      ⟨srv.goto (.receiveChunk (some src.remote) (k * src.chunkSize + (src.chunk k).length) k
          (src.chunk k).length (store buffer (src.chunk k))),
        update dir src.remote
          (some (.file (pwrite (dir.content src.remote) (k * src.chunkSize) (src.chunk k)))),
        ⟨ys, [], short⟩, []⟩ := by
  have hplace : seek pos (((src.message k).chunkNumber : Int) * srv.chunkSize) =
      k * src.chunkSize := by
    rw [hsize]
    exact hk.seek pos
  rw [MhProtoServer.step, hpc]
  dsimp only
  rw [receiveChunkTurn_message hk.fits, writeChunk_message, hplace]
  rfl

/-- **A step of the server** takes the first message off and does what it says; at the end
of the stream it finds that nothing more will be sent. -/
theorem Link.server (h : src.Link idle ended opened dir unread srv ks)
    (hks : ∀ k ∈ ks, src.Sendable k) (hfolder : dir.isFolder src.remote = false)
    (hr : srv.step md5 junk dir ⟨unread, [], short⟩ = some r)
    (hcalm : r.wire.short = true → ended) :
    ∃ ks', src.Link idle ended opened r.dir r.wire.unread r.server ks' ∧
      src.Wrote dir ks r.dir ks' := by
  -- where nothing is left the process ends, and where it is in its loop it leaves it
  have hend : srv.pc = .rcvCmd → unread = [] → ended ∧
      r = ⟨srv.goto .exited, dir, ⟨[], [], true⟩, []⟩ := by
    rintro hpc rfl
    rw [step_of_rcvCmd md5 junk hpc, rcvCmd_eof] at hr
    obtain rfl := Option.some.inj hr
    exact ⟨hcalm rfl, rfl⟩
  cases h with
  | idle hi ho hu hpc =>
    obtain ⟨hended, rfl⟩ := hend hpc hu
    exact ⟨[], .done hended (fun h => by simp [ho] at h) rfl (Or.inr rfl), .nothing⟩
  | init digest closing hpc hnil hc hu =>
    subst hu
    have hlen := src.length_lt
    rw [step_of_rcvCmd md5 junk hpc, rcvCmd_uploadInit md5 junk src.local_file.length
      src.local_file.nul src.announced_range (by omega)] at hr
    obtain rfl := Option.some.inj hr
    exact ⟨ks, .ready closing rfl rfl rfl (hasFile_touch src.local_file.named hfolder) hnil hc rfl,
      .touched⟩
  | ready closing hpc hfile hsize hdir hnil hc hu =>
    cases opened with
    | false =>
      obtain rfl := hnil rfl
      obtain ⟨hended, rfl⟩ := hend hpc hu
      exact ⟨[], .done hended (fun h => by cases h) rfl (Or.inr rfl), .nothing⟩
    | true =>
      subst hu
      rw [step_of_rcvCmd md5 junk hpc, tail, if_pos rfl, rcvCmd_uploadChunk,
        MhProtoServer.receiveChunkFromClient, hfile] at hr
      simp only [hdir, if_true] at hr
      obtain rfl := Option.some.inj hr
      exact ⟨ks, .loop closing rfl hsize hdir rfl hc rfl, .nothing⟩
  | @loop _ closing pos number size buffer hpc hsize hdir ho hc hu =>
    subst hu
    cases ks with
    | nil =>
      rw [MhProtoServer.step, hpc] at hr
      obtain rfl := Option.some.inj hr
      cases closing with
      | false =>
        -- the worker has left without a word
        have hnil : src.body false [] = [] := rfl
        rw [hnil, receiveChunkTurn_eof] at hcalm ⊢
        exact ⟨[], .done (hcalm rfl) (fun _ => hdir) rfl (Or.inl rfl), .nothing⟩
      | true =>
        have hbody : src.body true [] = uploadEnd ++ [] := by simp [body]
        rw [hbody, receiveChunkTurn_end]
        exact ⟨[], .done (hc rfl) (fun _ => hdir) rfl (Or.inl rfl), .nothing⟩
    | cons k ks =>
      rw [body_cons, step_message hpc hsize (hks k List.mem_cons_self)] at hr
      obtain rfl := Option.some.inj hr
      exact ⟨ks, .loop closing rfl hsize (hasFile_update hdir _) ho hc rfl, .chunk rfl⟩
  | done hended hd hu hpc =>
    rcases hpc with hpc | hpc
    · obtain ⟨-, rfl⟩ := hend hpc hu
      exact ⟨[], .done hended hd rfl (Or.inr rfl), .nothing⟩
    · rw [MhProtoServer.step, hpc] at hr
      cases hr

/-- What a step of a server leaves of what is on its way, and in the file. -/
theorem Wrote.stored (h : src.Wrote dir ks dir' ks') (hk : src.Has k)
    (hr : k ∈ ks ∨ src.Stored (dir.content src.remote) k) :
    k ∈ ks' ∨ src.Stored (dir'.content src.remote) k := by
  cases h with
  | nothing => exact hr
  | touched =>
    rw [content_touch]
    exact hr
  | @chunk j ks' he =>
    subst he
    rw [content_update_self]
    rcases hr with hr | hs
    · rcases List.mem_cons.mp hr with rfl | hr
      · exact Or.inr (ChunkedFile.stored_pwrite hk)
      · exact Or.inl hr
    · have := hs.pwrite hk (j := j) (n := (src.chunk j).length)
      rw [List.take_length] at this
      exact Or.inr this

theorem Wrote.subset (h : src.Wrote dir ks dir' ks') : ∀ k ∈ ks', k ∈ ks := by
  cases h with
  | nothing | touched => exact fun _ => id
  | chunk he => rw [he]; exact fun _ => List.mem_cons_of_mem _

end Server
end Source
end Mhftp.Upload
