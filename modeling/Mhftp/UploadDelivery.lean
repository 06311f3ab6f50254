import Mhftp.UploadClaims
import Mhftp.UploadLink

/-! # What an upload delivers

An upload of a file that does not change, on connections that do not fail (`Calm`).  The
workers send what the .mdata file describes (`Source.Described`), and every chunk that it
says is CH_OK is on its way or in its place on the server (`Source.Delivering`), even where
the parent's saves have undone claims and a chunk is sent twice: a chunk that is written
again is written to the same place.
-/

namespace Mhftp.Upload
open Library

/-- The worker has sent UPLOAD_CHUNK. -/
@[simp] def WorkerPc.opened : WorkerPc → Bool
  | notForked | start | killed => false
  | _ => true

/-- The chunk a worker has sent and not finished. -/
@[simp] def WorkerPc.sent : WorkerPc → Option Nat
  | update k | updateLocked k | updateLoaded k => some k
  | _ => none

/-- The parent has metadata. -/
def ParentPc.loaded : ParentPc → Bool
  | loop i => i ≠ 0
  | inited _ | saved _ | finalLoaded | ended => true
  | aborted | killWait => false

/-- All processes of the client have ended. -/
def State.Closed (s : State) : Prop := (s.pc = .ended ∨ s.pc = .aborted) ∧ s.AllFinished

instance (s : State) : Decidable s.Closed :=
  inferInstanceAs (Decidable (_ ∧ _))

/-- The connection that the parent is at. -/
def ParentPc.conn : ParentPc → Nat
  | loop i | inited i | saved i => i
  | _ => 0

/-- The `sound` connections do not fail: writes to them return their full count, and a
server waits for what it wants to read, unless the client has closed its connections. -/
def Calm (sound : Nat → Prop) (s : State) : Act → State → Prop
  | .parent (.init _ script), s' =>
    sound s.pc.conn → allFull (initPieces s s'.metadata) script = true
  | .worker w (.open script), _ => sound w → allFull [[3]] script = true
  | .worker w (.giveUp script), _ => sound w → allFull [uploadEnd] script = true
  | .worker w (.send script), _ => sound w → allFull (nextPieces s w) script = true
  | .server w script _, s' => sound w → script = [] ∧ ((s'.conns w).short = true → s.Closed)
  | _, _ => True

instance (sound : Nat → Prop) [DecidablePred sound] (s s' : State) :
    (a : Act) → Decidable (Calm sound s a s')
  | .parent (.init _ script) =>
    inferInstanceAs (Decidable (_ → allFull (initPieces s s'.metadata) script = true))
  | .worker _ (.open script) => inferInstanceAs (Decidable (_ → allFull [[3]] script = true))
  | .worker _ (.giveUp script) =>
    inferInstanceAs (Decidable (_ → allFull [uploadEnd] script = true))
  | .worker w (.send script) =>
    inferInstanceAs (Decidable (_ → allFull (nextPieces s w) script = true))
  | .server w script _ =>
    inferInstanceAs (Decidable (_ → script = [] ∧ ((s'.conns w).short = true → s.Closed)))
  | .parent .sigpipe | .parent .save | .parent .fork | .parent .forkFails | .parent .refuse
  | .parent .wait | .parent .finish | .parent .sigint | .parent .exit | .worker _ .lock
  | .worker _ .load | .worker _ .claim | .worker _ .release | .worker _ .sigpipe
  | .worker _ .update | .worker _ .test => isTrue trivial

/-- Every claim is of a chunk that the servers put where the client takes it from. -/
def ClaimsPlaced (sound : Nat → Prop) (chunkSize : Nat) (s : State) : Act → State → Prop
  | .worker w .claim, _ => sound w → s.chunk_size = chunkSize ∨
      (s.workers w).metadata.getNextPendingChunk = some 0
  | _, _ => True

instance (sound : Nat → Prop) [DecidablePred sound] (chunkSize : Nat) (s s' : State) :
    (a : Act) → Decidable (ClaimsPlaced sound chunkSize s a s')
  | .worker w .claim => inferInstanceAs (Decidable (_ → s.chunk_size = chunkSize ∨
      (s.workers w).metadata.getNextPendingChunk = some 0))
  | .worker _ (.open _) | .worker _ .lock | .worker _ .load | .worker _ (.giveUp _)
  | .worker _ .release | .worker _ (.send _) | .worker _ .sigpipe | .worker _ .update
  | .worker _ .test | .parent _ | .server _ _ _ => isTrue trivial

namespace Source
variable (src : Source)

/-! ### What the workers know -/

/-- The size of the file and that of its chunks. -/
structure Describes (m : Metadata) : Prop where
  fileSize : m.fileSize = src.content.length
  chunkSize : m.chunkSize = src.chunkSize

/-- A worker in its loop knows the size of each chunk. -/
structure Informs (wk : Worker) : Prop where
  metadata : wk.pc.opened = true → src.Describes wk.metadata
  payLoadArray : wk.pc.opened = true → wk.payLoadArray =
    getPayLoadArray src.content.length src.chunkSize (chunkCount src.content.length src.chunkSize)

/-- The .mdata file and all that have loaded it describe the file in its chunks. -/
structure Described (t₀ : List ChunkInfo) (s : State) : Prop extends Tracked t₀ s where
  localFile : s.localFile = src.content
  local_file : s.local_file = src.local_file
  announced : s.chunk_size = src.announced
  count : (t₀.length : Int) = chunkCount src.content.length src.chunkSize
  create : s.mdata = none → src.announced = src.chunkSize
  mdata : ∀ m, s.mdata = some m → src.Describes m
  parent : s.pc.loaded = true → src.Describes s.metadata
  worker : ∀ w, src.Informs (s.workers w)

section Described
variable {src} {md5 : Md5} {t₀ : List ChunkInfo} {s s' : State} {a : Act} {w k : Nat}
  {m : Metadata}

theorem Describes.setInUse (h : src.Describes m) (u : UInt8) : src.Describes (m.setInUse u) :=
  ⟨h.fileSize, h.chunkSize⟩

theorem Describes.updateControlData {m' : Metadata} (h : src.Describes m) :
    src.Describes (m'.updateControlData m) :=
  ⟨h.fileSize, h.chunkSize⟩

theorem Describes.setChunkStatus (h : src.Describes m) (k : Nat) (status : ChunkStatus)
    (digest : Option Digest) : src.Describes (m.setChunkStatus k status digest) :=
  ⟨h.fileSize, h.chunkSize⟩

/-- A step of one worker. -/
theorem Described.move (hs : src.Described t₀ s) (ht : Tracked t₀ s') {wk : Worker}
    (hlocal : s'.localFile = s.localFile) (hname : s'.local_file = s.local_file)
    (hsize : s'.chunk_size = s.chunk_size) (hpc : s'.pc = s.pc)
    (hmetadata : s'.metadata = s.metadata)
    (hmdata : s'.mdata = s.mdata ∨ ∃ m : Metadata, s'.mdata = s.mdata.map m.updateControlData)
    (hworkers : s'.workers = update s.workers w wk) (hwk : src.Informs wk) :
    src.Described t₀ s' where
  toTracked := ht
  localFile := hlocal.trans hs.localFile
  local_file := hname.trans hs.local_file
  announced := hsize.trans hs.announced
  count := hs.count
  create := fun h => by
    rcases hmdata with hm | ⟨m, hm⟩
    · exact hs.create (hm ▸ h)
    · rw [hm, Option.map_eq_none_iff] at h
      exact hs.create h
  mdata := fun m' h => by
    rcases hmdata with hm | ⟨m, hm⟩
    · exact hs.mdata m' (hm ▸ h)
    · rw [hm, Option.map_eq_some_iff] at h
      obtain ⟨file, hfile, rfl⟩ := h
      exact (hs.mdata file hfile).updateControlData
  parent := by rw [hpc, hmetadata]; exact hs.parent
  worker := fun v => by
    rw [hworkers]
    exact forall_update hwk hs.worker v

/-- A step of the parent. -/
theorem Described.parentMove (hs : src.Described t₀ s) (ht : Tracked t₀ s')
    (hlocal : s'.localFile = s.localFile) (hname : s'.local_file = s.local_file)
    (hsize : s'.chunk_size = s.chunk_size) (hworkers : ∀ w, src.Informs (s'.workers w))
    (hcreate : s'.mdata = none → s.mdata = none)
    (hmdata : ∀ m, s'.mdata = some m → src.Describes m)
    (hparent : s'.pc.loaded = true → src.Describes s'.metadata) : src.Described t₀ s' where
  toTracked := ht
  localFile := hlocal.trans hs.localFile
  local_file := hname.trans hs.local_file
  announced := hsize.trans hs.announced
  count := hs.count
  create := fun h => hs.create (hcreate h)
  mdata := hmdata
  parent := hparent
  worker := hworkers

/-- The metadata the parent makes or finds describes the file. -/
theorem Described.init (hs : src.Described t₀ s) {junk : Nat → UInt8} {i : Nat}
    {mdata : Option Metadata} (hpc : s.pc = .loop i)
    (h : initMetadata md5 junk s i = (m, mdata)) :
    src.Describes m ∧ (mdata = none → s.mdata = none) ∧ ∀ m, mdata = some m → src.Describes m := by
  unfold initMetadata at h
  by_cases hi : i = 0
  · subst hi
    rw [if_pos rfl] at h
    split at h
    · next m' hm =>
      cases h
      exact ⟨hs.mdata m hm, nofun, fun m' h => Option.some.inj h ▸ hs.mdata m hm⟩
    · next hm =>
      cases h
      have hcreated : ∀ junk, src.Describes (createdMetadata md5 junk s) := by
        intro junk
        constructor
        · show (s.localFile.length : Int) = _
          rw [hs.localFile]
        · exact hs.announced.trans (hs.create hm)
      exact ⟨hcreated junk, nofun, fun m h => Option.some.inj h ▸ hcreated _⟩
  · rw [if_neg hi] at h
    cases h
    exact ⟨hs.parent (by simp [hpc, ParentPc.loaded, hi]), id, hs.mdata⟩

theorem described_step (hs : src.Described t₀ s) (h : (machine md5).step s a = some s') :
    src.Described t₀ s' := by
  have ht := tracked_step hs.toTracked h
  have known (w : Nat) := hs.worker w
  cases step_cases h with
  | @init junk script i m mdata hpc _ _ hm =>
    obtain ⟨hm, hnone, hmdata⟩ := hs.init hpc hm
    exact hs.parentMove ht rfl rfl rfl hs.worker hnone hmdata fun _ => hm
  | save hpc =>
    have hm := (hs.parent (by simp [hpc, ParentPc.loaded])).setInUse 2
    exact hs.parentMove ht rfl rfl rfl hs.worker (by simp) (fun m h => by cases h; exact hm)
      fun _ => hm
  | finish hpc =>
    have hm := (hs.parent (by simp [hpc, ParentPc.loaded])).setInUse 0
    exact hs.parentMove ht rfl rfl rfl hs.worker (by simp) (fun m h => by cases h; exact hm)
      fun _ => hm
  | wait _ _ hm =>
    exact hs.parentMove ht rfl rfl rfl hs.worker id hs.mdata fun _ => hs.mdata _ hm
  | @fork i hpc =>
    exact hs.parentMove ht rfl rfl rfl (forall_update ⟨nofun, nofun⟩ hs.worker) id hs.mdata
      fun _ => hs.parent (by simp [hpc, ParentPc.loaded])
  | sigpipe | forkFails | refuse | waitFails | sigint | exit =>
    exact hs.parentMove ht rfl rfl rfl hs.worker id hs.mdata fun h => by cases h
  | @«open» w script m hw hm =>
    have hdesc := hs.mdata m hm
    refine hs.move ht rfl rfl rfl rfl rfl (Or.inl rfl) rfl ⟨fun _ => hdesc, fun _ => ?_⟩
    have hlength : m.chunks = chunkCount src.content.length src.chunkSize := by
      rw [← hs.count, ← hs.length, State.table_of_some hm]
      rfl
    show getPayLoadArray m.fileSize m.chunkSize m.chunks = _
    rw [hdesc.fileSize, hdesc.chunkSize, hlength]
  | @loadClaim w m hw hm | @loadUpdate w _ m hw hm =>
    have hpay := (known w).payLoadArray (by simp [hw])
    exact hs.move ht rfl rfl rfl rfl rfl (Or.inl rfl) rfl ⟨fun _ => hs.mdata m hm, fun _ => hpay⟩
  | @claim w k m hw _ hm | @update w k m hw hm =>
    have hdesc := (known w).metadata (by simp [hw])
    have hpay := (known w).payLoadArray (by simp [hw])
    subst hm
    exact hs.move ht rfl rfl rfl rfl rfl (Or.inr ⟨_, rfl⟩) rfl
      ⟨fun _ => hdesc.setChunkStatus _ _ _, fun _ => hpay⟩
  | @lockClaim w _ hw | @lockUpdate w _ _ hw | @giveUp w _ hw | @releaseClaim w _ hw
  | @releaseUpdate w _ hw | @overrun w _ _ hw | @send w _ _ _ _ _ hw | @sigpipeSend w _ hw
  | @test w _ hw =>
    have hdesc := (known w).metadata (by simp [hw])
    have hpay := (known w).payLoadArray (by simp [hw])
    exact hs.move ht rfl rfl rfl rfl rfl (Or.inl rfl) rfl ⟨fun _ => hdesc, fun _ => hpay⟩
  | @sigpipeStart w hw =>
    exact hs.move ht rfl rfl rfl rfl rfl (Or.inl rfl) rfl
      ⟨nofun, nofun⟩
  | server =>
    exact ⟨ht, hs.localFile, hs.local_file, hs.announced, hs.count, hs.create, hs.mdata,
      hs.parent, hs.worker⟩

theorem Described.has (hs : src.Described t₀ s) (hw : s.Holds w k) : src.Has k := by
  have hlt := hs.sized.holds w k ((phase_holds _).trans hw)
  have := hs.count
  unfold ChunkedFile.Has
  omega

/-- A worker reads the chunk that it has claimed. -/
theorem Described.readChunk (hs : src.Described t₀ s) (hw : (s.workers w).pc = .send k)
    {br : Int} {data : List UInt8} (h : readChunk s.localFile (s.workers w) k = some (br, data)) :
    br = data.length ∧ data = src.chunk k ∧ src.size k ≤ maxChunkSize := by
  have hk := hs.has (w := w) (k := k) (by simp [State.Holds, hw])
  have hdesc := (hs.worker w).metadata (by simp [hw])
  have hpay := (hs.worker w).payLoadArray (by simp [hw])
  have hpos : ∀ pos, seek pos ((k : Int) * (s.workers w).metadata.chunkSize) =
      k * src.chunkSize := by
    intro pos
    rw [hdesc.chunkSize, seek_mul pos (hk.lt.trans src.length_lt)]
  rw [Upload.readChunk, hpay, getElem?_getPayLoadArray hk, hs.localFile] at h
  simp only [hpos, hk.payLoad_eq src.length_lt, Int.toNat_natCast] at h
  rw [if_neg (by omega)] at h
  split at h
  · next hle =>
    cases h
    refine ⟨rfl, rfl, ?_⟩
    rw [← hk.length_chunk]
    exact hle
  · cases h

/-- Where all is accepted what a worker sends is the message of its chunk. -/
theorem Described.writeAll_sendPieces (hs : src.Described t₀ s)
    (hw : (s.workers w).pc = .send k) {br : Int} {data : List UInt8}
    (hread : Upload.readChunk s.localFile (s.workers w) k = some (br, data))
    {script : List WriteResult} (hfull : allFull (nextPieces s w) script = true) :
    writeAll (sendPieces k br data) script = (src.message k).bytes := by
  obtain ⟨rfl, rfl, -⟩ := hs.readChunk hw hread
  have hpieces : nextPieces s w = sendPieces k (src.chunk k).length (src.chunk k) := by
    simp [nextPieces, hw, hread]
  rw [writeAll_of_full (hpieces ▸ hfull)]
  simp [sendPieces, ChunkMessage.bytes, message]

end Described
end Source

/-! ### What is on its way -/

/-- The number of connections that the parent has turned to. -/
def ParentPc.turned : ParentPc → Option Nat
  | loop i => some i
  | inited i | saved i => some (i + 1)
  | _ => none

/-- The parent is going to turn to connection `w`, if it goes on. -/
def State.Untouched (s : State) (w : Nat) : Prop := ∃ i, s.pc.turned = some i ∧ i ≤ w

/-- No worker has been forked for connection `w`, nor is it about to be. -/
structure State.Idle (s : State) (w : Nat) : Prop where
  worker : (s.workers w).pc = .notForked
  parent : ∀ i, s.pc = .inited i ∨ s.pc = .saved i → w ≠ i

/-- Nothing more will be sent on connection `w`. -/
def State.Over (s : State) (w : Nat) : Prop :=
  ((s.workers w).pc.finished = true ∧ (s.workers w).pc ≠ .notForked) ∨ s.Closed

namespace Source
variable (src : Source)

def Connects (s : State) (w : Nat) (ks : List Nat) : Prop :=
  src.Link (s.Idle w) (s.Over w) (s.workers w).pc.opened s.dir (s.conns w).toServer (s.servers w) ks

/-- The file on the server. -/
def remoteFile (s : State) : List UInt8 := s.dir.content src.remote

/-- Chunk `k` is on its way or in its place. -/
def Reached (s : State) (pending : Nat → List Nat) (k : Nat) : Prop :=
  src.Has k ∧ ((∃ w, k ∈ pending w) ∨ src.Stored (src.remoteFile s) k)

/-- The chunks `pending w` are on their way on connection `w`, for every sound one. -/
structure Linked (sound : Nat → Prop) (t₀ : List ChunkInfo) (s : State)
    (pending : Nat → List Nat) : Prop extends src.Described t₀ s where
  sendable : ∀ w, sound w → ∀ k ∈ pending w, src.Sendable k
  placed : ∀ w, sound w → ∀ k, s.Holds w k → src.announced = src.chunkSize ∨ k = 0
  silent : ∀ w, sound w → s.Untouched w →
    (s.conns w).toServer = [] ∧ (s.servers w).pc = .rcvCmd
  link : ∀ w, sound w → src.Connects s w (pending w)
  noFolder : s.dir.isFolder src.remote = false

section Linked
variable {src} {sound : Nat → Prop} {md5 : Md5} {t₀ : List ChunkInfo} {s s' : State} {a : Act}
  {w k : Nat} {pending : Nat → List Nat}

/-- While a worker goes on the client has not closed its connections. -/
theorem not_closed (hs : Orderly t₀ s) (hw : (s.workers w).pc.finished = false) : ¬ s.Closed := by
  obtain ⟨-, -, -, hlt, -⟩ := hs.active hw
  intro hclosed
  rw [hclosed.2 w hlt] at hw
  cases hw

theorem not_over (hs : Orderly t₀ s) (hw : (s.workers w).pc.finished = false) : ¬ s.Over w := by
  rintro (h | h)
  · rw [hw] at h
    cases h.1
  · exact not_closed hs hw h

theorem not_idle (hw : (s.workers w).pc.finished = false) : ¬ s.Idle w := by
  intro h
  simp [h.worker] at hw

theorem Linked.link_of_pc (hs : src.Linked sound t₀ s pending) {pc : WorkerPc}
    (hw : (s.workers w).pc = pc) (hsound : sound w) :
    src.Link (s.Idle w) (s.Over w) pc.opened s.dir (s.conns w).toServer (s.servers w)
      (pending w) :=
  hw ▸ hs.link w hsound

/-- A step that changes the connection `w` only, and what is on its way there. -/
theorem Linked.at (hs : src.Linked sound t₀ s pending) (hd : src.Described t₀ s') {ks : List Nat}
    (hlink : sound w → src.Connects s' w ks) (hks : sound w → ∀ k ∈ ks, src.Sendable k)
    (hconns : ∀ v, v ≠ w → s'.conns v = s.conns v)
    (hservers : ∀ v, v ≠ w → s'.servers v = s.servers v)
    (hopened : ∀ v, v ≠ w → (s'.workers v).pc.opened = (s.workers v).pc.opened)
    (hidle : ∀ v, v ≠ w → s.Idle v → s'.Idle v) (hover : ∀ v, v ≠ w → s.Over v → s'.Over v)
    (hdir : MhProtoServer.Leaves s.dir s'.dir)
    (huntouched : ∀ v, sound v → s'.Untouched v → v ≠ w ∧ s.Untouched v)
    (hholds : ∀ v, sound v → ∀ k, s'.Holds v k →
      s.Holds v k ∨ src.announced = src.chunkSize ∨ k = 0) :
    src.Linked sound t₀ s' (update pending w ks) where
  toDescribed := hd
  sendable := fun v => by
    by_cases hv : v = w
    · rw [hv, update_self]; exact hks
    · rw [update_of_ne _ _ hv]; exact hs.sendable v
  placed := fun v hsound k hk => (hholds v hsound k hk).elim (hs.placed v hsound k) id
  silent := fun v hsound hv => by
    obtain ⟨hne, hv⟩ := huntouched v hsound hv
    rw [hconns v hne, hservers v hne]
    exact hs.silent v hsound hv
  link := fun v hsound => by
    by_cases hv : v = w
    · subst v
      rw [update_self]
      exact hlink hsound
    · unfold Connects
      rw [update_of_ne _ _ hv, hconns v hv, hservers v hv, hopened v hv]
      exact (hs.link v hsound).imp (hidle v hv) (hover v hv) hdir.hasFile
  noFolder := hdir.isFolder hs.noFolder

/-- A step that changes no connection. -/
theorem Linked.quiet (hs : src.Linked sound t₀ s pending) (hd : src.Described t₀ s')
    (hconns : s'.conns = s.conns) (hservers : s'.servers = s.servers) (hdir : s'.dir = s.dir)
    (hopened : ∀ v, (s'.workers v).pc.opened = (s.workers v).pc.opened)
    (hidle : ∀ v, s.Idle v → s'.Idle v) (hover : ∀ v, s.Over v → s'.Over v)
    (huntouched : ∀ v, s'.Untouched v → s.Untouched v)
    (hholds : ∀ v, sound v → ∀ k, s'.Holds v k →
      s.Holds v k ∨ src.announced = src.chunkSize ∨ k = 0) :
    src.Linked sound t₀ s' pending where
  toDescribed := hd
  sendable := hs.sendable
  placed := fun v hsound k hk => (hholds v hsound k hk).elim (hs.placed v hsound k) id
  silent := fun v hsound hv => by
    rw [hconns, hservers]
    exact hs.silent v hsound (huntouched v hv)
  link := fun v hsound => by
    unfold Connects
    rw [hconns, hservers, hopened v]
    exact (hs.link v hsound).imp (hidle v) (hover v) (by rw [hdir]; exact id)
  noFolder := hdir ▸ hs.noFolder

/-- For an untouched connection no worker has been forked. -/
theorem untouched_notForked (hs : Orderly t₀ s) (hw : s.Untouched w) :
    (s.workers w).pc = .notForked := by
  obtain ⟨i, hi, hle⟩ := hw
  cases hpc : s.pc with
  | loop j =>
    rw [hpc] at hi
    obtain rfl := Option.some.inj hi
    exact hs.forked j (by rw [hpc]; rfl) w hle
  | inited j | saved j =>
    rw [hpc] at hi
    obtain rfl := Option.some.inj hi
    exact hs.forked j (by rw [hpc]; rfl) w (by omega)
  | _ => rw [hpc] at hi; cases hi

section Worker
variable {wk : Worker} (hw : (s.workers w).pc.finished = false)
  (hworkers : s'.workers = update s.workers w wk)
include hw hworkers

theorem idle_worker (hpc : s'.pc = s.pc) (v : Nat) (hv : s.Idle v) : s'.Idle v := by
  have hne : v ≠ w := by
    rintro rfl
    exact not_idle hw hv
  constructor
  · rw [hworkers, update_of_ne _ _ hne]; exact hv.worker
  · rw [hpc]; exact hv.parent

theorem over_worker (hs : Orderly t₀ s) (v : Nat) (hv : s.Over v) : s'.Over v := by
  have hne : v ≠ w := by
    rintro rfl
    exact not_over hs hw hv
  rcases hv with hv | hv
  · refine Or.inl ?_
    rw [hworkers, update_of_ne _ _ hne]
    exact hv
  · exact absurd hv (not_closed hs hw)

omit hworkers in
theorem untouched_worker (hs : Orderly t₀ s) (hpc : s'.pc = s.pc) (v : Nat)
    (hv : s'.Untouched v) : v ≠ w ∧ s.Untouched v := by
  have hv' : s.Untouched v := by
    obtain ⟨i, hi⟩ := hv
    exact ⟨i, hpc ▸ hi⟩
  refine ⟨?_, hv'⟩
  rintro rfl
  simp [untouched_notForked hs hv'] at hw

omit hw in
theorem holds_worker (hwk : sound w → ∀ k, wk.pc.chunk = some k →
      s.Holds w k ∨ src.announced = src.chunkSize ∨ k = 0)
    (v : Nat) (hsound : sound v) (k : Nat) (hv : s'.Holds v k) :
    s.Holds v k ∨ src.announced = src.chunkSize ∨ k = 0 := by
  unfold State.Holds at hv
  rw [hworkers] at hv
  by_cases hvw : v = w
  · subst v
    rw [update_self] at hv
    exact hwk hsound k hv
  · rw [update_of_ne _ _ hvw] at hv
    exact Or.inl hv

/-- A step of a worker that sends nothing. -/
theorem Linked.goesOn (hs : src.Linked sound t₀ s pending) (hd : src.Described t₀ s')
    (hpc : s'.pc = s.pc) (hconns : s'.conns = s.conns) (hservers : s'.servers = s.servers)
    (hdir : s'.dir = s.dir) (hopened : wk.pc.opened = (s.workers w).pc.opened)
    (hwk : sound w → ∀ k, wk.pc.chunk = some k →
      s.Holds w k ∨ src.announced = src.chunkSize ∨ k = 0) :
    src.Linked sound t₀ s' pending := by
  refine hs.quiet hd hconns hservers hdir (fun v => ?_) (idle_worker hw hworkers hpc)
    (over_worker hw hworkers hs.toOrderly)
    (fun v hv => (untouched_worker hw hs.toOrderly hpc v hv).2) (holds_worker hworkers hwk)
  rw [hworkers]
  exact apply_update_of_eq (g := fun wk : Worker => wk.pc.opened) hopened v

/-- A step of a worker that sends something. -/
theorem Linked.sends (hs : src.Linked sound t₀ s pending) (hd : src.Described t₀ s')
    (hpc : s'.pc = s.pc) {bytes : List UInt8} {ks : List Nat}
    (hconns : s'.conns = update s.conns w
      { s.conns w with toServer := (s.conns w).toServer ++ bytes })
    (hservers : s'.servers = s.servers) (hdir : s'.dir = s.dir)
    (hlink : sound w → src.Link (s'.Idle w) (s'.Over w) wk.pc.opened s.dir
      ((s.conns w).toServer ++ bytes) (s.servers w) ks)
    (hks : sound w → ∀ k ∈ ks, src.Sendable k)
    (hwk : sound w → ∀ k, wk.pc.chunk = some k →
      s.Holds w k ∨ src.announced = src.chunkSize ∨ k = 0) :
    src.Linked sound t₀ s' (update pending w ks) := by
  refine hs.at hd ?_ hks (fun v hv => ?_) (fun v _ => by rw [hservers]) (fun v hv => ?_)
    (fun v _ => idle_worker hw hworkers hpc v) (fun v _ => over_worker hw hworkers hs.toOrderly v)
    (by rw [hdir]; exact .same) (fun v _ => untouched_worker hw hs.toOrderly hpc v)
    (holds_worker hworkers hwk)
  · intro hsound
    unfold Connects
    rw [hconns, hservers, hdir, hworkers, update_self, update_self]
    exact hlink hsound
  · rw [hconns, update_of_ne _ _ hv]
  · rw [hworkers, update_of_ne _ _ hv]

end Worker

/-- A step of the parent that sends nothing and forks nobody. -/
theorem Linked.parentMove (hs : src.Linked sound t₀ s pending) (hd : src.Described t₀ s')
    (hworkers : s'.workers = s.workers) (hconns : s'.conns = s.conns)
    (hservers : s'.servers = s.servers) (hdir : s'.dir = s.dir)
    (hpc : s.pc ≠ .ended ∧ s.pc ≠ .aborted)
    (hidle : ∀ i, s'.pc = .inited i ∨ s'.pc = .saved i → s.pc = .inited i ∨ s.pc = .saved i)
    (hturned : ∀ i, s'.pc.turned = some i → s.pc.turned = some i) :
    src.Linked sound t₀ s' pending := by
  refine hs.quiet hd hconns hservers hdir (fun v => by rw [hworkers]) (fun v hv => ?_)
    (fun v hv => ?_) (fun v hv => ?_) (fun v _ k hv => Or.inl ?_)
  · constructor
    · rw [hworkers]; exact hv.worker
    · exact fun i hi => hv.parent i (hidle i hi)
  · rcases hv with hv | hv
    · refine Or.inl ?_
      rw [hworkers]
      exact hv
    · exact absurd hv.1 (by simp [hpc])
  · obtain ⟨i, hi, hle⟩ := hv
    exact ⟨i, hturned i hi, hle⟩
  · unfold State.Holds at hv ⊢
    rw [hworkers] at hv
    exact hv

/-- What was reached stays reached, and a worker that has sent its chunk had sent it before
or its chunk is reached. -/
structure Carries (src : Source) (s : State) (pending : Nat → List Nat) (s' : State)
    (pending' : Nat → List Nat) : Prop where
  reached : ∀ k, src.Reached s pending k → src.Reached s' pending' k
  sent : ∀ w k, (s'.workers w).pc.sent = some k →
    (s.workers w).pc.sent = some k ∨ src.Reached s' pending' k

theorem sent_worker {wk : Worker} (hworkers : s'.workers = update s.workers w wk)
    (hwk : ∀ k, wk.pc.sent = some k → (s.workers w).pc.sent = some k) (v k : Nat)
    (hv : (s'.workers v).pc.sent = some k) : (s.workers v).pc.sent = some k := by
  rw [hworkers] at hv
  by_cases hvw : v = w
  · rw [hvw, update_self] at hv
    rw [hvw]
    exact hwk k hv
  · rw [update_of_ne _ _ hvw] at hv
    exact hv

/-- A step that adds to what is on its way on one connection. -/
theorem carries_more {ks : List Nat} (hdir : s'.dir = s.dir) (hsub : ∀ k ∈ pending w, k ∈ ks)
    (hsent : ∀ v k, (s'.workers v).pc.sent = some k →
      (s.workers v).pc.sent = some k ∨ src.Has k ∧ k ∈ ks) :
    src.Carries s pending s' (update pending w ks) where
  reached := by
    rintro k ⟨hk, ⟨v, hv⟩ | hstored⟩
    · refine ⟨hk, Or.inl ⟨v, ?_⟩⟩
      by_cases hvw : v = w
      · rw [hvw, update_self]; exact hsub k (hvw ▸ hv)
      · rw [update_of_ne _ _ hvw]; exact hv
    · refine ⟨hk, Or.inr ?_⟩
      unfold remoteFile
      rw [hdir]
      exact hstored
  sent := fun v k hv => (hsent v k hv).imp_right fun ⟨hk, hmem⟩ =>
    ⟨hk, Or.inl ⟨w, by rw [update_self]; exact hmem⟩⟩

/-- A step that changes nothing of what is on its way. -/
theorem carries_same (hdir : s'.dir = s.dir)
    (hsent : ∀ v k, (s'.workers v).pc.sent = some k → (s.workers v).pc.sent = some k) :
    src.Carries s pending s' pending where
  reached := by
    rintro k ⟨hk, h⟩
    unfold Reached remoteFile
    rw [hdir]
    exact ⟨hk, h⟩
  sent := fun v k hv => Or.inl (hsent v k hv)

theorem flatten_initPieces (hs : src.Described t₀ s) {m : Metadata} (hm : src.Describes m) :
    (initPieces s m).flatten =
      uploadInit src.local_file.path src.announced src.content.length m.digest := by
  simp [initPieces, uploadInit, hs.local_file, hs.announced, hm.fileSize]

/-- The parent sends UPLOAD_INIT on connection `i`. -/
theorem Linked.init (hs : src.Linked sound t₀ s pending) (hd : src.Described t₀ s') {i : Nat}
    {m : Metadata} (hpc : s.pc = .loop i) (hpc' : s'.pc = .inited i) (hm : src.Describes m)
    (hworkers : s'.workers = s.workers) (hservers : s'.servers = s.servers)
    (hdir : s'.dir = s.dir) {bytes : List UInt8}
    (hconns : s'.conns = update s.conns i
      { s.conns i with toServer := (s.conns i).toServer ++ bytes })
    (hbytes : sound i → bytes = (initPieces s m).flatten) :
    src.Linked sound t₀ s' (update pending i []) := by
  have hi : s.Untouched i := ⟨i, by rw [hpc]; rfl, le_rfl⟩
  have habsent := untouched_notForked hs.toOrderly hi
  refine hs.at hd ?_ (by simp) (fun v hv => by rw [hconns, update_of_ne _ _ hv])
    (fun v _ => by rw [hservers]) (fun v _ => by rw [hworkers]) (fun v hv hidle => ?_)
    (fun v _ hover => ?_) (by rw [hdir]; exact .same) (fun v _ hv => ?_)
    (fun v _ k hv => Or.inl ?_)
  · intro hsound
    obtain ⟨hnil, hrcv⟩ := hs.silent i hsound hi
    unfold Connects
    rw [hconns, hservers, hdir, hworkers, update_self, habsent, hnil, List.nil_append,
      hbytes hsound, flatten_initPieces hs.toDescribed hm]
    exact link_init hrcv
  · constructor
    · rw [hworkers]; exact hidle.worker
    · intro j hj
      rw [hpc'] at hj
      rcases hj with hj | hj
      · exact ParentPc.inited.inj hj ▸ hv
      · cases hj
  · rcases hover with hover | hclosed
    · exact Or.inl (hworkers ▸ hover)
    · exact absurd hclosed.1 (by simp [hpc])
  · obtain ⟨j, hj, hle⟩ := hv
    rw [hpc'] at hj
    obtain rfl := Option.some.inj hj
    exact ⟨by omega, i, by rw [hpc]; rfl, by omega⟩
  · unfold State.Holds at hv ⊢
    rw [hworkers] at hv
    exact hv

/-- The parent forks worker `i`. -/
theorem Linked.fork (hs : src.Linked sound t₀ s pending) (hd : src.Described t₀ s') {i : Nat}
    {wk : Worker} (hpc : s.pc = .saved i) (hpc' : s'.pc = .loop (i + 1)) (hwk : wk.pc = .start)
    (hworkers : s'.workers = update s.workers i wk) (hconns : s'.conns = s.conns)
    (hservers : s'.servers = s.servers) (hdir : s'.dir = s.dir) :
    src.Linked sound t₀ s' pending := by
  have habsent := hs.forked i (by rw [hpc]; rfl) i le_rfl
  refine hs.quiet hd hconns hservers hdir (fun v => ?_) (fun v hv => ?_) (fun v hv => ?_)
    (fun v hv => ?_) (holds_worker hworkers (by simp [hwk]))
  · rw [hworkers]
    exact apply_update_of_eq (g := fun wk : Worker => wk.pc.opened) (by simp [hwk, habsent]) v
  · constructor
    · rw [hworkers, update_of_ne _ _ (hv.parent i (Or.inr hpc))]
      exact hv.worker
    · intro j hj
      simp [hpc'] at hj
  · rcases hv with hv | hclosed
    · refine Or.inl ?_
      rw [hworkers, update_of_ne]
      · exact hv
      · rintro rfl
        exact hv.2 habsent
    · exact absurd hclosed.1 (by simp [hpc])
  · obtain ⟨j, hj, hle⟩ := hv
    rw [hpc'] at hj
    exact ⟨j, by rw [hpc]; exact hj, hle⟩

/-- A server takes a step. -/
theorem Linked.server (hs : src.Linked sound t₀ s pending) (hd : src.Described t₀ s')
    {script : List (List ReadResult)} {junk : Nat → UInt8} {r : Served}
    (hr : (s.servers w).step md5 junk s.dir ⟨(s.conns w).toServer, script, (s.conns w).short⟩ =
      some r)
    (hcalm : sound w → script = [] ∧ (r.wire.short = true → s.Closed))
    (he : s' = { s with
      servers := update s.servers w r.server
      dir := r.dir
      conns := update s.conns w ⟨r.wire.unread, r.wire.short⟩ }) :
    ∃ ks', src.Linked sound t₀ s' (update pending w ks') ∧
      (sound w → src.Wrote s.dir (pending w) s'.dir ks') := by
  have hnext : ∃ ks', sound w → src.Link (s.Idle w) (s.Over w) (s.workers w).pc.opened r.dir
      r.wire.unread r.server ks' ∧ src.Wrote s.dir (pending w) r.dir ks' := by
    by_cases hsound : sound w
    · obtain ⟨rfl, hclosed⟩ := hcalm hsound
      obtain ⟨ks', hks'⟩ := (hs.link w hsound).server (hs.sendable w hsound) hs.noFolder hr
        fun h => Or.inr (hclosed h)
      exact ⟨ks', fun _ => hks'⟩
    · exact ⟨[], fun h => absurd h hsound⟩
  obtain ⟨ks', hks'⟩ := hnext
  subst he
  refine ⟨ks', hs.at hd (fun hsound => ?_) (fun hsound k hk => ?_)
    (fun v hv => update_of_ne _ _ hv) (fun v hv => update_of_ne _ _ hv) (fun _ _ => rfl)
    (fun _ _ h => ⟨h.worker, h.parent⟩) (fun _ _ => id) (MhProtoServer.step_leaves hr)
    (fun v hsound hv => ⟨?_, hv⟩) (fun _ _ _ => Or.inl), fun hsound => (hks' hsound).2⟩
  · unfold Connects
    simp only [update_self]
    exact (hks' hsound).1.imp (fun h => ⟨h.worker, h.parent⟩) id id
  · exact hs.sendable w hsound k ((hks' hsound).2.subset k hk)
  · -- on an untouched connection the server waits
    rintro rfl
    obtain ⟨rfl, hclosed⟩ := hcalm hsound
    obtain ⟨hnil, hrcv⟩ := hs.silent v hsound hv
    rw [hnil, step_of_rcvCmd md5 junk hrcv, rcvCmd_eof] at hr
    obtain rfl := Option.some.inj hr
    obtain ⟨i, hi, -⟩ := hv
    rcases (hclosed rfl).1 with hpc | hpc <;> simp [hpc, ParentPc.turned] at hi

theorem carries_server {ks' : List Nat} (hwrote : src.Wrote s.dir (pending w) s'.dir ks')
    (hworkers : s'.workers = s.workers) :
    src.Carries s pending s' (update pending w ks') where
  reached := by
    rintro k ⟨hk, h⟩
    refine ⟨hk, ?_⟩
    have hhere : k ∈ pending w ∨ src.Stored (src.remoteFile s) k →
        (∃ v, k ∈ update pending w ks' v) ∨ src.Stored (src.remoteFile s') k := fun h =>
      (hwrote.stored hk h).imp_left fun h => ⟨w, by rw [update_self]; exact h⟩
    rcases h with ⟨v, hv⟩ | hstored
    · by_cases hvw : v = w
      · exact hhere (Or.inl (hvw ▸ hv))
      · exact Or.inl ⟨v, by rw [update_of_ne _ _ hvw]; exact hv⟩
    · exact hhere (Or.inr hstored)
  sent := fun v k hv => Or.inl (hworkers ▸ hv)

theorem linked_step (hs : src.Linked sound t₀ s pending) (hcalm : Calm sound s a s')
    (hplaced : ClaimsPlaced sound src.chunkSize s a s') (h : (machine md5).step s a = some s') :
    ∃ pending', src.Linked sound t₀ s' pending' ∧
      ((∀ w, sound w) → src.Carries s pending s' pending') := by
  have hd := described_step hs.toDescribed h
  cases step_cases h with
  | @init junk script i m mdata hpc _ _ hm =>
    have hdesc := (hs.toDescribed.init hpc hm).1
    have hat : s.pc.conn = i := by rw [hpc]; rfl
    refine ⟨_, hs.init hd hpc rfl hdesc rfl rfl rfl rfl fun hsound =>
      writeAll_of_full (hcalm (by rwa [hat])), fun hall => carries_more rfl ?_ fun _ _ => Or.inl⟩
    have hlink := hs.link i (hall i)
    unfold Connects at hlink
    rw [(hs.silent i (hall i) ⟨i, by rw [hpc]; rfl, le_rfl⟩).1] at hlink
    simp [hlink.eq_nil]
  | sigpipe hpc | forkFails hpc | refuse hpc | waitFails hpc | exit hpc =>
    exact ⟨_, hs.parentMove hd rfl rfl rfl rfl (by simp [hpc]) (by simp)
      (by simp [ParentPc.turned]), fun _ => carries_same rfl fun _ _ => id⟩
  | sigint hpc =>
    refine ⟨_, hs.parentMove hd rfl rfl rfl rfl ?_ (by simp) (by simp [ParentPc.turned]),
      fun _ => carries_same rfl fun _ _ => id⟩
    constructor <;> intro he <;> simp [he] at hpc
  | save hpc =>
    exact ⟨_, hs.parentMove hd rfl rfl rfl rfl (by simp [hpc]) (by simp [hpc])
      (by simp [ParentPc.turned, hpc]), fun _ => carries_same rfl fun _ _ => id⟩
  | wait hpc | finish hpc =>
    exact ⟨_, hs.parentMove hd rfl rfl rfl rfl (by simp [hpc]) (by simp)
      (by simp [ParentPc.turned]), fun _ => carries_same rfl fun _ _ => id⟩
  | @fork i hpc =>
    exact ⟨_, hs.fork hd hpc rfl rfl rfl rfl rfl rfl,
      fun _ => carries_same rfl (sent_worker rfl (by simp [forked]))⟩
  | @«open» w script m hw hm =>
    have hfin : (s.workers w).pc.finished = false := by simp [hw]
    refine ⟨_, hs.sends hfin rfl hd rfl rfl rfl rfl (fun hsound => ?_) (hs.sendable w) (by simp),
      fun _ => carries_more rfl (fun _ => id) fun v k hv =>
        Or.inl (sent_worker rfl (by simp) v k hv)⟩
    have hlink := hs.link_of_pc hw hsound
    rw [writeAll_of_full (hcalm hsound)]
    exact hlink.open (not_idle hfin) (not_over hs.toOrderly hfin)
  | @send w k script br data pos hw hread hpos =>
    have hfin : (s.workers w).pc.finished = false := by simp [hw]
    have hholds : s.Holds w k := by simp [State.Holds, hw]
    have hk := hs.toDescribed.has hholds
    have hsize := (hs.toDescribed.readChunk hw hread).2.2
    refine ⟨update pending w (pending w ++ [k]), hs.sends hfin rfl hd rfl rfl rfl rfl
        (fun hsound => ?_) (fun hsound => ?_) (fun _ => ?_),
      fun _ => carries_more rfl (fun j hj => List.mem_append_left _ hj) ?_⟩
    · have hlink := hs.link_of_pc hw hsound
      rw [hs.toDescribed.writeAll_sendPieces hw hread (hcalm hsound)]
      exact hlink.extend (not_over hs.toOrderly hfin) (by simp) body_snoc
    · intro j hj
      rcases List.mem_append.mp hj with hj | hj
      · exact hs.sendable w hsound j hj
      · obtain rfl := List.mem_singleton.mp hj
        exact ⟨hk, hsize, hs.placed w hsound j hholds⟩
    · intro j hj
      obtain rfl : k = j := by simpa using hj
      exact Or.inl hholds
    · -- what is sent now is on its way
      intro v j hv
      by_cases hvw : v = w
      · subst v
        obtain rfl : k = j := by simpa [State.send, State.setWorker] using hv
        exact Or.inr ⟨hk, List.mem_append_right _ (List.mem_singleton_self k)⟩
      · exact Or.inl (by simpa [State.send, State.setWorker, update_of_ne _ _ hvw] using hv)
  | @giveUp w script hw hk =>
    have hfin : (s.workers w).pc.finished = false := by simp [hw]
    refine ⟨_, hs.sends hfin rfl hd rfl rfl rfl rfl (fun hsound => ?_) (hs.sendable w) (by simp),
      fun _ => carries_more rfl (fun _ => id) fun v k hv =>
        Or.inl (sent_worker rfl (by simp) v k hv)⟩
    have hlink := hs.link_of_pc hw hsound
    -- the number that ends the upload
    have hbytes : writeAll [uploadEnd] script = uploadEnd :=
      (writeAll_of_full (hcalm hsound)).trans (List.append_nil _)
    rw [hbytes]
    refine hlink.extend (not_over hs.toOrderly hfin) (fun _ => Or.inl ?_) body_closing
    simp [State.send, State.goto, State.setWorker]
  | @claim w k m hw hk hm =>
    refine ⟨_, hs.goesOn (w := w) (by simp [hw]) rfl hd rfl rfl rfl rfl (by simp [hw]) ?_,
      fun _ => carries_same rfl (sent_worker rfl (by simp))⟩
    -- both sides agree on the place, or the chunk is the first one
    intro hsound j hj
    obtain rfl : k = j := by simpa using hj
    have hplaced : s.chunk_size = src.chunkSize ∨
        (s.workers w).metadata.getNextPendingChunk = some 0 := hplaced hsound
    rw [hs.announced, hk] at hplaced
    exact Or.inr (hplaced.imp_right Option.some.inj)
  | @lockClaim w _ hw | @lockUpdate w k _ hw | @loadClaim w m hw | @loadUpdate w k m hw
  | @releaseClaim w k hw | @releaseUpdate w c hw | @update w k m hw | @sigpipeSend w k hw
  | @overrun w k _ hw | @sigpipeStart w hw =>
    exact ⟨_, hs.goesOn (w := w) (by simp [hw]) rfl hd rfl rfl rfl rfl (by simp [hw])
        (by simp [State.Holds, hw]), fun _ => carries_same rfl (sent_worker rfl (by simp [hw]))⟩
  | @test w c hw =>
    refine ⟨_, hs.goesOn (w := w) (by simp [hw]) rfl hd rfl rfl rfl rfl ?_ ?_,
      fun _ => carries_same rfl (sent_worker rfl ?_)⟩ <;> (dsimp only; split) <;> simp [hw]
  | @server w script junk r hr =>
    have hwire : sound w → script = [] ∧ (r.wire.short = true → s.Closed) := fun hsound => by
      simpa using hcalm hsound
    obtain ⟨ks', hlinked, hwrote⟩ := hs.server hd hr hwire rfl
    exact ⟨_, hlinked, fun hall => carries_server (hwrote (hall w)) rfl⟩

end Linked
end Source
end Mhftp.Upload
