import Mhftp.Server

/-! # A download run

`DownloadFileFromServer`: the parent loads and saves the metadata, forks one worker for
each connection, waits for all of them, and loads and saves again; the workers claim,
fetch and store chunks until none is claimable.  SIGINT makes the parent leave what it
is doing for `KillClient`; it comes at most once here.  A second one, which kills the workers
and resets the chunks without waiting for them, is a step of `processes` in `Semaphore`, and for
the files a kill and a recovery of `DownloadHistory`.  At the other end of each connection is a
server process.

All of them take steps in any order.  A step of a client process is what it does between
two points where another process can see or show something it uses: the .mdata file,
the lock, the kill flag, its socket.  Files can be opened and written, and processes can
be forked unless `forkFails` says otherwise; sockets may fail at any time, which shows in
the results of the reads and, where a request is written, as SIGPIPE.

The .mdata file holds what was saved, which is so up to `tableEntries` chunks.
-/

namespace Mhftp
open Library

namespace Download

/-- Where a worker is. -/
inductive WorkerPc
  | notForked
  | start
  | loop
  | claimLocked
  | claimLoaded
  | claimed (chunkNumber : Nat)
  | request (chunkNumber : Nat)
  | receive (chunkNumber : Nat)
  | store (chunkNumber : Nat) (rcv_buffer : List UInt8)
  | update (chunkNumber : Nat)
  | updateLocked (chunkNumber : Nat)
  | updateLoaded (chunkNumber : Nat)
  | updated (chunkNumber : Int)
  | looping (chunkNumber : Int)
  | exited
  /-- killed before its loop -/
  | killed
  /-- killed at work on a chunk -/
  | dead (chunkNumber : Nat)
  deriving DecidableEq

structure Worker where
  pc : WorkerPc
  metadata : Metadata
  rcv_md5sum : Digest
  sock_error : Bool
  filePos : Nat

/-- Where the parent is; `i` is the number of workers it has forked. -/
inductive ParentPc
  | start
  | loaded
  | forking (i : Nat)
  | finalLoaded
  | ended
  | aborted
  | killWait
  | killLoaded
  /-- after `resetDownloadingChunks`, with the table that it found -/
  | reset (before : List ChunkInfo)
  deriving DecidableEq

/-- A connection: what each side has sent and the other has not read yet, and whether a
`so_read` of the server has got less than it asked for. -/
structure Conn where
  toServer : List UInt8 := []
  toClient : List UInt8 := []
  short : Bool := false

structure State where
  numClient : Nat
  mdata : Metadata
  localFile : List UInt8
  lock : Option Nat
  kill_proc : Bool
  pc : ParentPc
  metadata : Metadata
  workers : Nat → Worker
  conns : Nat → Conn
  servers : Nat → MhProtoServer
  hosts : Nat → Dir

/-- The steps of the parent. -/
inductive ParentAct
  | load | save | fork | forkFails | refuse | wait | finish | sigint | killLoad | killSave

/-- The steps of a worker; `receive` has the results of the reads of each `so_read`. -/
inductive WorkerAct
  | open | lock | load | claim | giveUp | release | request | sigpipe
  | receive (script : List (List ReadResult)) | store | update | test

inductive Act
  | parent (a : ParentAct)
  | worker (w : Nat) (a : WorkerAct)
  | server (w : Nat) (script : List (List ReadResult)) (junk : Nat → UInt8)

/-- The process is not there or has ended. -/
def WorkerPc.finished : WorkerPc → Bool
  | notForked | exited | killed | dead _ => true
  | _ => false

namespace State

/-- Every worker that was forked has ended. -/
def AllFinished (s : State) : Prop := ∀ w < s.numClient, (s.workers w).pc.finished = true

instance (s : State) : Decidable s.AllFinished :=
  inferInstanceAs (Decidable (∀ w < s.numClient, _))

def setWorker (s : State) (w : Nat) (wk : Worker) : State :=
  { s with workers := update s.workers w wk }

/-- Worker `w` goes on at `pc`. -/
def goto (s : State) (w : Nat) (pc : WorkerPc) : State :=
  s.setWorker w { s.workers w with pc }

def setConn (s : State) (w : Nat) (c : Conn) : State := { s with conns := update s.conns w c }

/-- Worker `w` writes to its socket. -/
def send (s : State) (w : Nat) (bytes : List UInt8) : State :=
  s.setConn w { s.conns w with toServer := (s.conns w).toServer ++ bytes }

end State

/-- The worker `fork` makes: it has the parent's memory, and its `rcv_md5sum` is whatever
the memory held. -/
def forked (s : State) (i : Nat) : Worker :=
  ⟨.start, s.metadata, (s.workers i).rcv_md5sum, false, 0⟩

def parentStep (s : State) : ParentAct → Option State
  | .load =>
    match s.pc with
    | .start => some { s with metadata := s.mdata, pc := .loaded }
    | _ => none
  | .save =>
    match s.pc with
    | .loaded =>
      let m := s.metadata.setInUse 1
      some { s with metadata := m, mdata := m, pc := .forking 0 }
    | _ => none
  | .refuse =>
    match s.pc with
    | .forking _ => if nproc < s.numClient then some { s with pc := .aborted } else none
    | _ => none
  | .fork =>
    match s.pc with
    | .forking i =>
      if s.numClient ≤ nproc ∧ i < s.numClient then
        some { s.setWorker i (forked s i) with pc := .forking (i + 1) }
      else none
    | _ => none
  | .forkFails =>
    match s.pc with
    | .forking i =>
      if s.numClient ≤ nproc ∧ i < s.numClient then some { s with pc := .aborted } else none
    | _ => none
  | .wait =>
    match s.pc with
    | .forking i =>
      if i = s.numClient ∧ s.AllFinished then
        some { s with metadata := s.mdata, pc := .finalLoaded }
      else none
    | _ => none
  | .finish =>
    match s.pc with
    | .finalLoaded =>
      let m := s.metadata.setInUse 0
      some { s with metadata := m, mdata := m, pc := .ended }
    | _ => none
  | .sigint =>
    match s.pc with
    | .start | .loaded | .forking _ | .finalLoaded =>
      some { s with kill_proc := true, pc := .killWait }
    | _ => none
  | .killLoad =>
    match s.pc with
    | .killWait =>
      if s.AllFinished then some { s with metadata := s.mdata, pc := .killLoaded } else none
    | _ => none
  | .killSave =>
    match s.pc with
    | .killLoaded =>
      let m := s.metadata.resetDownloadingChunks
      some { s with metadata := m, mdata := m, pc := .reset s.metadata.chunkInfo }
    | _ => none

/-- The three reads of a worker after a request, and where they lead: to `store` with the
data, to `update` with `sock_error` set, or out of the buffer. -/
def receive (s : State) (w chunkNumber : Nat) (script : List (List ReadResult)) : State :=
  let wk := s.workers w
  let md5sum := (Wire.mk (s.conns w).toClient script false).readBuffer wk.rcv_md5sum
  let wk := { wk with rcv_md5sum := md5sum.value }
  let after (pc : WorkerPc) (sock_error : Bool) (wire : Wire) : State :=
    (s.setWorker w { wk with pc, sock_error }).setConn w
      { s.conns w with toClient := wire.unread }
  if md5sum.br ≠ digestSize then after (.update chunkNumber) true md5sum.wire
  else
    let dataSize := md5sum.wire.readInt64 0
    if dataSize.br ≠ 8 then after (.update chunkNumber) true dataSize.wire
    else
      let len := dataSize.value.bmod (2 ^ 32)
      if (maxChunkSize : Int) < len then after (.dead chunkNumber) wk.sock_error dataSize.wire
      else
        let data : Read (List UInt8) :=
          if len < 0 then ⟨-1, [], dataSize.wire⟩ else dataSize.wire.soRead len.toNat
        if data.br ≠ dataSize.value then after (.update chunkNumber) true data.wire
        else after (.store chunkNumber data.value) wk.sock_error data.wire

/-- What the reads after a request leave: a worker at `update` with `sock_error` set, a
killed one, or one at `store` that has read an md5sum, a size and as many bytes. -/
theorem receive_cases (s : State) (w k : Nat) (script : List (List ReadResult)) :
    ∃ wk toClient, receive s w k script =
        (s.setWorker w wk).setConn w { s.conns w with toClient } ∧
      wk.metadata = (s.workers w).metadata ∧ wk.filePos = (s.workers w).filePos ∧
      ((wk.pc = .update k ∧ wk.sock_error = true) ∨ wk.pc = .dead k ∨
        ∃ data size, wk.pc = .store k data ∧ wk.sock_error = (s.workers w).sock_error ∧
          size.length = 8 ∧
          (s.conns w).toClient = wk.rcv_md5sum.bytes ++ (size ++ (data ++ toClient)) ∧
          (decodeInt size = data.length ∨ decodeInt size = -1 ∧ data = [])) := by
  unfold receive
  dsimp only
  split
  · exact ⟨_, _, rfl, rfl, rfl, Or.inl ⟨rfl, rfl⟩⟩
  · next hmd5 =>
    have hmd5 := Wire.readBuffer_of_br (not_not.mp hmd5)
    split
    · exact ⟨_, _, rfl, rfl, rfl, Or.inl ⟨rfl, rfl⟩⟩
    · next hsize =>
      obtain ⟨size, hlen, hvalue, hsize⟩ := Wire.readInt64_of_br (not_not.mp hsize)
      split
      · exact ⟨_, _, rfl, rfl, rfl, Or.inr (Or.inl rfl)⟩
      · split
        · -- a negative length: `read` fails, which looks like success for a size of -1
          split
          · exact ⟨_, _, rfl, rfl, rfl, Or.inl ⟨rfl, rfl⟩⟩
          · next hdata =>
            refine ⟨_, _, rfl, rfl, rfl, Or.inr (Or.inr ⟨_, size, rfl, rfl, hlen, ?_, ?_⟩)⟩
            · rw [List.nil_append, ← hsize]; exact hmd5
            · rw [← hvalue]; exact Or.inr ⟨(not_not.mp hdata).symm, rfl⟩
        · next hneg =>
          split
          · exact ⟨_, _, rfl, rfl, rfl, Or.inl ⟨rfl, rfl⟩⟩
          · next hdata =>
            have hdata := not_not.mp hdata
            obtain ⟨hlo, hhi⟩ := Wire.soRead_br_bounds (w := ((Wire.mk (s.conns w).toClient script
              false).readBuffer (s.workers w).rcv_md5sum).wire.readInt64 0 |>.wire)
              (n := (((Wire.mk (s.conns w).toClient script false).readBuffer
                (s.workers w).rcv_md5sum).wire.readInt64 0 |>.value.bmod (2 ^ 32)).toNat)
            rw [hdata, hvalue] at hlo hhi
            have hbmod : (decodeInt size).bmod (2 ^ 32) = decodeInt size := by
              have := Int.bmod_lt (x := decodeInt size) (m := 2 ^ 32) (by decide)
              rw [hvalue] at hneg
              exact Int.bmod_eq_of_le_mul_two (by omega) (by omega)
            rw [hvalue, hbmod] at hneg hdata ⊢
            have hbr := Wire.soRead_of_br (hdata.trans (Int.toNat_of_nonneg (by omega)).symm)
            refine ⟨_, _, rfl, rfl, rfl, Or.inr (Or.inr ⟨_, size, rfl, rfl, hlen, ?_, Or.inl ?_⟩)⟩
            · rw [← hbr.2, ← hsize]; exact hmd5
            · rw [hbr.1]; omega

def workerStep (s : State) (w : Nat) : WorkerAct → Option State
  | .open =>
    match (s.workers w).pc with
    | .start =>
      some ((s.setWorker w { s.workers w with pc := .loop, metadata := s.mdata }).send w
        (1 :: s.mdata.header.writeMetadataHeader))
    | _ => none
  | .lock =>
    match s.lock, (s.workers w).pc with
    | none, .loop => some { s.goto w .claimLocked with lock := some w }
    | none, .update k => some { s.goto w (.updateLocked k) with lock := some w }
    | _, _ => none
  | .load =>
    match (s.workers w).pc with
    | .claimLocked =>
      some (s.setWorker w { s.workers w with pc := .claimLoaded, metadata := s.mdata })
    | .updateLocked k =>
      some (s.setWorker w { s.workers w with pc := .updateLoaded k, metadata := s.mdata })
    | _ => none
  | .claim =>
    match (s.workers w).pc with
    | .claimLoaded =>
      match (s.workers w).metadata.getNextPendingChunk with
      | some k =>
        let m := (s.workers w).metadata.setChunkStatus k .chDownload none
        some { s.setWorker w { s.workers w with pc := .claimed k, metadata := m } with
          mdata := m.updateControlData s.mdata }
      | none => none
    | _ => none
  | .giveUp =>
    match (s.workers w).pc with
    | .claimLoaded =>
      match (s.workers w).metadata.getNextPendingChunk with
      | some _ => none
      | none => some { s.goto w .exited with lock := none }
    | _ => none
  | .release =>
    match (s.workers w).pc with
    | .claimed k => some { s.goto w (.request k) with lock := none }
    | .updated c => some { s.goto w (.looping c) with lock := none }
    | _ => none
  | .request =>
    match (s.workers w).pc with
    | .request k => some ((s.goto w (.receive k)).send w (requestChunk k).bytes)
    | _ => none
  | .sigpipe =>
    match (s.workers w).pc with
    | .start => some (s.goto w .killed)
    | .request k => some (s.goto w (.dead k))
    | _ => none
  | .receive script =>
    match (s.workers w).pc with
    | .receive k => some (receive s w k script)
    | _ => none
  | .store =>
    match (s.workers w).pc with
    | .store k data =>
      let pos := seek (s.workers w).filePos (k * (s.workers w).metadata.chunkSize)
      some { s.setWorker w { s.workers w with pc := .update k, filePos := pos + data.length } with
        localFile := pwrite s.localFile pos data }
    | _ => none
  | .update =>
    match (s.workers w).pc with
    | .updateLoaded k =>
      let wk := s.workers w
      let m := wk.metadata.setChunkStatus k (if wk.sock_error then .chError else .chOk)
        (some wk.rcv_md5sum)
      let chunkNumber : Int := if wk.sock_error then -1 else k
      some { s.setWorker w { wk with pc := .updated chunkNumber, metadata := m } with
        mdata := m.updateControlData s.mdata }
    | _ => none
  | .test =>
    match (s.workers w).pc with
    | .looping c =>
      some (s.goto w (if c ≠ -1 ∧ s.kill_proc = false then .loop else .exited))
    | _ => none

/-- A step of the server process at the other end of connection `w`. -/
def serverStep (md5 : Md5) (s : State) (w : Nat) (script : List (List ReadResult))
    (junk : Nat → UInt8) : Option State :=
  ((s.servers w).step md5 junk (s.hosts w)
      ⟨(s.conns w).toServer, script, (s.conns w).short⟩).map fun r =>
    { s with
      servers := update s.servers w r.server
      hosts := update s.hosts w r.dir
      conns := update s.conns w
        ⟨r.wire.unread, (s.conns w).toClient ++ r.out, r.wire.short⟩ }

def step (md5 : Md5) (s : State) : Act → Option State
  | .parent a => parentStep s a
  | .worker w a => workerStep s w a
  | .server w script junk => serverStep md5 s w script junk

def machine (md5 : Md5) : Machine State Act := ⟨step md5⟩

/-- The steps one by one: what each needs and what it does. -/
inductive Step (md5 : Md5) (s : State) : Act → State → Prop
  | load : s.pc = .start → Step md5 s (.parent .load) { s with metadata := s.mdata, pc := .loaded }
  | save : s.pc = .loaded → Step md5 s (.parent .save)
      { s with
        metadata := s.metadata.setInUse 1
        mdata := s.metadata.setInUse 1
        pc := .forking 0 }
  | refuse {i} : s.pc = .forking i → nproc < s.numClient →
      Step md5 s (.parent .refuse) { s with pc := .aborted }
  | fork {i} : s.pc = .forking i → s.numClient ≤ nproc → i < s.numClient →
      Step md5 s (.parent .fork) { s.setWorker i (forked s i) with pc := .forking (i + 1) }
  | forkFails {i} : s.pc = .forking i → s.numClient ≤ nproc → i < s.numClient →
      Step md5 s (.parent .forkFails) { s with pc := .aborted }
  | wait : s.pc = .forking s.numClient → s.AllFinished →
      Step md5 s (.parent .wait) { s with metadata := s.mdata, pc := .finalLoaded }
  | finish : s.pc = .finalLoaded → Step md5 s (.parent .finish)
      { s with
        metadata := s.metadata.setInUse 0
        mdata := s.metadata.setInUse 0
        pc := .ended }
  | sigint : (s.pc = .start ∨ s.pc = .loaded ∨ (∃ i, s.pc = .forking i) ∨ s.pc = .finalLoaded) →
      Step md5 s (.parent .sigint) { s with kill_proc := true, pc := .killWait }
  | killLoad : s.pc = .killWait → s.AllFinished →
      Step md5 s (.parent .killLoad) { s with metadata := s.mdata, pc := .killLoaded }
  | killSave : s.pc = .killLoaded → Step md5 s (.parent .killSave)
      { s with
        metadata := s.metadata.resetDownloadingChunks
        mdata := s.metadata.resetDownloadingChunks
        pc := .reset s.metadata.chunkInfo }
  | open {w} : (s.workers w).pc = .start → Step md5 s (.worker w .open)
      ((s.setWorker w { s.workers w with pc := .loop, metadata := s.mdata }).send w
        (1 :: s.mdata.header.writeMetadataHeader))
  | lockClaim {w} : s.lock = none → (s.workers w).pc = .loop →
      Step md5 s (.worker w .lock) { s.goto w .claimLocked with lock := some w }
  | lockUpdate {w k} : s.lock = none → (s.workers w).pc = .update k →
      Step md5 s (.worker w .lock) { s.goto w (.updateLocked k) with lock := some w }
  | loadClaim {w} : (s.workers w).pc = .claimLocked → Step md5 s (.worker w .load)
      (s.setWorker w { s.workers w with pc := .claimLoaded, metadata := s.mdata })
  | loadUpdate {w k} : (s.workers w).pc = .updateLocked k → Step md5 s (.worker w .load)
      (s.setWorker w { s.workers w with pc := .updateLoaded k, metadata := s.mdata })
  | claim {w k m} : (s.workers w).pc = .claimLoaded →
      (s.workers w).metadata.getNextPendingChunk = some k →
      m = (s.workers w).metadata.setChunkStatus k .chDownload none →
      Step md5 s (.worker w .claim)
        { s.setWorker w { s.workers w with pc := .claimed k, metadata := m } with
          mdata := m.updateControlData s.mdata }
  | giveUp {w} : (s.workers w).pc = .claimLoaded →
      (s.workers w).metadata.getNextPendingChunk = none →
      Step md5 s (.worker w .giveUp) { s.goto w .exited with lock := none }
  | releaseClaim {w k} : (s.workers w).pc = .claimed k →
      Step md5 s (.worker w .release) { s.goto w (.request k) with lock := none }
  | releaseUpdate {w c} : (s.workers w).pc = .updated c →
      Step md5 s (.worker w .release) { s.goto w (.looping c) with lock := none }
  | request {w k} : (s.workers w).pc = .request k →
      Step md5 s (.worker w .request) ((s.goto w (.receive k)).send w (requestChunk k).bytes)
  | sigpipeStart {w} : (s.workers w).pc = .start →
      Step md5 s (.worker w .sigpipe) (s.goto w .killed)
  | sigpipeRequest {w k} : (s.workers w).pc = .request k →
      Step md5 s (.worker w .sigpipe) (s.goto w (.dead k))
  | receive {w k script} : (s.workers w).pc = .receive k →
      Step md5 s (.worker w (.receive script)) (receive s w k script)
  | store {w k data pos} : (s.workers w).pc = .store k data →
      pos = seek (s.workers w).filePos (k * (s.workers w).metadata.chunkSize) →
      Step md5 s (.worker w .store)
        { s.setWorker w
            { s.workers w with pc := .update k, filePos := pos + data.length } with
          localFile := pwrite s.localFile pos data }
  | update {w k m} : (s.workers w).pc = .updateLoaded k →
      m = (s.workers w).metadata.setChunkStatus k
        (if (s.workers w).sock_error then .chError else .chOk) (some (s.workers w).rcv_md5sum) →
      Step md5 s (.worker w .update)
        { s.setWorker w
            { s.workers w with
              pc := .updated (if (s.workers w).sock_error then -1 else k), metadata := m } with
          mdata := m.updateControlData s.mdata }
  | test {w c} : (s.workers w).pc = .looping c → Step md5 s (.worker w .test)
      (s.goto w (if c ≠ -1 ∧ s.kill_proc = false then .loop else .exited))
  | server {w script junk r} : (s.servers w).step md5 junk (s.hosts w)
        ⟨(s.conns w).toServer, script, (s.conns w).short⟩ = some r →
      Step md5 s (.server w script junk)
        { s with
          servers := update s.servers w r.server
          hosts := update s.hosts w r.dir
          conns := update s.conns w
            ⟨r.wire.unread, (s.conns w).toClient ++ r.out, r.wire.short⟩ }

theorem step_cases {md5 : Md5} {s s' : State} {a : Act} (h : (machine md5).step s a = some s') :
    Step md5 s a s' := by
  cases a with
  | parent a =>
    cases a <;> simp only [machine, step, parentStep] at h
    case sigint =>
      split at h <;> cases h <;> exact .sigint (by simp [*])
    case killLoad =>
      split at h
      · split at h <;> cases h
        exact .killLoad ‹_› ‹_›
      · cases h
    case wait =>
      split at h
      · next i hi =>
        split at h
        · next hw => cases h; exact .wait (hw.1 ▸ hi) hw.2
        · cases h
      · cases h
    case fork =>
      split at h
      · split at h
        · next hw => cases h; exact .fork ‹_› hw.1 hw.2
        · cases h
      · cases h
    case forkFails =>
      split at h
      · split at h
        · next hw => cases h; exact .forkFails ‹_› hw.1 hw.2
        · cases h
      · cases h
    case refuse =>
      split at h
      · split at h <;> cases h
        exact .refuse ‹_› ‹_›
      · cases h
    all_goals
      split at h <;> cases h
      constructor; assumption
  | worker w a =>
    cases a <;> simp only [machine, step, workerStep] at h
    case lock =>
      split at h <;> cases h
      · exact .lockClaim ‹_› ‹_›
      · exact .lockUpdate ‹_› ‹_›
    case load =>
      split at h <;> cases h
      · exact .loadClaim ‹_›
      · exact .loadUpdate ‹_›
    case claim =>
      split at h
      · split at h <;> cases h
        exact .claim ‹_› ‹_› rfl
      · cases h
    case giveUp =>
      split at h
      · split at h <;> cases h
        exact .giveUp ‹_› ‹_›
      · cases h
    case release =>
      split at h <;> cases h
      · exact .releaseClaim ‹_›
      · exact .releaseUpdate ‹_›
    case sigpipe =>
      split at h <;> cases h
      · exact .sigpipeStart ‹_›
      · exact .sigpipeRequest ‹_›
    case store =>
      split at h <;> cases h
      exact .store ‹_› rfl
    case update =>
      split at h <;> cases h
      exact .update ‹_› rfl
    all_goals
      split at h <;> cases h
      constructor; assumption
  | server w script junk =>
    simp only [machine, step, serverStep, Option.map_eq_some_iff] at h
    obtain ⟨r, hr, rfl⟩ := h
    exact .server hr

/-- A run begins: the parent is about to load the metadata, nobody has the lock, no
worker has been forked and nothing has been sent. -/
structure Initial (s : State) : Prop where
  pc : s.pc = .start
  lock : s.lock = none
  kill_proc : s.kill_proc = false
  workers : ∀ w, (s.workers w).pc = .notForked
  conns : ∀ w, s.conns w = {}
  servers : ∀ w, (s.servers w).pc = .rcvCmd

/-- The start of a run of `numClient` workers, where every host has the same files and
memory that nobody has written holds the .mdata file or zeros. -/
def State.begin (numClient : Nat) (mdata : Metadata) (localFile : List UInt8) (dir : Dir) :
    State where
  numClient
  mdata
  localFile
  lock := none
  kill_proc := false
  pc := .start
  metadata := mdata
  workers := fun _ => ⟨.notForked, mdata, Buffer.zero _, false, 0⟩
  conns := fun _ => {}
  servers := fun _ => .create mdata.header [] (Buffer.zero _)
  hosts := fun _ => dir

theorem initial_begin (numClient : Nat) (mdata : Metadata) (localFile : List UInt8) (dir : Dir) :
    Initial (.begin numClient mdata localFile dir) :=
  ⟨rfl, rfl, rfl, fun _ => rfl, fun _ => rfl, fun _ => rfl⟩

end Download
end Mhftp
