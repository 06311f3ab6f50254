import Mhftp.UploadWire

/-! # An upload run

`UploadFileToServer`: for each connection in turn the parent sends UPLOAD_INIT, saves its
metadata and forks a worker; the workers claim, read and send chunks until none is
claimable.  When all of them have ended the parent loads and saves the metadata once more.
On the first connection the metadata comes from the .mdata file, if there is one, and is
created else.  The servers at the other ends share one directory.

The .mdata file holds what was saved, which is so up to `tableEntries` chunks.  `meta_file_`,
which only a download sets, is NULL in `KillClient`, and SIGINT comes at most once.

Steps are as in a download run.  What a `write` to a socket returns is an input of the
step that calls it; bytes that it does not accept are lost.  Nobody reads what the servers
send, so that is left out.
-/

namespace Mhftp
open Library

/-! ### Writing to a socket -/

/-- What a `write` returns: how many bytes it has accepted, or -1. -/
inductive WriteResult
  | count (n : Nat)
  | error
  deriving DecidableEq

namespace WriteResult

/-- The bytes that are on their way. -/
def accepted (bytes : List UInt8) : WriteResult → List UInt8
  | count n => bytes.take n
  | error => []

def full (bytes : List UInt8) : WriteResult → Bool
  | count n => bytes.length ≤ n
  | error => false

end WriteResult

/-- One `write` for each piece; those without a result return their full count. -/
def writeAll : List (List UInt8) → List WriteResult → List UInt8
  | [], _ => []
  | p :: ps, [] => p ++ writeAll ps []
  | p :: ps, r :: rs => r.accepted p ++ writeAll ps rs

/-- Each of the writes returns its full count. -/
def allFull : List (List UInt8) → List WriteResult → Bool
  | [], _ | _ :: _, [] => true
  | p :: ps, r :: rs => r.full p && allFull ps rs

theorem writeAll_of_full {ps : List (List UInt8)} {rs : List WriteResult}
    (h : allFull ps rs = true) : writeAll ps rs = ps.flatten := by
  induction ps generalizing rs with
  | nil => rfl
  | cons p ps ih =>
    cases rs with
    | nil =>
      have hnil : allFull ps [] = true := by cases ps <;> rfl
      rw [writeAll, ih hnil, List.flatten_cons]
    | cons r rs =>
      obtain ⟨hp, hps⟩ := Bool.and_eq_true_iff.mp h
      rw [writeAll, ih hps, List.flatten_cons]
      cases r with
      | count n => rw [WriteResult.accepted, List.take_of_length_le (of_decide_eq_true hp)]
      | error => cases hp

/-- The name of a file, which fits into the arrays of the code. -/
structure FileName where
  path : Path
  nul : 0 ∉ path
  length : path.length < fnameSize
  named : namesNoFile (absoluteFile path) = false

namespace Upload

/-- Where a worker is. -/
inductive WorkerPc
  | notForked
  | start
  | loop
  | claimLocked
  | claimLoaded
  | claimed (chunkNumber : Nat)
  | send (chunkNumber : Nat)
  | update (chunkNumber : Nat)
  | updateLocked (chunkNumber : Nat)
  | updateLoaded (chunkNumber : Nat)
  | updated (chunkNumber : Int)
  | looping (chunkNumber : Int)
  | exited
  /-- killed before its loop -/
  | killed
  /-- killed at work on a chunk -/
  | dead (chunkNumber : Nat)
  deriving DecidableEq

structure Worker where
  pc : WorkerPc
  metadata : Metadata
  payLoadArray : List Int
  snd_md5sum : Digest
  sock_error : Bool
  filePos : Nat

/-- Where the parent is; `i` is the connection of the turn it is in. -/
inductive ParentPc
  | loop (i : Nat)
  | inited (i : Nat)
  | saved (i : Nat)
  | finalLoaded
  | ended
  | aborted
  | killWait
  deriving DecidableEq

/-- A connection: what the server has not read yet, and whether a `so_read` of the server
has got less than it asked for. -/
structure Conn where
  toServer : List UInt8 := []
  short : Bool := false

structure State where
  numClient : Nat
  chunk_size : Int
  local_file : FileName
  localFile : List UInt8
  mdata : Option Metadata
  lock : Option Nat
  kill_proc : Bool
  pc : ParentPc
  metadata : Metadata
  workers : Nat → Worker
  conns : Nat → Conn
  servers : Nat → MhProtoServer
  dir : Dir

/-- The steps of the parent; `init` has the results of its writes. -/
inductive ParentAct
  | init (junk : Nat → UInt8) (script : List WriteResult)
  | sigpipe | save | fork | forkFails | refuse | wait | finish | sigint | exit

/-- The steps of a worker, those that write with the results of their writes. -/
inductive WorkerAct
  | open (script : List WriteResult)
  | lock | load | claim
  | giveUp (script : List WriteResult)
  | release
  | send (script : List WriteResult)
  | sigpipe | update | test

inductive Act
  | parent (a : ParentAct)
  | worker (w : Nat) (a : WorkerAct)
  | server (w : Nat) (script : List (List ReadResult)) (junk : Nat → UInt8)

/-- The process is not there or has ended. -/
@[simp] def WorkerPc.finished : WorkerPc → Bool
  | notForked | exited | killed | dead _ => true
  | _ => false

namespace State

/-- Every worker that was forked has ended. -/
def AllFinished (s : State) : Prop := ∀ w < s.numClient, (s.workers w).pc.finished = true

instance (s : State) : Decidable s.AllFinished :=
  inferInstanceAs (Decidable (∀ w < s.numClient, _))

def setWorker (s : State) (w : Nat) (wk : Worker) : State :=
  { s with workers := update s.workers w wk }

/-- Worker `w` goes on at `pc`. -/
def goto (s : State) (w : Nat) (pc : WorkerPc) : State :=
  s.setWorker w { s.workers w with pc }

/-- The client's end of connection `w` is written to. -/
def send (s : State) (w : Nat) (bytes : List UInt8) : State :=
  { s with
    conns := update s.conns w { s.conns w with toServer := (s.conns w).toServer ++ bytes } }

end State

/-! ### The parent -/

/-- The writes of `InitUploadOnServer`. -/
def initPieces (s : State) (m : Metadata) : List (List UInt8) :=
  [[4], encodeInt 2 s.local_file.path.length, s.local_file.path, encodeInt 8 s.chunk_size,
    encodeInt 8 m.fileSize, m.digest.bytes]

/-- The metadata `create` makes for the local file, in the parent's memory. -/
def createdMetadata (md5 : Md5) (junk : Nat → UInt8) (s : State) : Metadata :=
  (MhProtoServer.metadataFor md5 junk s.local_file.path s.localFile s.chunk_size).fresh 0

/-- The .mdata file `StoreMetadata` writes, where the file name is padded with zeros. -/
def storedMetadata (md5 : Md5) (s : State) : Metadata :=
  createdMetadata md5 (fun _ => 0) s

/-- The metadata of `InitUploadOnServer`, in memory and in the .mdata file: on the first
connection the parent loads or creates it. -/
def initMetadata (md5 : Md5) (junk : Nat → UInt8) (s : State) (i : Nat) :
    Metadata × Option Metadata :=
  if i = 0 then
    match s.mdata with
    | some m => (m, some m)
    | none => (createdMetadata md5 junk s, some (storedMetadata md5 s))
  else (s.metadata, s.mdata)

def initUploadOnServer (md5 : Md5) (junk : Nat → UInt8) (s : State) (i : Nat)
    (script : List WriteResult) : State :=
  let m := initMetadata md5 junk s i
  { s.send i (writeAll (initPieces s m.1) script) with metadata := m.1, mdata := m.2 }

/-- The worker `fork` makes: it has the parent's memory, and its `snd_md5sum` is whatever
the memory held. -/
def forked (s : State) (i : Nat) : Worker :=
  ⟨.start, s.metadata, [], (s.workers i).snd_md5sum, false, 0⟩

def parentStep (md5 : Md5) (s : State) : ParentAct → Option State
  | .init junk script =>
    match s.pc with
    | .loop i =>
      if s.numClient ≤ nproc ∧ i < s.numClient then
        some { initUploadOnServer md5 junk s i script with pc := .inited i }
      else none
    | _ => none
  | .sigpipe =>
    match s.pc with
    | .loop i =>
      if s.numClient ≤ nproc ∧ i < s.numClient then some { s with pc := .aborted } else none
    | _ => none
  | .save =>
    match s.pc with
    | .inited i =>
      let m := s.metadata.setInUse 2
      some { s with metadata := m, mdata := some m, pc := .saved i }
    | _ => none
  | .fork =>
    match s.pc with
    | .saved i => some { s.setWorker i (forked s i) with pc := .loop (i + 1) }
    | _ => none
  | .forkFails =>
    match s.pc with
    | .saved _ => some { s with pc := .aborted }
    | _ => none
  | .refuse =>
    match s.pc with
    | .loop _ => if nproc < s.numClient then some { s with pc := .aborted } else none
    | _ => none
  | .wait =>
    match s.pc with
    | .loop i =>
      if i = s.numClient ∧ s.AllFinished then
        match s.mdata with
        | some m =>
          -- without a connection nobody has set `fileMetadata_`
          if i = 0 then some { s with pc := .aborted }
          else some { s with metadata := m, pc := .finalLoaded }
        | none => some { s with pc := .aborted }
      else none
    | _ => none
  | .finish =>
    match s.pc with
    | .finalLoaded =>
      let m := s.metadata.setInUse 0
      some { s with metadata := m, mdata := some m, pc := .ended }
    | _ => none
  | .sigint =>
    match s.pc with
    | .loop _ | .inited _ | .saved _ | .finalLoaded =>
      some { s with kill_proc := true, pc := .killWait }
    | _ => none
  | .exit =>
    match s.pc with
    | .killWait => if s.AllFinished then some { s with pc := .aborted } else none
    | _ => none

/-! ### The workers -/

/-- The `read` of a chunk of the local file: what it returns, and the bytes.  `none` where
the worker leaves `payLoadArray_` or its buffer. -/
def readChunk (localFile : List UInt8) (wk : Worker) (chunkNumber : Nat) :
    Option (Int × List UInt8) :=
  match wk.payLoadArray[chunkNumber]? with
  | none => none
  | some n =>
    -- a negative length makes `read` fail
    if n < 0 then some (-1, [])
    else
      let data := pread localFile (seek wk.filePos (chunkNumber * wk.metadata.chunkSize)) n.toNat
      if data.length ≤ maxChunkSize then some (data.length, data) else none

/-- The writes of a chunk.  Where `br` is -1 the last one fails. -/
def sendPieces (chunkNumber : Nat) (br : Int) (data : List UInt8) : List (List UInt8) :=
  [encodeInt 8 chunkNumber, encodeInt 8 br, data]

/-- The writes of the chunk that worker `w` is about to send. -/
def nextPieces (s : State) (w : Nat) : List (List UInt8) :=
  match (s.workers w).pc with
  | .send k =>
    match readChunk s.localFile (s.workers w) k with
    | some (br, data) => sendPieces k br data
    | none => []
  | _ => []

def workerStep (s : State) (w : Nat) : WorkerAct → Option State
  | .open script =>
    match s.mdata, (s.workers w).pc with
    | some m, .start =>
      some ((s.setWorker w { s.workers w with
        pc := .loop
        metadata := m
        payLoadArray := getPayLoadArray m.fileSize m.chunkSize m.chunks }).send w
          (writeAll [[3]] script))
    | _, _ => none
  | .lock =>
    match s.lock, (s.workers w).pc with
    | none, .loop => some { s.goto w .claimLocked with lock := some w }
    | none, .update k => some { s.goto w (.updateLocked k) with lock := some w }
    | _, _ => none
  | .load =>
    match s.mdata, (s.workers w).pc with
    | some m, .claimLocked =>
      some (s.setWorker w { s.workers w with pc := .claimLoaded, metadata := m })
    | some m, .updateLocked k =>
      some (s.setWorker w { s.workers w with pc := .updateLoaded k, metadata := m })
    | _, _ => none
  | .claim =>
    match (s.workers w).pc with
    | .claimLoaded =>
      match (s.workers w).metadata.getNextPendingChunk with
      | some k =>
        let m := (s.workers w).metadata.setChunkStatus k .chUpload none
        some { s.setWorker w { s.workers w with pc := .claimed k, metadata := m } with
          mdata := s.mdata.map m.updateControlData }
      | none => none
    | _ => none
  | .giveUp script =>
    match (s.workers w).pc with
    | .claimLoaded =>
      match (s.workers w).metadata.getNextPendingChunk with
      | some _ => none
      | none => some { (s.goto w .exited).send w (writeAll [uploadEnd] script) with lock := none }
    | _ => none
  | .release =>
    match (s.workers w).pc with
    | .claimed k => some { s.goto w (.send k) with lock := none }
    | .updated c => some { s.goto w (.looping c) with lock := none }
    | _ => none
  | .send script =>
    match (s.workers w).pc with
    | .send k =>
      match readChunk s.localFile (s.workers w) k with
      | none => some (s.goto w (.dead k))
      | some (br, data) =>
        let pos := seek (s.workers w).filePos (k * (s.workers w).metadata.chunkSize)
        some ((s.setWorker w { s.workers w with
          pc := .update k
          filePos := pos + data.length }).send w (writeAll (sendPieces k br data) script))
    | _ => none
  | .sigpipe =>
    match (s.workers w).pc with
    | .start => some (s.goto w .killed)
    | .send k => some (s.goto w (.dead k))
    | _ => none
  | .update =>
    match (s.workers w).pc with
    | .updateLoaded k =>
      let wk := s.workers w
      let m := wk.metadata.setChunkStatus k (if wk.sock_error then .chError else .chOk)
        (some wk.snd_md5sum)
      let chunkNumber : Int := if wk.sock_error then -1 else k
      some { s.setWorker w { wk with pc := .updated chunkNumber, metadata := m } with
        mdata := s.mdata.map m.updateControlData }
    | _ => none
  | .test =>
    match (s.workers w).pc with
    | .looping c =>
      some (s.goto w (if c ≠ -1 ∧ s.kill_proc = false then .loop else .exited))
    | _ => none

/-- A step of the server process at the other end of connection `w`. -/
def serverStep (md5 : Md5) (s : State) (w : Nat) (script : List (List ReadResult))
    (junk : Nat → UInt8) : Option State :=
  ((s.servers w).step md5 junk s.dir ⟨(s.conns w).toServer, script, (s.conns w).short⟩).map
    fun r => { s with
      servers := update s.servers w r.server
      dir := r.dir
      conns := update s.conns w ⟨r.wire.unread, r.wire.short⟩ }

def step (md5 : Md5) (s : State) : Act → Option State
  | .parent a => parentStep md5 s a
  | .worker w a => workerStep s w a
  | .server w script junk => serverStep md5 s w script junk

def machine (md5 : Md5) : Machine State Act := ⟨step md5⟩

/-- The steps one by one: what each needs and what it does. -/
inductive Step (md5 : Md5) (s : State) : Act → State → Prop
  | init {junk script i m mdata} : s.pc = .loop i → s.numClient ≤ nproc → i < s.numClient →
      initMetadata md5 junk s i = (m, mdata) →
      Step md5 s (.parent (.init junk script))
        { s.send i (writeAll (initPieces s m) script) with
          metadata := m
          mdata
          pc := .inited i }
  | sigpipe {i} : s.pc = .loop i → i < s.numClient →
      Step md5 s (.parent .sigpipe) { s with pc := .aborted }
  | save {i} : s.pc = .inited i → Step md5 s (.parent .save)
      { s with
        metadata := s.metadata.setInUse 2
        mdata := some (s.metadata.setInUse 2)
        pc := .saved i }
  | fork {i} : s.pc = .saved i →
      Step md5 s (.parent .fork) { s.setWorker i (forked s i) with pc := .loop (i + 1) }
  | forkFails {i} : s.pc = .saved i →
      Step md5 s (.parent .forkFails) { s with pc := .aborted }
  | refuse {i} : s.pc = .loop i → nproc < s.numClient →
      Step md5 s (.parent .refuse) { s with pc := .aborted }
  | wait {m} : s.pc = .loop s.numClient → s.AllFinished → s.mdata = some m → 1 ≤ s.numClient →
      Step md5 s (.parent .wait) { s with metadata := m, pc := .finalLoaded }
  | waitFails : s.pc = .loop s.numClient → s.AllFinished → (s.mdata = none ∨ s.numClient = 0) →
      Step md5 s (.parent .wait) { s with pc := .aborted }
  | finish : s.pc = .finalLoaded → Step md5 s (.parent .finish)
      { s with
        metadata := s.metadata.setInUse 0
        mdata := some (s.metadata.setInUse 0)
        pc := .ended }
  | sigint : ((∃ i, s.pc = .loop i ∨ s.pc = .inited i ∨ s.pc = .saved i) ∨
        s.pc = .finalLoaded) →
      Step md5 s (.parent .sigint) { s with kill_proc := true, pc := .killWait }
  | exit : s.pc = .killWait → s.AllFinished →
      Step md5 s (.parent .exit) { s with pc := .aborted }
  | open {w script m} : (s.workers w).pc = .start → s.mdata = some m →
      Step md5 s (.worker w (.open script))
        ((s.setWorker w { s.workers w with
          pc := .loop
          metadata := m
          payLoadArray := getPayLoadArray m.fileSize m.chunkSize m.chunks }).send w
            (writeAll [[3]] script))
  | lockClaim {w} : s.lock = none → (s.workers w).pc = .loop →
      Step md5 s (.worker w .lock) { s.goto w .claimLocked with lock := some w }
  | lockUpdate {w k} : s.lock = none → (s.workers w).pc = .update k →
      Step md5 s (.worker w .lock) { s.goto w (.updateLocked k) with lock := some w }
  | loadClaim {w m} : (s.workers w).pc = .claimLocked → s.mdata = some m →
      Step md5 s (.worker w .load)
        (s.setWorker w { s.workers w with pc := .claimLoaded, metadata := m })
  | loadUpdate {w k m} : (s.workers w).pc = .updateLocked k → s.mdata = some m →
      Step md5 s (.worker w .load)
        (s.setWorker w { s.workers w with pc := .updateLoaded k, metadata := m })
  | claim {w k m} : (s.workers w).pc = .claimLoaded →
      (s.workers w).metadata.getNextPendingChunk = some k →
      m = (s.workers w).metadata.setChunkStatus k .chUpload none →
      Step md5 s (.worker w .claim)
        { s.setWorker w { s.workers w with pc := .claimed k, metadata := m } with
          mdata := s.mdata.map m.updateControlData }
  | giveUp {w script} : (s.workers w).pc = .claimLoaded →
      (s.workers w).metadata.getNextPendingChunk = none →
      Step md5 s (.worker w (.giveUp script))
        { (s.goto w .exited).send w (writeAll [uploadEnd] script) with lock := none }
  | releaseClaim {w k} : (s.workers w).pc = .claimed k →
      Step md5 s (.worker w .release) { s.goto w (.send k) with lock := none }
  | releaseUpdate {w c} : (s.workers w).pc = .updated c →
      Step md5 s (.worker w .release) { s.goto w (.looping c) with lock := none }
  | overrun {w k script} : (s.workers w).pc = .send k →
      readChunk s.localFile (s.workers w) k = none →
      Step md5 s (.worker w (.send script)) (s.goto w (.dead k))
  | send {w k script br data pos} : (s.workers w).pc = .send k →
      readChunk s.localFile (s.workers w) k = some (br, data) →
      pos = seek (s.workers w).filePos (k * (s.workers w).metadata.chunkSize) →
      Step md5 s (.worker w (.send script))
        ((s.setWorker w { s.workers w with
          pc := .update k
          filePos := pos + data.length }).send w (writeAll (sendPieces k br data) script))
  | sigpipeStart {w} : (s.workers w).pc = .start →
      Step md5 s (.worker w .sigpipe) (s.goto w .killed)
  | sigpipeSend {w k} : (s.workers w).pc = .send k →
      Step md5 s (.worker w .sigpipe) (s.goto w (.dead k))
  | update {w k m} : (s.workers w).pc = .updateLoaded k →
      m = (s.workers w).metadata.setChunkStatus k
        (if (s.workers w).sock_error then .chError else .chOk) (some (s.workers w).snd_md5sum) →
      Step md5 s (.worker w .update)
        { s.setWorker w
            { s.workers w with
              pc := .updated (if (s.workers w).sock_error then -1 else k), metadata := m } with
          mdata := s.mdata.map m.updateControlData }
  | test {w c} : (s.workers w).pc = .looping c → Step md5 s (.worker w .test)
      (s.goto w (if c ≠ -1 ∧ s.kill_proc = false then .loop else .exited))
  | server {w script junk r} : (s.servers w).step md5 junk s.dir
        ⟨(s.conns w).toServer, script, (s.conns w).short⟩ = some r →
      Step md5 s (.server w script junk)
        { s with
          servers := update s.servers w r.server
          dir := r.dir
          conns := update s.conns w ⟨r.wire.unread, r.wire.short⟩ }

theorem step_cases {md5 : Md5} {s s' : State} {a : Act} (h : (machine md5).step s a = some s') :
    Step md5 s a s' := by
  cases a with
  | parent a =>
    cases a <;> simp only [machine, step, parentStep] at h
    case init junk script =>
      split at h
      · next i hpc =>
        split at h
        · next hi => cases h; exact .init hpc hi.1 hi.2 rfl
        · cases h
      · cases h
    case sigpipe =>
      split at h
      · split at h
        · next hi => cases h; exact .sigpipe ‹_› hi.2
        · cases h
      · cases h
    case refuse | exit =>
      split at h
      · split at h <;> cases h
        constructor <;> assumption
      · cases h
    case wait =>
      split at h
      · next i hi =>
        split at h
        · next hw =>
          obtain ⟨rfl, hw⟩ := hw
          split at h
          · split at h <;> cases h
            · next hzero => exact .waitFails hi hw (.inr hzero)
            · next hone => exact .wait hi hw ‹_› (Nat.one_le_iff_ne_zero.mpr hone)
          · cases h
            exact .waitFails hi hw (.inl ‹_›)
        · cases h
      · cases h
    case sigint =>
      split at h <;> cases h <;> exact .sigint (by simp [*])
    all_goals
      split at h <;> cases h
      constructor; assumption
  | worker w a =>
    cases a <;> simp only [machine, step, workerStep] at h
    case «open» script =>
      split at h <;> cases h
      exact .open ‹_› ‹_›
    case lock =>
      split at h <;> cases h
      · exact .lockClaim ‹_› ‹_›
      · exact .lockUpdate ‹_› ‹_›
    case load =>
      split at h <;> cases h
      · exact .loadClaim ‹_› ‹_›
      · exact .loadUpdate ‹_› ‹_›
    case claim =>
      split at h
      · split at h <;> cases h
        exact .claim ‹_› ‹_› rfl
      · cases h
    case giveUp =>
      split at h
      · split at h <;> cases h
        exact .giveUp ‹_› ‹_›
      · cases h
    case release =>
      split at h <;> cases h
      · exact .releaseClaim ‹_›
      · exact .releaseUpdate ‹_›
    case send =>
      split at h
      · split at h <;> cases h
        · exact .overrun ‹_› ‹_›
        · exact .send ‹_› ‹_› rfl
      · cases h
    case sigpipe =>
      split at h <;> cases h
      · exact .sigpipeStart ‹_›
      · exact .sigpipeSend ‹_›
    case update =>
      split at h <;> cases h
      exact .update ‹_› rfl
    case test =>
      split at h <;> cases h
      exact .test ‹_›
  | server w script junk =>
    simp only [machine, step, serverStep, Option.map_eq_some_iff] at h
    obtain ⟨r, hr, rfl⟩ := h
    exact .server hr

/-- A run begins: the parent is about to turn to the first connection, nobody has the
lock, no worker has been forked and nothing has been sent. -/
structure Initial (s : State) : Prop where
  pc : s.pc = .loop 0
  lock : s.lock = none
  kill_proc : s.kill_proc = false
  workers : ∀ w, (s.workers w).pc = .notForked
  conns : ∀ w, s.conns w = {}
  servers : ∀ w, (s.servers w).pc = .rcvCmd

/-- `chunk_size_`, which the constructor of `MhProtoClient` sets. -/
def chunkSizeMember (chunk_size : Int) : Int :=
  if chunk_size = 0 then defaultChunkSize else chunk_size

/-- The start of a run of `numClient` workers, where memory that nobody has written holds
zeros. -/
def State.begin (numClient : Nat) (chunk_size : Int) (local_file : FileName)
    (localFile : List UInt8) (mdata : Option Metadata) (dir : Dir) : State where
  numClient
  chunk_size := chunkSizeMember chunk_size
  local_file
  localFile
  mdata
  lock := none
  kill_proc := false
  pc := .loop 0
  metadata := ⟨Buffer.zero _, 0, Buffer.zero _, 0, [], 0⟩
  workers := fun _ => ⟨.notForked, ⟨Buffer.zero _, 0, Buffer.zero _, 0, [], 0⟩, [], Buffer.zero _,
    false, 0⟩
  conns := fun _ => {}
  servers := fun _ => .create ⟨Buffer.zero _, 0, Buffer.zero _, 0, 0⟩ [] (Buffer.zero _)
  dir

theorem initial_begin (numClient : Nat) (chunk_size : Int) (local_file : FileName)
    (localFile : List UInt8) (mdata : Option Metadata) (dir : Dir) :
    Initial (.begin numClient chunk_size local_file localFile mdata dir) :=
  ⟨rfl, rfl, rfl, fun _ => rfl, fun _ => rfl, fun _ => rfl⟩

end Upload
end Mhftp
