import Mhftp.DownloadIntegrity

/-! # Download runs one after the other

Runs use one .mdata file and one local file in turn.  A run ends by itself or by
`KillClient`, or all its processes are killed, which may cut short what they are
writing; after that `resetDownloadingChunks` with force makes the .mdata file ready for
the next run.  Between runs everything but the two files is lost.

`integrity`: through all of this a chunk that is CH_OK is in the local file, as long as no
server answers on a connection where one of its `so_read`s came up short.
-/

namespace Mhftp.Download
open Library

inductive HistoryPhase
  | running | killed | recovered
  deriving DecidableEq

structure History where
  run : State
  phase : HistoryPhase

/-- What the next run finds in the memory of its processes, and its hosts. -/
structure NextRun where
  numClient : Nat
  metadata : Metadata
  rcv_md5sum : Nat → Digest
  servers : Nat → Header × Path × Digest
  hosts : Nat → Dir

inductive HistoryAct
  | step (a : Act)
  /-- all processes are killed: worker `w` has written `written w` bytes of its chunk, and
  `KillClient` the entries of `saved` -/
  | kill (written : Nat → Nat) (saved : Nat → Bool)
  | recover
  | again (next : NextRun)

/-- The local file after every worker has written a part of its chunk. -/
def cutStores (s : State) (written : Nat → Nat) : List UInt8 :=
  (List.range s.numClient).foldl (fun localFile w =>
    match (s.workers w).pc with
    | .store k data =>
      pwrite localFile (seek (s.workers w).filePos (k * (s.workers w).metadata.chunkSize))
        (data.take (written w))
    | _ => localFile) s.localFile

/-- The .mdata file after `KillClient` has saved a part of the table. -/
def cutSave (s : State) (saved : Nat → Bool) : Metadata :=
  match s.pc with
  | .killLoaded =>
    { s.mdata with
      chunkInfo := s.mdata.chunkInfo.mapIdx fun k c =>
        if saved k then Metadata.resetDownloading c else c }
  | _ => s.mdata

/-- The run has ended, and the next one may begin. -/
def Over (h : History) : Bool :=
  match h.phase, h.run.pc with
  | .recovered, _ | .running, .ended | .running, .reset _ => true
  | .running, .aborted => h.run.AllFinished
  | _, _ => false

def NextRun.begin (n : NextRun) (s : State) : State where
  numClient := n.numClient
  mdata := s.mdata
  localFile := s.localFile
  lock := none
  kill_proc := false
  pc := .start
  metadata := n.metadata
  workers := fun w => ⟨.notForked, n.metadata, n.rcv_md5sum w, false, 0⟩
  conns := fun _ => {}
  servers := fun w => .create (n.servers w).1 (n.servers w).2.1 (n.servers w).2.2
  hosts := n.hosts

def historyStep (md5 : Md5) (h : History) : HistoryAct → Option History
  | .step a =>
    match h.phase with
    | .running => (step md5 h.run a).map fun run => { h with run }
    | _ => none
  | .kill written saved =>
    match h.phase with
    | .running => some
        { run := { h.run with
            localFile := cutStores h.run written
            mdata := cutSave h.run saved }
          phase := .killed }
    | _ => none
  | .recover =>
    match h.phase with
    | .killed => some
        { run := { h.run with mdata := h.run.mdata.resetDownloadingChunks }
          phase := .recovered }
    | _ => none
  | .again next => if Over h then some ⟨next.begin h.run, .running⟩ else none

def history (md5 : Md5) : Machine History HistoryAct := ⟨historyStep md5⟩

/-- Every host has the file, which does not change, and the servers answer on intact
connections only. -/
def Regular (src : Source) (h : History) (a : HistoryAct) (h' : History) : Prop :=
  src.Hosted h'.run ∧
    match a with
    | .step a => AnswersIntact h.run a h'.run
    | _ => True

instance (src : Source) (h h' : History) : (a : HistoryAct) → Decidable (Regular src h a h')
  | .step a => inferInstanceAs (Decidable (_ ∧ AnswersIntact h.run a h'.run))
  | .kill _ _ | .recover | .again _ => inferInstanceAs (Decidable (_ ∧ True))

section Integrity
variable {src : Source} {md5 : Md5}

theorem initial_next (n : NextRun) (s : State) : Initial (n.begin s) :=
  ⟨rfl, rfl, rfl, fun _ => rfl, fun _ => rfl, fun _ => rfl⟩

/-- What processes have written when they are killed belongs where it is. -/
theorem good_cutStores {s : State} (hs : src.Faithful md5 s) {m : Metadata}
    (hm : src.Good md5 s.localFile m) (written : Nat → Nat) :
    src.Good md5 (cutStores s written) m := by
  unfold cutStores
  suffices h : ∀ (ws : List Nat) (localFile : List UInt8), src.Good md5 localFile m →
      src.Good md5 (ws.foldl _ localFile) m from h _ _ hm
  intro ws
  induction ws with
  | nil => exact fun _ h => h
  | cons w ws ih =>
    intro localFile h
    refine ih _ ?_
    dsimp only
    split
    · next k data hw =>
      obtain ⟨rfl, -⟩ := (hs.worker w).store k data hw
      have hgood := (hs.worker w).good (by rw [hw]; rfl)
      have hk : src.Has k := (hs.worker w).chunk k (by rw [hw]; rfl)
      rw [hgood.chunkSize, seek_mul _ (hk.lt.trans src.length_lt)]
      exact h.pwrite
    · exact h

theorem good_cutSave {s : State} (hs : src.Faithful md5 s) (saved : Nat → Bool) :
    src.Good md5 s.localFile (cutSave s saved) := by
  unfold cutSave
  split
  · refine hs.file.reset (u := s.mdata.inUse) (List.length_mapIdx) fun k c hc => ?_
    rw [List.getElem?_mapIdx] at hc
    obtain ⟨c₀, hc₀, rfl⟩ := Option.map_eq_some_iff.mp hc
    cases saved k
    · exact Or.inl hc₀
    · exact Or.inr ⟨c₀, hc₀, rfl⟩
  · exact hs.file

/-- The invariant of a history. -/
structure Source.Kept (src : Source) (md5 : Md5) (h : History) : Prop where
  file : src.Good md5 h.run.localFile h.run.mdata
  running : h.phase = .running → src.Faithful md5 h.run
  hosted : src.Hosted h.run

theorem kept_step {h h' : History} {a : HistoryAct} (hs : src.Kept md5 h)
    (ha : Regular src h a h') (hstep : (history md5).step h a = some h') : src.Kept md5 h' := by
  obtain ⟨hhosted, ha⟩ := ha
  cases a with
  | step a =>
    simp only [history, historyStep] at hstep
    split at hstep
    · next hphase =>
      obtain ⟨s', hs', rfl⟩ := Option.map_eq_some_iff.mp hstep
      have hfaithful := faithful_step (hs.running hphase) hs.hosted ha hs'
      exact ⟨hfaithful.file, fun _ => hfaithful, hhosted⟩
    · cases hstep
  | kill written saved =>
    simp only [history, historyStep] at hstep
    split at hstep
    · next hphase =>
      cases hstep
      have hfaithful := hs.running hphase
      exact ⟨good_cutStores hfaithful (good_cutSave hfaithful saved) written,
        fun h => (by cases h), hhosted⟩
    · cases hstep
  | recover =>
    simp only [history, historyStep] at hstep
    split at hstep
    · cases hstep
      exact ⟨hs.file.resetDownloadingChunks, fun h => (by cases h), hhosted⟩
    · cases hstep
  | again next =>
    simp only [history, historyStep] at hstep
    split at hstep
    · cases hstep
      exact ⟨hs.file, fun _ => (initial_next next h.run).faithful hs.file, hhosted⟩
    · cases hstep

/-- A table of pending chunks is good. -/
theorem good_fresh (src : Source) (md5 : Md5) (localFile : List UInt8) (inUse : UInt8) :
    src.Good md5 localFile ((src.header md5).fresh inUse) where
  header := Header.fresh_header src.count_nonneg
  ok := fun k c hc hok => by
    rw [status_of_mem_initControlData (List.mem_of_getElem? hc)] at hok
    cases hok

/-- A history begins: a run that finds a fresh table. -/
structure Begins (src : Source) (md5 : Md5) (h : History) : Prop where
  phase : h.phase = .running
  initial : Initial h.run
  mdata : ∃ inUse, h.run.mdata = (src.header md5).fresh inUse
  hosted : src.Hosted h.run

/-- **Integrity.**  In every state of every history that begins with a fresh table, each
chunk that is CH_OK is in the local file and has its md5sum, and when all chunks are CH_OK
the local file begins with the file, provided that no server ever answers on a connection
where one of its `so_read`s came up short. -/
theorem integrity (src : Source) (md5 : Md5) {h₀ h : History} {as : List HistoryAct}
    (hbegins : Begins src md5 h₀) (hregular : (history md5).Along (Regular src) h₀ as)
    (hr : (history md5).run h₀ as = some h) :
    (∀ k (c : ChunkInfo), h.run.mdata.chunkInfo[k]? = some c → c.status = .chOk →
      pread h.run.localFile (k * src.chunkSize) (src.size k) = src.chunk k ∧
        c.md5sum = md5 (src.chunk k)) ∧
      ((∀ c ∈ h.run.mdata.chunkInfo, c.status = .chOk) →
        h.run.localFile.take src.content.length = src.content) := by
  obtain ⟨inUse, hmdata⟩ := hbegins.mdata
  have hgood : src.Good md5 h₀.run.localFile h₀.run.mdata := hmdata ▸ good_fresh src md5 _ inUse
  have hkept : src.Kept md5 h := Machine.run_invariant (fun _ _ _ => kept_step)
    ⟨hgood, fun _ => hbegins.initial.faithful hgood, hbegins.hosted⟩ hregular hr
  exact ⟨hkept.file.ok, hkept.file.take_eq⟩

end Integrity

/-- A file of two chunks of one byte. -/
def sampleSource : Source where
  content := [1, 2]
  chunkSize := 1
  fileFull := sampleName
  one_le := by decide
  le_max := by rw [maxChunkSize_eq]; decide
  requests := by decide

/-- The start of a history of one worker. -/
def sampleHistory : History where
  run := .begin 1 ((sampleSource.header fun _ => Buffer.zero _).fresh 0) [] fun p =>
    if p = [97] then some (.file [1, 2]) else none
  phase := .running

theorem begins_sampleHistory : Begins sampleSource (fun _ => Buffer.zero _) sampleHistory where
  phase := rfl
  initial := initial_begin _ _ _ _
  mdata := ⟨0, rfl⟩
  hosted := by decide +kernel

/-- The worker is forked and sends its header. -/
def sampleOpen : List Act :=
  [.parent .load, .parent .save, .parent .fork, .worker 0 .open, .server 0 [] (fun _ => 0)]

/-- The worker fetches a chunk; the server reads its request with these results. -/
def sampleFetch (script : List (List ReadResult)) : List Act :=
  [.worker 0 .lock, .worker 0 .load, .worker 0 .claim, .worker 0 .release, .worker 0 .request,
    .server 0 script (fun _ => 0), .worker 0 (.receive []), .worker 0 .store, .worker 0 .lock,
    .worker 0 .load, .worker 0 .update, .worker 0 .release, .worker 0 .test]

/-- The worker fetches one chunk, everybody is killed while it is at the second one, and
after a recovery another run begins. -/
def sampleKill : List HistoryAct :=
  (sampleOpen ++ sampleFetch [] ++ (sampleFetch []).take 7).map .step ++
    [.kill (fun _ => 0) fun _ => false, .recover,
      .again ⟨1, sampleHistory.run.mdata, fun _ => Buffer.zero _,
        fun _ => (sampleSource.header fun _ => Buffer.zero _, [], Buffer.zero _),
        sampleHistory.run.hosts⟩]

theorem integrity_sample : ∃ h, (history fun _ => Buffer.zero _).run sampleHistory sampleKill =
    some h ∧ h.run.mdata.chunkInfo.map ChunkInfo.status = [.chOk, .chPending] ∧
    pread h.run.localFile 0 1 = [1] := by
  obtain ⟨h, hh, hend⟩ : ∃ h, (history fun _ => Buffer.zero _).run sampleHistory sampleKill =
      some h ∧ h.run.mdata.chunkInfo =
        [⟨Buffer.zero _, 1, .chOk⟩, ⟨Buffer.zero _, 1, .chPending⟩] :=
    Machine.exists_run (by decide +kernel)
  have hintegrity := (integrity sampleSource _ begins_sampleHistory (by decide +kernel) hh).1
  refine ⟨h, hh, by rw [hend]; rfl, ?_⟩
  exact (hintegrity 0 ⟨Buffer.zero _, 1, .chOk⟩ (by rw [hend]; rfl) rfl).1

/-- The server gets one byte of the first request, and answers; the rest of the request
makes it take the second one for the first. -/
theorem integrity_fails : ∃ h, (history fun _ => Buffer.zero _).run sampleHistory
      ((sampleOpen ++ sampleFetch [[.count 1, .eagain]] ++ sampleFetch []).map .step) = some h ∧
    (history fun _ => Buffer.zero _).Along (fun _ _ h' => sampleSource.Hosted h'.run) sampleHistory
      ((sampleOpen ++ sampleFetch [[.count 1, .eagain]] ++ sampleFetch []).map .step) ∧
    h.run.mdata.chunkInfo.map ChunkInfo.status = [.chOk, .chOk] ∧ h.run.localFile = [1, 1] ∧
    ¬ ((∀ c ∈ h.run.mdata.chunkInfo, c.status = .chOk) →
      h.run.localFile.take sampleSource.content.length = sampleSource.content) := by
  obtain ⟨h, hh, hstatus, hlocal⟩ : ∃ h, (history fun _ => Buffer.zero _).run sampleHistory
      ((sampleOpen ++ sampleFetch [[.count 1, .eagain]] ++ sampleFetch []).map .step) = some h ∧
        h.run.mdata.chunkInfo.map ChunkInfo.status = [.chOk, .chOk] ∧ h.run.localFile = [1, 1] :=
    Machine.exists_run (by decide +kernel)
  refine ⟨h, hh, by decide +kernel, hstatus, hlocal, fun himp => ?_⟩
  have htake := himp fun c hc => by
    have hmem : c.status ∈ h.run.mdata.chunkInfo.map ChunkInfo.status :=
      List.mem_map.mpr ⟨c, hc, rfl⟩
    rw [hstatus] at hmem
    simpa using hmem
  rw [hlocal] at htake
  revert htake
  decide

end Mhftp.Download
