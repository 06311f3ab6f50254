import Mhftp.UploadBlocking

/-! # Uploads one after the other

mhclient uploads one file to one server again and again, with one .mdata file.  A run comes to
its normal end, or SIGINT stops it, or a fork fails; then the workers finish their chunks, and
the servers read what has been sent.  What a run leaves CH_OK the server has, and every other
chunk is left to be claimed (`Source.Ready`), so the next run may send the rest
(`stopped_upload_succeeds`).
-/

namespace Mhftp.Upload
open Library

/-- What the next run finds in the memory of its processes. -/
structure NextRun where
  numClient : Nat
  metadata : Metadata
  snd_md5sum : Nat → Digest
  servers : Nat → Header × Path × Digest

/-- It uploads the same file with the same chunk size. -/
def NextRun.begin (n : NextRun) (s : State) : State where
  numClient := n.numClient
  chunk_size := s.chunk_size
  local_file := s.local_file
  localFile := s.localFile
  mdata := s.mdata
  lock := none
  kill_proc := false
  pc := .loop 0
  metadata := n.metadata
  workers := fun w => ⟨.notForked, n.metadata, [], n.snd_md5sum w, false, 0⟩
  conns := fun _ => {}
  servers := fun w => .create (n.servers w).1 (n.servers w).2.1 (n.servers w).2.2
  dir := s.dir

/-- A run without SIGPIPE, over connections that do not fail, to a state in which mhclient and
its workers have ended and the servers have read what was sent. -/
structure Stops (md5 : Md5) (s₀ : State) (as : List Act) (s : State) : Prop where
  run : (machine md5).run s₀ as = some s
  blocking : (machine md5).Along Blocking s₀ as
  unbroken : ∀ a ∈ as, a.unbroken = true
  closed : s.Closed
  read : ∀ w < s.numClient, (s.conns w).toServer = []

/-- The starts of runs, of which `s₀` is the first. -/
inductive Starts (md5 : Md5) (s₀ : State) : State → Prop
  | first : Starts md5 s₀ s₀
  | again {s₁ s as} (n : NextRun) : Starts md5 s₀ s₁ → Stops md5 s₁ as s →
      Starts md5 s₀ (n.begin s)

namespace Source
variable (src : Source)

/-- A run may begin: every chunk is to be claimed, or CH_OK and on the server. -/
structure Ready (s : State) : Prop extends src.Begins s where
  entry : ∀ k c, s.table[k]? = some c →
    Metadata.claimable c = true ∨ c.status = .chOk ∧ src.Stored (src.remoteFile s) k
  placed : src.announced = src.chunkSize

/-- **The invariant of a run that may be stopped.** -/
structure Stoppable (t₀ : List ChunkInfo) (s : State) (pending : Nat → List Nat) : Prop
    extends src.Delivering t₀ s pending where
  stale : ClaimTable.StaleValid rules t₀ (view s)
  accounted : ClaimTable.Accounted rules t₀ (fun _ => True) (view s)
  unharmed : ∀ w, (s.workers w).pc.harmed = false

section Run
variable {src} {md5 : Md5} {t₀ : List ChunkInfo} {s₀ s s' : State} {a : Act} {as : List Act}
  {pending : Nat → List Nat}

theorem initial_next (n : NextRun) (s : State) : Initial (n.begin s) :=
  ⟨rfl, rfl, rfl, fun _ => rfl, fun _ => rfl, fun _ => rfl⟩

theorem Ready.completing (hs : src.Ready s) : src.Completing s.table s fun _ => [] :=
  hs.toBegins.completing fun k c hc hno => by
    rcases hs.entry k c hc with hfree | ⟨-, hstored⟩
    · cases hno.symm.trans hfree
    · exact hstored

theorem Ready.stoppable (hs : src.Ready s) : src.Stoppable s.table s fun _ => [] where
  toDelivering := hs.completing.toDelivering
  stale := hs.completing.stale
  accounted := hs.view ▸ ClaimTable.accounted_initial _
  unharmed := fun w => by
    rw [hs.workers w]
    rfl

theorem Ready.claimsPlaced (hs : src.Ready s) (as : List Act) :
    (machine md5).Along (ClaimsPlaced (fun _ => True) src.chunkSize) s as :=
  claimsPlaced_of_announced as (hs.announced.trans hs.placed)

theorem stoppable_step (hs : src.Stoppable t₀ s pending) (hsize : src.chunkSize ≤ maxChunkSize)
    (hblocking : Blocking s a s') (hplaced : ClaimsPlaced (fun _ => True) src.chunkSize s a s')
    (ha : a.unbroken = true) (h : (machine md5).step s a = some s') :
    ∃ pending', src.Stoppable t₀ s' pending' := by
  have hfollows := view_step hs.toOrderly h
  have hplaced' : ClaimsPlaced (fun _ => True) src.chunkSize s a.whole s' := by
    cases a <;> exact hplaced
  obtain ⟨pending', hdelivering⟩ := delivering_step hs.toDelivering hblocking.calm hplaced'
    (step_whole hblocking.pieces h)
  refine ⟨pending', hdelivering, ?_, ?_, harmed_step hs.toDescribed hsize ha h hs.unharmed⟩
  · exact hfollows.preserves hs.stale fun b hb hstep =>
      ClaimTable.staleValid_restores hs.stale (hs.toOrderly.label_restores h hb) hstep
  · exact hfollows.preserves hs.accounted fun b hb hstep =>
      ClaimTable.accounted_restores hs.accounted (hs.toOrderly.label_restores h hb)
        (fun _ _ _ _ _ _ => trivial) hstep

theorem Ready.stoppable_run (hs : src.Ready s₀) (hsize : src.chunkSize ≤ maxChunkSize)
    (hstops : Stops md5 s₀ as s) : ∃ pending, src.Stoppable s₀.table s pending := by
  have hunbroken : (machine md5).Along (fun _ a _ => a.unbroken = true) s₀ as :=
    Machine.along_of_at_step fun bs a cs _ _ he _ _ => hstops.unbroken a (by simp [he])
  refine Machine.run_invariant (I := fun s => ∃ pending, src.Stoppable s₀.table s pending) ?_
    ⟨_, hs.stoppable⟩ ((hstops.blocking.and (hs.claimsPlaced as)).and hunbroken) hstops.run
  rintro u a u' ⟨pending, hu⟩ ⟨⟨hblocking, hplaced⟩, ha⟩ h
  exact stoppable_step hu hsize hblocking hplaced ha h

/-- Nobody has a chunk any more when all workers have ended. -/
theorem Stoppable.holds_none (hs : src.Stoppable t₀ s pending) (hall : s.AllFinished) (w : Nat) :
    ((view s).phase w).holds = none := by
  have hunharmed := hs.unharmed w
  have hfinished : (s.workers w).pc.finished = true := by
    by_cases hw : w < s.numClient
    · exact hall w hw
    · rw [hs.outside w (not_lt.mp hw)]
      rfl
  show (phase (s.workers w)).holds = none
  rw [phase_holds]
  cases hpc : (s.workers w).pc with
  | notForked | exited => rfl
  | killed | dead =>
    rw [hpc] at hunharmed
    cases hunharmed
  | _ =>
    rw [hpc] at hfinished
    cases hfinished

/-- **After a run the next one may begin.** -/
theorem Ready.again (hs : src.Ready s₀) (hsize : src.chunkSize ≤ maxChunkSize)
    (hstops : Stops md5 s₀ as s) (n : NextRun) : src.Ready (n.begin s) := by
  obtain ⟨pending, hend⟩ := hs.stoppable_run hsize hstops
  have hnil := hend.pending_eq_nil hstops.read
  -- nothing is on its way any more
  have stored {k : Nat} (hk : src.Reached s pending k) : src.Stored (src.remoteFile s) k := by
    rcases hk.2 with ⟨w, hw⟩ | hstored
    · rw [hnil w] at hw
      cases hw
    · exact hstored
  refine ⟨⟨initial_next n s, hend.localFile, hend.local_file, hend.announced, ?_, hend.create,
    hend.mdata, hend.noFolder⟩, fun k c hc => ?_, hs.placed⟩
  · show (s.table.length : Int) = _
    rw [hend.length]
    exact hend.count
  · have hc : s.table[k]? = some c := hc
    rcases hend.accounted.entries.table k c hc with hstart | ⟨⟨c₀, hc₀, hfree⟩, -, hno⟩
    · -- a chunk that nobody has claimed
      rcases hs.entry k c hstart with hfree | ⟨hok, -⟩
      · exact .inl hfree
      · have hno : Metadata.claimable c = false := rules.free_of_settled c (decide_eq_true hok)
        exact .inr ⟨hok, stored (hend.start k c hstart hno)⟩
    · rcases hend.stale.table.entry k c c₀ hc hc₀ hfree with hfree | hok | ⟨-, w, hw⟩
      · exact .inl hfree
      · exact .inr ⟨of_decide_eq_true hok, stored (hend.backed.table k c hc hok)⟩
      · rw [hend.holds_none hstops.closed.2 w] at hw
        cases hw

theorem Ready.starts (hs : src.Ready s₀) (hsize : src.chunkSize ≤ maxChunkSize)
    (hstarts : Starts md5 s₀ s) : src.Ready s := by
  induction hstarts with
  | first => exact hs
  | again n _ hstops ih => exact ih.again hsize hstops n

/-- **The last run.** -/
theorem Ready.uploaded (hs : src.Ready s₀) (hsize : src.chunkSize ≤ maxChunkSize)
    (hn : 1 ≤ s₀.numClient ∧ s₀.numClient ≤ nproc)
    (hblocking : (machine md5).Along Blocking s₀ as) (hordinary : ∀ a ∈ as, a.ordinary = true)
    (hr : (machine md5).run s₀ as = some s) (hstuck : ¬ Moves md5 s) : s.pc = .ended ∧
      (∃ m, s.mdata = some m ∧ ∀ c ∈ m.chunkInfo, c.status = .chOk) ∧
      ∃ g, s.dir src.remote = some (.file g) ∧ g.take src.content.length = src.content := by
  have hstart : src.Smooth s₀.table s₀.numClient s₀ fun _ => [] :=
    ⟨hs.completing, hs.uninterrupted, rfl, hs.stoppable.unharmed⟩
  obtain ⟨⟨pending, hend⟩, -⟩ :=
    smooth_run hstart hsize hn hblocking (hs.claimsPlaced as) hordinary hr
  have hone : 1 ≤ s.numClient := hend.numClient ▸ hn.1
  obtain ⟨hpc, -, ⟨m, hm, -⟩, hfile⟩ := hend.made hsize hn hstuck
  have hlive : Live s₀.table s := by
    refine (live_run hs.toInitial hr).resolve_left fun hstopped => ?_
    rcases hstopped with he | he <;> cases hpc.symm.trans he
  have hsafe : Unharmed s :=
    ⟨fun w k he => by simpa [he, WorkerPc.harmed] using hend.unharmed w,
      fun w _ he => by simpa [he, WorkerPc.harmed] using hend.unharmed w⟩
  refine ⟨hpc, ⟨m, hm, fun c hmem => ?_⟩, hfile⟩
  obtain ⟨k, hk⟩ := List.getElem?_of_mem hmem
  have hc : s.table[k]? = some c := by
    rw [State.table_of_some hm]
    exact hk
  rcases hlive.entry hone hpc hsafe hc with hok | ⟨hbefore, hno⟩
  · exact hok
  · rcases hs.entry k c hbefore with hfree | ⟨hok, -⟩
    · cases hno.symm.trans hfree
    · exact hok

end Run
end Source

theorem ready_freshSource {s : State} (h₀ : Initial s) (hfresh : s.mdata = none)
    (hc : 1 ≤ s.chunk_size ∧ s.chunk_size ≤ maxChunkSize)
    (hchunks : 32 * chunkCount s.localFile.length s.chunk_size < 2 ^ 31)
    (hfolder : s.dir.isFolder (absoluteFile s.local_file.path) = false) :
    (freshSource s hc hchunks).Ready s where
  toBegins := begins_freshSource h₀ hfresh hc hchunks hfolder
  entry := fun k c hk => by
    rw [State.table_of_none hfresh] at hk
    exact .inl (status_freshTable (List.mem_of_getElem? hk))
  placed := (begins_freshSource h₀ hfresh hc hchunks hfolder).create hfresh

/-- **An upload that has been stopped is made complete.**  The runs of mhclient that upload a
file over connections that do not fail have been stopped with SIGINT or by a fork that failed,
at any point and as often as may be, and after each of them the servers have read what was sent.
Then one more run with the same chunk size, which nobody stops, takes a bounded number of steps;
and when none of its processes can take another step it has ended, every chunk is CH_OK, and
the server's file begins with the local file. -/
theorem stopped_upload_succeeds (md5 : Md5) {s₀ s₁ s : State} {as : List Act} (h₀ : Initial s₀)
    (hfresh : s₀.mdata = none) (hc : 1 ≤ s₀.chunk_size ∧ s₀.chunk_size ≤ maxChunkSize)
    (hchunks : 32 * chunkCount s₀.localFile.length s₀.chunk_size ≤ maxCount)
    (hfolder : s₀.dir.isFolder (absoluteFile s₀.local_file.path) = false)
    (hstarts : Starts md5 s₀ s₁) (hn : 1 ≤ s₁.numClient ∧ s₁.numClient ≤ nproc)
    (hblocking : (machine md5).Along Blocking s₁ as) (hordinary : ∀ a ∈ as, a.ordinary = true)
    (hr : (machine md5).run s₁ as = some s) :
    as.countP (Act.within s₁.numClient) ≤
        (3 * maxChunkSize + 58) * (s₁.table.countP Metadata.claimable * (s₁.numClient + 1)) +
          6281 * s₁.numClient + 3 ∧
      (¬ Moves md5 s → s.pc = .ended ∧
        (∃ m, s.mdata = some m ∧ ∀ c ∈ m.chunkInfo, c.status = .chOk) ∧
        ∃ g, s.dir (absoluteFile s₀.local_file.path) = some (.file g) ∧
          g.take s₀.localFile.length = s₀.localFile) := by
  have hint := lt_of_le_maxCount hchunks
  have hsize : (freshSource s₀ hc hint).chunkSize ≤ maxChunkSize := by
    have hmax := hc.2
    show s₀.chunk_size.toNat ≤ maxChunkSize
    omega
  have hready := (ready_freshSource h₀ hfresh hc hint hfolder).starts hsize hstarts
  exact ⟨steps_le hready.toInitial hr, hready.uploaded hsize hn hblocking hordinary hr⟩

/-- A file of two chunks of one byte, sent by one worker. -/
def sampleTwoChunks : State := .begin 1 1 sampleName [7, 8] none fun _ => none

/-- SIGINT arrives while the first chunk is being sent. -/
def sampleInterrupted : List Act :=
  sampleFork ++ [.worker 0 (.open []), .worker 0 .lock, .worker 0 .load, .worker 0 .claim,
    .worker 0 .release, .parent .sigint, .worker 0 (.send []), .worker 0 .lock, .worker 0 .load,
    .worker 0 .update, .worker 0 .release, .worker 0 .test, .parent .exit, sampleServer 0,
    sampleServer 0, sampleServer 0]

def sampleNext : NextRun where
  numClient := 1
  metadata := sampleTwoChunks.metadata
  snd_md5sum := fun _ => Buffer.zero _
  servers := fun _ => (⟨Buffer.zero _, 0, Buffer.zero _, 0, 0⟩, [], Buffer.zero _)

/-- The second chunk. -/
def sampleLastRun : List Act :=
  sampleUpload ++ [.parent .wait, .parent .finish, sampleServer 0]

theorem stopped_upload_succeeds_sample : ∃ s₁ s,
    (machine fun _ => Buffer.zero _).run sampleTwoChunks sampleInterrupted = some s₁ ∧
    s₁.dir [97] = some (.file [7]) ∧
    (machine fun _ => Buffer.zero _).run (sampleNext.begin s₁) sampleLastRun = some s ∧
    ∃ g, s.dir [97] = some (.file g) ∧ g.take 2 = [7, 8] := by
  obtain ⟨s₁, hs₁, hfile, hclosed, hnum, hread, hblocking, hany⟩ : ∃ s₁,
      (machine fun _ => Buffer.zero _).run sampleTwoChunks sampleInterrupted = some s₁ ∧
        s₁.dir [97] = some (.file [7]) ∧ s₁.Closed ∧ s₁.numClient = 1 ∧ (s₁.conns 0).toServer = [] ∧
        (machine fun _ => Buffer.zero _).Along Blocking (sampleNext.begin s₁) sampleLastRun ∧
        ((machine fun _ => Buffer.zero _).run (sampleNext.begin s₁) sampleLastRun).any (fun s =>
          s.pc = .ended ∧ s.AllServed) = true := Machine.exists_run (by decide +kernel)
  obtain ⟨s, hs, hpc, hserved⟩ := Machine.exists_run hany
  have hstops : Stops (fun _ => Buffer.zero _) sampleTwoChunks sampleInterrupted s₁ := by
    refine ⟨hs₁, by decide +kernel, by decide +kernel, hclosed, fun w hw => ?_⟩
    obtain rfl : w = 0 := by omega
    exact hread
  have hstuck : ¬ Moves (fun _ => Buffer.zero _) s :=
    not_moves_of_ended (orderly_run (Source.initial_next sampleNext s₁).orderly hs) hpc hserved
  obtain ⟨-, -, g, hg, htake⟩ := (stopped_upload_succeeds _ (initial_begin _ _ _ _ _ _) rfl
    ⟨by decide, by rw [maxChunkSize_eq]; decide⟩ (by rw [maxCount_eq]; decide) rfl
    (.again sampleNext .first hstops)
    (show 1 ≤ 1 ∧ 1 ≤ nproc by decide) hblocking (by decide +kernel) hs).2 hstuck
  exact ⟨s₁, s, hs₁, hfile, hs, g, hg, htake⟩

end Mhftp.Upload
