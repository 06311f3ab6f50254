import Mhftp.DownloadClaims

/-! # What a download run gets done

The chunk table is a work pool (`Library.ClaimPool`), so a download run is a run of
`Library.Pool` (`poolSimulation`), and what it gets done is what the pool gets done: how
many claims it takes and that a run without failures fetches every chunk
(`bounded_work`), and when one link makes up for another (`failover_iff`).
-/

namespace Mhftp.Download
open Library

/-- The chunks that are CH_PENDING or CH_ERROR. -/
def State.pendingChunks (s : State) : Finset Nat :=
  (Finset.range s.mdata.chunkInfo.length).filter fun k =>
    (s.mdata.chunkInfo[k]?).any fun c => c.status = .chPending ∨ c.status = .chError

/-- The chunk a step claims. -/
def claimedChunk (s : State) : Act → Option Nat
  | .worker w .claim => (s.workers w).metadata.getNextPendingChunk
  | _ => none

/-- The connection of a worker that was forked has failed. -/
def State.Failed (s : State) (w : Nat) : Prop :=
  (s.workers w).pc ≠ .notForked ∧ (s.workers w).sock_error = true

instance (s : State) (w : Nat) : Decidable (s.Failed w) :=
  inferInstanceAs (Decidable (_ ∧ _))

/-- Worker `w` has left its loop, and its connection has not failed. -/
def State.Healthy (s : State) (w : Nat) : Prop :=
  (s.workers w).pc = .exited ∧ (s.workers w).sock_error = false

/-! ### A download run as a work pool -/

/-- What a step is to the pool. -/
def poolLabel (s : State) (a : Act) : Option (Pool.Act Nat Nat) :=
  (label s a).bind (ClaimTable.poolLabel rules (view s))

/-- A state as the pool sees it, in a run that began with the table `t₀`. -/
def State.pool (t₀ : List ChunkInfo) (s : State) : Pool Nat Nat :=
  ClaimTable.poolView rules t₀ (view s)

/-- The steps that the pool sees. -/
inductive PoolStep (s : State) : Act → Pool.Act Nat Nat → Prop
  | claim {w k} : (s.workers w).pc = .claimLoaded →
      (s.workers w).metadata.getNextPendingChunk = some k →
      PoolStep s (.worker w .claim) (.claim w k)
  | complete {w k} : (s.workers w).pc = .updateLoaded k → (s.workers w).sock_error = false →
      PoolStep s (.worker w .update) (.complete w k)
  | fail {w k} : (s.workers w).pc = .updateLoaded k → (s.workers w).sock_error = true →
      PoolStep s (.worker w .update) (.fail w k)
  | leave {w} : (s.workers w).pc = .claimLoaded → PoolStep s (.worker w .giveUp) (.leave w)
  | quit {w c} : (s.workers w).pc = .looping c → s.kill_proc = true →
      PoolStep s (.worker w .test) (.quit w)
  | dieRequest {w k} : (s.workers w).pc = .request k →
      PoolStep s (.worker w .sigpipe) (.die w k)
  | dieReceive {w k script} : (s.workers w).pc = .receive k →
      PoolStep s (.worker w (.receive script)) (.die w k)

section Pool
variable {md5 : Md5} {t₀ : List ChunkInfo} {s s' : State} {a : Act}

theorem poolStep_of_label (h : (machine md5).step s a = some s') {b : Pool.Act Nat Nat}
    (hb : poolLabel s a = some b) : PoolStep s a b := by
  obtain ⟨c, hc, hb⟩ := Option.bind_eq_some_iff.mp hb
  have hphase (w : Nat) : (view s).phase w = phase (s.workers w) := rfl
  cases step_cases h with
  | @claim w k m hw hk hm =>
    cases hc
    have hk' : (s.workers w).metadata.chunkInfo.findIdx? rules.free = some k := hk
    simp only [ClaimTable.poolLabel, hphase, phase, hw, hk', Option.map_some] at hb
    cases hb
    exact .claim hw hk
  | @update w k m hw hm =>
    cases hc
    simp only [ClaimTable.poolLabel, hphase, phase, hw, ClaimTable.Phase.holds, Option.map_some,
      rules, claimRules] at hb
    cases hse : (s.workers w).sock_error <;> rw [hse] at hb <;> cases hb
    · exact .complete hw hse
    · exact .fail hw hse
  | @giveUp w hw hk =>
    cases hc
    cases hb
    exact .leave hw
  | @test w c' hw =>
    simp only [label, hw] at hc
    split at hc
    · next hquit =>
      cases hc
      cases hb
      exact .quit hw hquit.2
    · cases hc
  | @sigpipeRequest w k hw =>
    simp only [label, hw, Option.some.injEq] at hc
    subst hc
    simp only [ClaimTable.poolLabel, hphase, phase, hw, ClaimTable.Phase.holds, Option.map_some,
      Option.some.injEq] at hb
    subst hb
    exact .dieRequest hw
  | @receive w k script hw =>
    simp only [label, hw] at hc
    split at hc
    · cases hc
      simp only [ClaimTable.poolLabel, hphase, phase, hw, ClaimTable.Phase.holds, Option.map_some,
        Option.some.injEq] at hb
      subst hb
      exact .dieReceive hw
    · cases hc
  | @sigpipeStart w hw =>
    simp only [label, hw] at hc
    cases hc
  | fork hpc =>
    simp only [label, hpc, Option.some.injEq] at hc
    subst hc
    cases hb
  | _ => cases hc <;> cases hb

/-- What acts for the pool is in its loop. -/
theorem PoolStep.engaged {b : Pool.Act Nat Nat} (h : PoolStep s a b) :
    (s.workers b.worker).pc.engaged = true := by
  cases h <;> simp only [Pool.Act.worker] <;> simp only [*, WorkerPc.engaged]

/-- A worker that has got as far as its loop stays engaged. -/
theorem engaged_step (hs : Orderly s) (h : (machine md5).step s a = some s') {w : Nat}
    (hw : (s.workers w).pc.engaged = true) : (s'.workers w).pc.engaged = true := by
  have moved : ∀ (v : Nat) (wk : Worker), (v = w → wk.pc.engaged = true) →
      (update s.workers v wk w).pc.engaged = true := by
    intro v wk hwk
    by_cases hv : w = v
    · subst v; rw [update_self]; exact hwk rfl
    · rw [update_of_ne _ _ hv]; exact hw
  cases step_cases h with
  | @fork i hpc _ _ =>
    refine moved i _ fun he => ?_
    rw [← he, hs.forked i hpc i le_rfl] at hw
    cases hw
  | @sigpipeStart v hv =>
    refine moved v _ fun he => ?_
    rw [← he, hv] at hw
    cases hw
  | @receive v k script hv =>
    obtain ⟨wk, toClient, he, -, -, hcase⟩ := receive_cases s v k script
    rw [he]
    refine moved v wk fun _ => ?_
    rcases hcase with ⟨hpc, -⟩ | hpc | ⟨data, size, hpc, -⟩ <;> rw [hpc] <;> rfl
  | @test v c hv =>
    refine moved v _ fun _ => ?_
    show WorkerPc.engaged (if _ then _ else _) = true
    split <;> rfl
  | @«open» v | @lockClaim v | @lockUpdate v | @loadClaim v | @loadUpdate v | @claim v | @giveUp v
  | @releaseClaim v | @releaseUpdate v | @request v | @sigpipeRequest v | @store v | @update v =>
    exact moved v _ fun _ => rfl
  | _ => exact hw

variable (md5 t₀) in
/-- A download run is a run of a work pool. -/
def poolSimulation :
    Machine.Simulation (machine md5) (Pool.machine : Machine (Pool Nat Nat) _) where
  view := State.pool t₀
  inv := Sound t₀
  guard := fun _ _ _ => True
  label := poolLabel
  preserves := fun _ _ _ hs _ h => sound_step hs h
  simulates := fun s a s' hs _ h => by
    have hfollows := view_step hs.toOrderly h
    unfold poolLabel
    cases hl : label s a with
    | none =>
      rw [hl] at hfollows
      exact congrArg (ClaimTable.poolView rules t₀) hfollows
    | some b =>
      rw [hl] at hfollows
      exact ClaimTable.poolView_step hs.valid hs.since (harmless_label hs.toOrderly h hl) hfollows

/-- Every claim of the run is one of the pool's. -/
theorem claimedChunk_eq (h : (machine md5).step s a = some s') :
    claimedChunk s a = (poolLabel s a).bind Pool.Act.claimed := by
  cases hl : poolLabel s a with
  | some b => cases poolStep_of_label h hl <;> simp [claimedChunk, Pool.Act.claimed, *]
  | none =>
    cases step_cases h with
    | @claim w k m hw hk hm =>
      have hk' : (s.workers w).metadata.chunkInfo.findIdx? rules.free = some k := hk
      simp [poolLabel, label, ClaimTable.poolLabel, view, phase, hw, hk'] at hl
    | _ => rfl

theorem events_claimedChunk (s : State) (as : List Act) :
    (machine md5).events claimedChunk s as =
      Pool.claims ((machine md5).events poolLabel s as) :=
  Machine.events_eq_filterMap (I := fun _ => True)
    (fun _ _ _ _ h => ⟨trivial, claimedChunk_eq h⟩) trivial as

theorem claimable_iff (c : ChunkInfo) :
    Metadata.claimable c = true ↔ c.status = .chPending ∨ c.status = .chError := by
  cases h : c.status <;> simp [Metadata.claimable, h]

theorem mem_pendingChunks {k : Nat} : k ∈ s.pendingChunks ↔
    ∃ c, s.mdata.chunkInfo[k]? = some c ∧ (c.status = .chPending ∨ c.status = .chError) := by
  simp only [State.pendingChunks, Finset.mem_filter, Finset.mem_range, Option.any_eq_true,
    decide_eq_true_eq]
  constructor
  · rintro ⟨-, h⟩
    exact h
  · rintro ⟨c, hc, h⟩
    exact ⟨(List.getElem?_eq_some_iff.mp hc).1, c, hc, h⟩

theorem pendingChunks_eq_offered :
    s.pendingChunks = ClaimTable.offered rules s.mdata.chunkInfo s.mdata.chunkInfo := by
  ext k
  rw [mem_pendingChunks, ClaimTable.mem_offered]
  constructor
  · rintro ⟨c, hc, h⟩
    refine ⟨(List.getElem?_eq_some_iff.mp hc).1, ?_⟩
    rw [hc]
    exact (claimable_iff c).mpr h
  · rintro ⟨-, h⟩
    obtain ⟨c, hc, hfree⟩ := (Option.any_eq_true _ _).mp h
    exact ⟨c, hc, (claimable_iff c).mp hfree⟩

theorem failed_of_presence {wk : Worker} (hse : SockErrorOk wk)
    (h : (phase wk).presence = .failed) : wk.pc ≠ .notForked ∧ wk.sock_error = true := by
  unfold phase at h
  unfold SockErrorOk at hse
  cases hpc : wk.pc <;> simp only [hpc] at h hse <;> try cases h
  case updated c =>
    by_cases hc : c = -1
    · exact ⟨by simp, hse.mpr hc⟩
    · simp [hc, ClaimTable.Phase.presence] at h
  case looping c =>
    by_cases hc : c = -1
    · exact ⟨by simp, hse.mpr hc⟩
    · simp [hc, ClaimTable.Phase.resume, ClaimTable.Phase.presence] at h
  case exited =>
    cases hs : wk.sock_error <;> simp [hs, ClaimTable.Phase.presence] at h ⊢

theorem exited_of_presence {wk : Worker} (h : (phase wk).presence = .left) :
    wk.pc = .exited := by
  unfold phase at h
  cases hpc : wk.pc <;> simp only [hpc] at h <;> try cases h
  case updated c => by_cases hc : c = -1 <;> simp [hc, ClaimTable.Phase.presence] at h
  case looping c =>
    by_cases hc : c = -1 <;> simp [hc, ClaimTable.Phase.resume, ClaimTable.Phase.presence] at h
  case exited => rfl

end Pool

/-! ### Sample runs -/

/-- The file and the .mdata file of the sample runs: one chunk of one byte. -/
def sampleDir : Dir := fun p => if p = [97] then some (.file [7]) else none

/-- Worker `w` claims a chunk, asks for it and reads what the server sends. -/
def fetch (w : Nat) (script : List (List ReadResult)) : List Act :=
  [.worker w .lock, .worker w .load, .worker w .claim, .worker w .release, .worker w .request,
    .server w [] (fun _ => 0), .worker w (.receive script)]

/-- Worker `w` finishes its chunk. -/
def finishChunk (w : Nat) : List Act :=
  [.worker w .lock, .worker w .load, .worker w .update, .worker w .release, .worker w .test]

/-- Worker `w` finds nothing to claim. -/
def leave (w : Nat) : List Act := [.worker w .lock, .worker w .load, .worker w .giveUp]

/-- The parent forks two workers, and they send their headers. -/
def forkTwo : List Act :=
  [.parent .load, .parent .save, .parent .fork, .parent .fork, .worker 0 .open, .worker 1 .open,
    .server 0 [] (fun _ => 0), .server 1 [] (fun _ => 0)]

/-- Both workers at work, nothing fails. -/
def sampleRun : List Act :=
  forkTwo ++ fetch 0 [] ++ leave 1 ++ [.worker 0 .store] ++ finishChunk 0 ++ leave 0

/-- Worker 1 fails while worker 0 is there, and worker 0 makes up for it. -/
def sampleFailover : List Act :=
  forkTwo ++ fetch 1 [[.error]] ++ finishChunk 1 ++ fetch 0 [] ++ [.worker 0 .store] ++
    finishChunk 0 ++ leave 0

/-- Worker 0 leaves while worker 1 has the only chunk, and then worker 1 fails. -/
def sampleHole : List Act :=
  forkTwo ++ fetch 1 [[.error]] ++ leave 0 ++ finishChunk 1

def sampleStart (numClient : Nat) : State := .begin numClient sampleMetadata [] sampleDir

abbrev sampleMachine : Machine State Act := machine fun _ => Buffer.zero _

/-! ### From the start to the end of a run -/

section Run
variable {md5 : Md5} {s₀ s : State} {as : List Act}

/-- The run that the pool sees. -/
theorem pool_run {t₀ : List ChunkInfo} (hs : Sound t₀ s₀)
    (hr : (machine md5).run s₀ as = some s) :
    Pool.machine.run (s₀.pool t₀) ((machine md5).events poolLabel s₀ as) = some (s.pool t₀) :=
  (poolSimulation md5 t₀).run hs (Machine.along_of_forall (fun _ _ _ _ => trivial) _ _) hr

theorem Initial.fresh (h₀ : Initial s₀) : (s₀.pool s₀.mdata.chunkInfo).Fresh := by
  rw [State.pool, h₀.view]
  exact ClaimTable.fresh_initial

theorem Initial.offered (h₀ : Initial s₀) :
    (s₀.pool s₀.mdata.chunkInfo).offered = s₀.pendingChunks := by
  rw [State.pool, h₀.view, pendingChunks_eq_offered]
  rfl

/-- However the workers interleave and fail, they claim each chunk that was CH_PENDING or
CH_ERROR once, and one more for each worker whose connection fails. -/
theorem claims_bounded (md5 : Md5) (h₀ : Initial s₀) (hr : (machine md5).run s₀ as = some s) :
    ((machine md5).events claimedChunk s₀ as).length ≤
      s₀.pendingChunks.card + ((Finset.range s.numClient).filter s.Failed).card := by
  have hs := sound_run h₀.sound hr
  have hfailed : ∀ w, (s.pool s₀.mdata.chunkInfo).presence w = .failed →
      w ∈ (Finset.range s.numClient).filter s.Failed := by
    intro w hw
    have hfail : s.Failed w := failed_of_presence (hs.sock_error w) hw
    refine Finset.mem_filter.mpr ⟨Finset.mem_range.mpr ?_, hfail⟩
    by_contra hle
    exact hfail.1 (hs.outside w (not_lt.mp hle))
  have hlength := Pool.claims_length h₀.fresh.valid (pool_run h₀.sound hr) hfailed
  rw [events_claimedChunk]
  refine hlength.trans ?_
  rw [h₀.offered]
  exact Nat.add_le_add_left (Finset.card_filter_le _ _) _

/-- The workers that have got as far as their loops. -/
def State.engaged (s : State) : Finset Nat :=
  (Finset.range s.numClient).filter fun w => (s.workers w).pc.engaged = true

theorem Orderly.mem_engaged (hs : Orderly s) {w : Nat} :
    w ∈ s.engaged ↔ (s.workers w).pc.engaged = true := by
  rw [State.engaged, Finset.mem_filter, Finset.mem_range]
  refine ⟨fun h => h.2, fun h => ⟨?_, h⟩⟩
  by_contra hle
  rw [hs.outside w (not_lt.mp hle)] at h
  cases h

theorem kill_step {s s' : State} {a : Act} (h : (machine md5).step s a = some s')
    (hk : s.kill_proc = true) : s'.kill_proc = true := by
  cases step_cases h with
  | sigint => rfl
  | receive =>
    obtain ⟨wk, toClient, he, -⟩ := receive_cases s _ _ _
    rw [he]
    exact hk
  | _ => exact hk

/-- Who has acted for the pool is engaged at the end, and quits only when told to. -/
theorem acts_of_events {t₀ : List ChunkInfo} (hs : Sound t₀ s₀)
    (hr : (machine md5).run s₀ as = some s) (hk : s.kill_proc = false) {b : Pool.Act Nat Nat}
    (hb : b ∈ (machine md5).events poolLabel s₀ as) : b.worker ∈ s.engaged ∧ ¬ b.IsQuit := by
  obtain ⟨bs, a, cs, t, u, rfl, ht, hu, hb⟩ := Machine.mem_events hb
  have hstep := poolStep_of_label hu hb
  have hst := sound_run hs ht
  rw [Machine.run_append_of_run ht] at hr
  have hend := Machine.run_invariant_of_step
    (I := fun v => Sound t₀ v ∧ (v.workers b.worker).pc.engaged = true)
    (fun v c v' hv h => ⟨sound_step hv.1 h, engaged_step hv.1.toOrderly h hv.2⟩)
    ⟨hst, hstep.engaged⟩ hr
  refine ⟨hend.1.mem_engaged.mpr hend.2, fun hquit => ?_⟩
  have hkill : t.kill_proc = true := by
    cases hstep with
    | quit _ hk => exact hk
    | _ => exact absurd hquit id
  have hkill' := Machine.run_invariant_of_step (I := fun v => v.kill_proc = true)
    (fun v c v' hv h => kill_step h hv) hkill hr
  rw [hk] at hkill'
  cases hkill'

/-- A worker that has got as far as its loop and has ended has left or died at work. -/
theorem ended_cases {pc : WorkerPc} (he : pc.engaged = true) (hf : pc.finished = true) :
    pc = .exited ∨ ∃ k, pc = .dead k := by
  cases pc <;> simp_all [WorkerPc.engaged, WorkerPc.finished]

theorem presence_exited {wk : Worker} (h : wk.pc = .exited) :
    (phase wk).presence = if wk.sock_error then .failed else .left := by
  rw [phase, h]
  cases wk.sock_error <;> rfl

theorem presence_dead {wk : Worker} {k : Nat} (h : wk.pc = .dead k) :
    (phase wk).presence = .dead := by
  rw [phase, h]; rfl

/-- Once all workers have ended nobody is active in the pool. -/
theorem gone_of_finished (hs : Orderly s) (hall : s.AllFinished) (t₀ : List ChunkInfo) :
    ∀ w ∈ s.engaged, (s.pool t₀).presence w ≠ .active := by
  intro w hw
  have hlt : w < s.numClient := Finset.mem_range.mp (Finset.mem_filter.mp hw).1
  show (phase (s.workers w)).presence ≠ .active
  rcases ended_cases (hs.mem_engaged.mp hw) (hall w hlt) with h | ⟨k, h⟩
  · rw [presence_exited h]
    split <;> decide
  · rw [presence_dead h]
    decide

/-- At the end a worker has left the pool unharmed if and only if it is healthy. -/
theorem Orderly.left_iff_healthy (hs : Orderly s) (hall : s.AllFinished) (t₀ : List ChunkInfo)
    (w : Nat) : w ∈ s.engaged ∧ (s.pool t₀).presence w = .left ↔ s.Healthy w := by
  constructor
  · rintro ⟨hw, hleft⟩
    have hlt : w < s.numClient := Finset.mem_range.mp (Finset.mem_filter.mp hw).1
    replace hleft : (phase (s.workers w)).presence = .left := hleft
    rcases ended_cases (hs.mem_engaged.mp hw) (hall w hlt) with h | ⟨k, h⟩
    · refine ⟨h, ?_⟩
      rw [presence_exited h] at hleft
      cases hse : (s.workers w).sock_error with
      | false => rfl
      | true => rw [hse] at hleft; cases hleft
    · rw [presence_dead h] at hleft
      cases hleft
  · rintro ⟨hpc, hse⟩
    refine ⟨hs.mem_engaged.mpr (by rw [hpc]; rfl), ?_⟩
    show (phase (s.workers w)).presence = .left
    rw [presence_exited hpc, hse]
    rfl

/-- At the end the pool has lost the workers that were killed at work on a chunk. -/
theorem Orderly.dead_iff (hs : Orderly s) (hall : s.AllFinished) (t₀ : List ChunkInfo) :
    (∀ w ∈ s.engaged, (s.pool t₀).presence w ≠ .dead) ↔ ∀ w k, (s.workers w).pc ≠ .dead k := by
  constructor
  · intro h w k hw
    exact h w (hs.mem_engaged.mpr (by rw [hw]; rfl)) (presence_dead hw)
  · intro h w hw hpres
    have hlt : w < s.numClient := Finset.mem_range.mp (Finset.mem_filter.mp hw).1
    replace hpres : (phase (s.workers w)).presence = .dead := hpres
    rcases ended_cases (hs.mem_engaged.mp hw) (hall w hlt) with h' | ⟨k, h'⟩
    · rw [presence_exited h'] at hpres
      split at hpres <;> cases hpres
    · exact h w k h'

/-- The table has a chunk CH_OK if and only if the file has. -/
theorem Orderly.ok_table (hs : Orderly s) {k : Nat} : (s.table[k]?).any rules.settled = true ↔
    ∃ c, s.mdata.chunkInfo[k]? = some c ∧ c.status = .chOk := by
  have hok : ∀ t : List ChunkInfo, (t[k]?).any rules.settled = true ↔
      ∃ c, t[k]? = some c ∧ c.status = .chOk := by
    intro t
    rw [Option.any_eq_true]
    exact exists_congr fun c => and_congr_right fun _ => decide_eq_true_iff
  rw [hok, State.table]
  split
  · next t ht =>
    rw [hs.reset t ht, List.getElem?_map]
    constructor
    · rintro ⟨c, hc, hst⟩
      exact ⟨c, by rw [hc, Option.map_some, Metadata.resetDownloading, if_neg (by simp [hst])], hst⟩
    · rintro ⟨c', hc', hst⟩
      obtain ⟨c, hc, rfl⟩ := Option.map_eq_some_iff.mp hc'
      refine ⟨c, hc, ?_⟩
      unfold Metadata.resetDownloading at hst
      split at hst
      · cases hst
      · exact hst
  · rfl

/-- The pool is finished when every chunk that was CH_PENDING or CH_ERROR is CH_OK. -/
theorem Sound.done_iff (hs : Sound s₀.mdata.chunkInfo s) :
    (s.pool s₀.mdata.chunkInfo).done = s₀.pendingChunks ↔
      ∀ k ∈ s₀.pendingChunks, ∃ c, s.mdata.chunkInfo[k]? = some c ∧ c.status = .chOk := by
  have hmem : ∀ k, k ∈ (s.pool s₀.mdata.chunkInfo).done ↔ k ∈ s₀.pendingChunks ∧
      ∃ c, s.mdata.chunkInfo[k]? = some c ∧ c.status = .chOk := by
    intro k
    show k ∈ ClaimTable.done rules s₀.mdata.chunkInfo s.table ↔ _
    rw [ClaimTable.mem_done, hs.ok_table, pendingChunks_eq_offered, ClaimTable.mem_offered,
      and_assoc]
  constructor
  · intro h k hk
    rw [← h] at hk
    exact ((hmem k).mp hk).2
  · intro h
    ext k
    rw [hmem]
    exact ⟨fun hk => hk.1, fun hk => ⟨hk, h k hk⟩⟩

/-! ### Runs in which nothing fails -/

/-- Nobody interrupts the client or a worker, and every read gets its bytes. -/
def undisturbed (_ : State) (a : Act) (s' : State) : Bool :=
  match a with
  | .parent .sigint | .worker _ .sigpipe => false
  | .worker w (.receive _) =>
    match (s'.workers w).pc with
    | .store _ _ => true
    | _ => false
  | _ => true

/-- No worker has been killed and no connection has failed. -/
def Unharmed (wk : Worker) : Prop :=
  wk.pc = .notForked ∨ wk.sock_error = false ∧ wk.pc ≠ .killed ∧ ∀ k, wk.pc ≠ .dead k

/-- A worker that nothing disturbs reads its chunk. -/
theorem receive_undisturbed {s : State} {w k : Nat} {script : List (List ReadResult)}
    (ha : undisturbed s (.worker w (.receive script)) (receive s w k script) = true) :
    ∃ wk toClient data, receive s w k script =
        (s.setWorker w wk).setConn w { s.conns w with toClient } ∧
      wk.pc = .store k data ∧ wk.sock_error = (s.workers w).sock_error := by
  obtain ⟨wk, toClient, he, -, -, hcase⟩ := receive_cases s w k script
  have hpc : ((receive s w k script).workers w).pc = wk.pc := by
    rw [he]
    exact congrArg Worker.pc (update_self _ _ _)
  rcases hcase with ⟨hfail, -⟩ | hdead | ⟨data, size, hstore, hse, -⟩
  · simp [undisturbed, hpc, hfail] at ha
  · simp [undisturbed, hpc, hdead] at ha
  · exact ⟨wk, toClient, data, he, hstore, hse⟩

theorem unharmed_step {s s' : State} {a : Act} (h : (machine md5).step s a = some s')
    (ha : undisturbed s a s' = true) (hk : s.kill_proc = false) (hs : ∀ w, Unharmed (s.workers w)) :
    s'.kill_proc = false ∧ ∀ w, Unharmed (s'.workers w) := by
  have moved (v : Nat) (wk : Worker) (hwk : Unharmed wk) :
      ∀ w, Unharmed (update s.workers v wk w) :=
    forall_update hwk hs
  have sound : ∀ {v : Nat}, (s.workers v).pc ≠ .notForked → (s.workers v).sock_error = false :=
    fun hv => ((hs _).resolve_left hv).1
  cases step_cases h with
  | sigint | sigpipeStart | sigpipeRequest => cases ha
  | @fork i => exact ⟨hk, moved i _ (Or.inr ⟨rfl, by simp [forked], by simp [forked]⟩)⟩
  | @receive v k script hv =>
    obtain ⟨wk, toClient, data, he, hpc, hse⟩ := receive_undisturbed ha
    rw [he]
    exact ⟨hk, moved v wk (Or.inr ⟨hse.trans (sound (by simp [hv])), by simp [hpc], by simp [hpc]⟩)⟩
  | @test v c hv =>
    refine ⟨hk, moved v _ (Or.inr ⟨sound (by simp [hv]), ?_⟩)⟩
    split <;> simp
  | @«open» v hv | @lockClaim v _ hv | @lockUpdate v _ _ hv | @loadClaim v hv | @loadUpdate v _ hv
  | @claim v _ _ hv | @giveUp v hv | @releaseClaim v _ hv | @releaseUpdate v _ hv | @request v _ hv
  | @store v _ _ _ hv | @update v _ _ hv =>
    exact ⟨hk, moved v _ (Or.inr ⟨sound (by simp [hv]), by simp, by simp⟩)⟩
  | _ => exact ⟨hk, hs⟩

/-- A run in which nothing fails claims each chunk that was CH_PENDING or CH_ERROR exactly
once, and when the workers have left all these chunks are CH_OK. -/
theorem claims_complete (md5 : Md5) (h₀ : Initial s₀) (hr : (machine md5).run s₀ as = some s)
    (hclean : (machine md5).Along (fun s a s' => undisturbed s a s' = true) s₀ as)
    (hall : s.AllFinished) (hsome : ∃ w, (s.workers w).pc ≠ .notForked) :
    ((machine md5).events claimedChunk s₀ as).length = s₀.pendingChunks.card ∧
      ((machine md5).events claimedChunk s₀ as).Nodup ∧
      (∀ k, k ∈ (machine md5).events claimedChunk s₀ as ↔ k ∈ s₀.pendingChunks) ∧
      ∀ k ∈ s₀.pendingChunks, ∃ c, s.mdata.chunkInfo[k]? = some c ∧ c.status = .chOk := by
  have hs := sound_run h₀.sound hr
  obtain ⟨hk, hunharmed⟩ := Machine.run_invariant
    (I := fun s => s.kill_proc = false ∧ ∀ w, Unharmed (s.workers w))
    (fun _ _ _ hs ha h => unharmed_step h ha hs.1 hs.2)
    ⟨h₀.kill_proc, fun w => Or.inl (h₀.workers w)⟩ hclean hr
  have hpool := pool_run h₀.sound hr
  -- at the end every worker that was forked has left in good health
  have hleft : ∀ w, (s.workers w).pc ≠ .notForked →
      w ∈ s.engaged ∧ (s.pool s₀.mdata.chunkInfo).presence w = .left := by
    intro w hw
    obtain ⟨hse, hkilled, hdead⟩ := (hunharmed w).resolve_left hw
    have hlt : w < s.numClient := by
      by_contra hle
      exact hw (hs.outside w (not_lt.mp hle))
    have hexited : (s.workers w).pc = .exited := by
      have := hall w hlt
      cases hpc : (s.workers w).pc <;> simp_all [WorkerPc.finished]
    exact (hs.left_iff_healthy hall _ w).mpr ⟨hexited, hse⟩
  obtain ⟨w, hw⟩ := hsome
  have hdone := Pool.done_of_all_left h₀.fresh hpool
    (fun b hb => acts_of_events h₀.sound hr hk hb) ⟨w, (hleft w hw).1⟩
    (fun v hv => (hleft v fun h => by
      have := hs.mem_engaged.mp hv
      rw [h] at this
      cases this).2)
  -- so no connection has failed, and nothing was put back
  have hfails : Pool.fails ((machine md5).events poolLabel s₀ as) = [] := by
    refine List.eq_nil_iff_forall_not_mem.mpr fun v hv => ?_
    obtain ⟨hforked, hse⟩ := failed_of_presence (hs.sock_error v)
      ((Pool.fails_nodup hpool).2 v hv)
    rw [((hunharmed v).resolve_left hforked).1] at hse
    cases hse
  obtain ⟨hnodup, hmem⟩ := Pool.claims_nodup hpool hfails
  have hvalid := Pool.valid_run h₀.fresh.valid hpool
  have hmem' : ∀ k, k ∈ (machine md5).events claimedChunk s₀ as ↔ k ∈ s₀.pendingChunks := by
    intro k
    rw [events_claimedChunk, hmem, h₀.offered]
    refine ⟨fun h => h.1, fun h => ⟨h, fun hoff => ?_⟩⟩
    refine hvalid.offered_done k hoff ?_
    rw [hdone, h₀.offered]
    exact h
  rw [← events_claimedChunk] at hnodup
  refine ⟨?_, hnodup, hmem', hs.done_iff.mp (hdone.trans h₀.offered)⟩
  rw [← List.toFinset_card_of_nodup hnodup]
  congr 1
  ext k
  rw [List.mem_toFinset, hmem']

/-- **Bounded work.**  Every run makes at most as many claims as there were chunks in
CH_PENDING or CH_ERROR, and one more for each worker whose connection fails; and a run
of at least one worker in which nothing fails claims each of these chunks exactly once
and leaves all of them CH_OK. -/
theorem bounded_work (md5 : Md5) (h₀ : Initial s₀) (hr : (machine md5).run s₀ as = some s) :
    ((machine md5).events claimedChunk s₀ as).length ≤
        s₀.pendingChunks.card + ((Finset.range s.numClient).filter s.Failed).card ∧
      ((machine md5).Along (fun s a s' => undisturbed s a s' = true) s₀ as → s.AllFinished →
        (∃ w, (s.workers w).pc ≠ .notForked) →
        ((machine md5).events claimedChunk s₀ as).length = s₀.pendingChunks.card ∧
          ((machine md5).events claimedChunk s₀ as).Nodup ∧
          (∀ k, k ∈ (machine md5).events claimedChunk s₀ as ↔ k ∈ s₀.pendingChunks) ∧
          ∀ k ∈ s₀.pendingChunks, ∃ c, s.mdata.chunkInfo[k]? = some c ∧ c.status = .chOk) :=
  ⟨claims_bounded md5 h₀ hr, claims_complete md5 h₀ hr⟩

theorem bounded_work_sample : ∃ s, sampleMachine.run (sampleStart 2) sampleRun = some s ∧
    (sampleMachine.events claimedChunk (sampleStart 2) sampleRun).length = 1 ∧
    ∀ k ∈ (sampleStart 2).pendingChunks, ∃ c, s.mdata.chunkInfo[k]? = some c ∧
      c.status = .chOk := by
  obtain ⟨s, hs, hall, hpc⟩ : ∃ s, sampleMachine.run (sampleStart 2) sampleRun = some s ∧
      s.AllFinished ∧ (s.workers 0).pc = .exited := Machine.exists_run (by decide +kernel)
  obtain ⟨hlength, -, -, hok⟩ := (bounded_work _ (initial_begin _ _ _ _) hs).2 (by decide +kernel)
    hall ⟨0, by rw [hpc]; decide⟩
  exact ⟨s, hs, hlength.trans (by decide +kernel), hok⟩

/-- Without workers nothing fails and nothing gets done. -/
theorem bounded_work_nobody : ∃ s,
    sampleMachine.run (sampleStart 0) [.parent .load, .parent .save, .parent .wait] = some s ∧
    sampleMachine.Along (fun s a s' => undisturbed s a s' = true) (sampleStart 0)
      [.parent .load, .parent .save, .parent .wait] ∧ s.AllFinished ∧
    (sampleMachine.events claimedChunk (sampleStart 0)
      [.parent .load, .parent .save, .parent .wait]).length ≠ (sampleStart 0).pendingChunks.card ∧
    s.mdata.chunkInfo.map ChunkInfo.status = [.chPending] := by
  obtain ⟨s, hs, hall, hstatus⟩ : ∃ s, sampleMachine.run (sampleStart 0)
      [.parent .load, .parent .save, .parent .wait] = some s ∧ s.AllFinished ∧
        s.mdata.chunkInfo.map ChunkInfo.status = [.chPending] :=
    Machine.exists_run (by decide +kernel)
  exact ⟨s, hs, by decide +kernel, hall, by decide +kernel, hstatus⟩

/-! ### Failover -/

/-- Worker `w` records its chunk as CH_ERROR. -/
def RecordsFailure (s : State) (a : Act) (w : Nat) : Prop :=
  a = .worker w .update ∧ (s.workers w).sock_error = true

/-- **When one link makes up for another.**  Once all workers have ended, with one among
them whose connection never failed and the kill flag never set, every chunk that was
CH_PENDING or CH_ERROR is CH_OK if and only if no worker was killed at work on a chunk
and every failure was recorded while a worker whose connection never fails had not left. -/
theorem failover_iff (md5 : Md5) (h₀ : Initial s₀) (hr : (machine md5).run s₀ as = some s)
    (hk : s.kill_proc = false) (hall : s.AllFinished) (hhealthy : ∃ h, s.Healthy h) :
    (∀ k ∈ s₀.pendingChunks, ∃ c, s.mdata.chunkInfo[k]? = some c ∧ c.status = .chOk) ↔
      (∀ w k, (s.workers w).pc ≠ .dead k) ∧
      (machine md5).Along (fun t a _ => ∀ w, RecordsFailure t a w →
        ∃ h, s.Healthy h ∧ (t.workers h).pc ≠ .exited) s₀ as := by
  have hs := sound_run h₀.sound hr
  have hpool := pool_run h₀.sound hr
  have hgone := gone_of_finished hs.toOrderly hall s₀.mdata.chunkInfo
  have hleft := hs.left_iff_healthy hall s₀.mdata.chunkInfo
  have hiff := Pool.done_iff_failover h₀.fresh hpool
    (fun b hb => acts_of_events h₀.sound hr hk hb) hgone
    (hhealthy.imp fun h hh => (hleft h).mpr hh)
  rw [← hs.done_iff, ← h₀.offered, hiff, hs.dead_iff hall]
  refine and_congr_right fun _ => ⟨fun h => ?_, fun h => ?_⟩
  · refine (poolSimulation md5 s₀.mdata.chunkInfo).along_of_along ?_ ?_ h₀.sound
      (Machine.along_of_forall (fun _ _ _ _ => trivial) _ _) h
    · -- the pool sees every failure that is recorded
      intro t a u ht hu hl w hw
      obtain ⟨rfl, hse⟩ := hw
      cases step_cases hu with
      | @update w k m hw hm =>
        have hl : poolLabel t (.worker w .update) = none := hl
        simp [poolLabel, label, ClaimTable.poolLabel, view, phase, hw, ClaimTable.Phase.holds] at hl
    · intro t a u b ht _ hQ hu hl w hw
      obtain ⟨rfl, hse⟩ := hw
      cases poolStep_of_label hu hl with
      | complete _ hno =>
        rw [hse] at hno
        cases hno
      | fail =>
        obtain ⟨h, hmem, hpres, hactive⟩ := hQ w _ rfl
        refine ⟨h, (hleft h).mp ⟨hmem, hpres⟩, fun hpc => ?_⟩
        replace hactive : (phase (t.workers h)).presence = .active := hactive
        rw [presence_exited hpc] at hactive
        split at hactive <;> cases hactive
  · refine (poolSimulation md5 s₀.mdata.chunkInfo).along ?_ h₀.sound
      (Machine.along_of_forall (fun _ _ _ _ => trivial) _ _) (h.and (Machine.along_reaches hr)) hr
    rintro t a u b ht - ⟨hP, cs, hcs⟩ hu hl w i rfl
    cases poolStep_of_label hu hl with
    | fail hw hse =>
      obtain ⟨h, hhealthy, hpc⟩ := hP w ⟨rfl, hse⟩
      obtain ⟨hmem, hpres⟩ := (hleft h).mpr hhealthy
      -- one that is not active any more has left, and has exited
      refine ⟨h, hmem, hpres, Classical.byContradiction fun hne => hpc ?_⟩
      have hrun := pool_run ht ((Machine.run_cons_of_step hu cs).trans hcs)
      have hsame := (Pool.presence_run hrun hne).symm.trans hpres
      exact exited_of_presence hsame

theorem failover_sample : ∃ s,
    sampleMachine.run (sampleStart 2) sampleFailover = some s ∧
    ((∀ k ∈ (sampleStart 2).pendingChunks, ∃ c, s.mdata.chunkInfo[k]? = some c ∧
        c.status = .chOk) ↔
      (∀ w k, (s.workers w).pc ≠ .dead k) ∧
      sampleMachine.Along (fun t a _ => ∀ w, RecordsFailure t a w →
        ∃ h, s.Healthy h ∧ (t.workers h).pc ≠ .exited) (sampleStart 2) sampleFailover) := by
  obtain ⟨s, hs, hkill, hall, hhealthy⟩ : ∃ s,
      sampleMachine.run (sampleStart 2) sampleFailover = some s ∧ s.kill_proc = false ∧
        s.AllFinished ∧ (s.workers 0).pc = .exited ∧ (s.workers 0).sock_error = false :=
    Machine.exists_run (by decide +kernel)
  exact ⟨s, hs, failover_iff _ (initial_begin _ _ _ _) hs hkill hall ⟨0, hhealthy⟩⟩

/-- The healthy worker has left when the other one gives its chunk up. -/
theorem failover_fails : ∃ s, sampleMachine.run (sampleStart 2) sampleHole = some s ∧
    s.kill_proc = false ∧ s.AllFinished ∧ s.Healthy 0 ∧ 0 ∈ (sampleStart 2).pendingChunks ∧
    s.mdata.chunkInfo.map ChunkInfo.status = [.chError] := by
  obtain ⟨s, hs, hkill, hall, hhealthy, hstatus⟩ : ∃ s,
      sampleMachine.run (sampleStart 2) sampleHole = some s ∧ s.kill_proc = false ∧
        s.AllFinished ∧ ((s.workers 0).pc = .exited ∧ (s.workers 0).sock_error = false) ∧
        s.mdata.chunkInfo.map ChunkInfo.status = [.chError] :=
    Machine.exists_run (by decide +kernel)
  exact ⟨s, hs, hkill, hall, hhealthy, by decide +kernel, hstatus⟩

end Run

end Mhftp.Download
