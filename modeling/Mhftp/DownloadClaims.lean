import Mhftp.Download
import Mhftp.Library.ClaimPool

/-! # The claims of a download run

Seen through the chunk table, the lock and the workers' program counters, a download run
is a run of `Library.ClaimTable` (`simulation`): the parent saves what it has loaded, and
it has loaded it when no worker was there or none was left (`Orderly`), so it is a
harmless writer outside the lock.  Only `KillClient` changes statuses in the table, when
everybody has gone; the view keeps the table it found.
-/

namespace Mhftp.Download
open Library

/-- A worker settles its chunk with `sock_error` and `rcv_md5sum`. -/
def rules : ClaimRules ChunkInfo (Bool × Digest) := claimRules .download Prod.fst Prod.snd

/-- Where the table sees a worker. -/
def phase (wk : Worker) : ClaimTable.Phase ChunkInfo :=
  match wk.pc with
  | .notForked => .absent
  | .start | .loop | .killed => .idle
  | .claimLocked => .entering
  | .claimLoaded => .loaded wk.metadata.chunkInfo
  | .claimed k => .claimed k
  | .request k | .receive k | .store k _ | .update k => .holding k
  | .updateLocked k => .returning k
  | .updateLoaded k => .reloaded k wk.metadata.chunkInfo
  | .updated c => .returned (c = -1)
  | .looping c => ClaimTable.Phase.resume (c = -1)
  | .exited => .left wk.sock_error
  | .dead k => .dead k

/-- The chunk table; after `KillClient` the one it found. -/
def State.table (s : State) : List ChunkInfo :=
  match s.pc with
  | .reset before => before
  | _ => s.mdata.chunkInfo

def view (s : State) : ClaimTable.State ChunkInfo Nat :=
  ⟨s.table, s.lock, fun w => phase (s.workers w)⟩

/-- What a step is to the table. -/
def label (s : State) : Act → Option (ClaimTable.Act ChunkInfo (Bool × Digest) Nat)
  | .parent .save | .parent .finish => some (.overwrite s.metadata.chunkInfo)
  | .parent .fork =>
    match s.pc with
    | .forking i => some (.start i)
    | _ => none
  | .worker w .lock => some (.lock w)
  | .worker w .load => some (.load w)
  | .worker w .claim => some (.claim w)
  | .worker w .giveUp => some (.giveUp w)
  | .worker w .release => some (.release w)
  | .worker w .sigpipe =>
    match (s.workers w).pc with
    | .request _ => some (.die w)
    | _ => none
  | .worker w (.receive script) =>
    match (s.workers w).pc with
    | .receive k =>
      match ((receive s w k script).workers w).pc with
      | .dead _ => some (.die w)
      | _ => none
    | _ => none
  | .worker w .update => some (.settle w ((s.workers w).sock_error, (s.workers w).rcv_md5sum))
  | .worker w .test =>
    match (s.workers w).pc with
    | .looping c => if c ≠ -1 ∧ s.kill_proc = true then some (.quit w) else none
    | _ => none
  | _ => none

/-! ### The order of a run -/

/-- `sock_error` is set on the way to an update only, and tells how the loop ends. -/
def SockErrorOk (wk : Worker) : Prop :=
  match wk.pc with
  | .notForked | .update _ | .updateLocked _ | .updateLoaded _ | .exited | .killed | .dead _ => True
  | .updated c | .looping c => wk.sock_error = true ↔ c = -1
  | _ => wk.sock_error = false

/-- The parent is alone until it forks and after it has waited, and what it has loaded
then is what is there. -/
structure Orderly (s : State) : Prop where
  early : s.pc = .start ∨ s.pc = .loaded → ∀ w, (s.workers w).pc = .notForked
  forked : ∀ i, s.pc = .forking i → ∀ w, i ≤ w → (s.workers w).pc = .notForked
  outside : ∀ w, s.numClient ≤ w → (s.workers w).pc = .notForked
  late : (s.pc = .finalLoaded ∨ s.pc = .ended ∨ s.pc = .killLoaded ∨ ∃ t, s.pc = .reset t) →
    s.AllFinished
  fresh : s.pc = .loaded ∨ s.pc = .finalLoaded ∨ s.pc = .killLoaded →
    s.metadata.chunkInfo = s.mdata.chunkInfo
  reset : ∀ t, s.pc = .reset t → s.mdata.chunkInfo = t.map Metadata.resetDownloading
  sock_error : ∀ w, SockErrorOk (s.workers w)

theorem Initial.orderly {s : State} (h : Initial s) : Orderly s where
  early := fun _ => h.workers
  forked := fun i hi => by rw [h.pc] at hi; cases hi
  outside := fun w _ => h.workers w
  late := fun hl => by simp [h.pc] at hl
  fresh := fun hf => by simp [h.pc] at hf
  reset := fun t ht => by rw [h.pc] at ht; cases ht
  sock_error := fun w => by unfold SockErrorOk; rw [h.workers w]; trivial

section Orderly
variable {s s' : State} {w : Nat}

/-- A worker that goes on was forked by a parent that has not waited for it. -/
theorem Orderly.active (hs : Orderly s) (hw : (s.workers w).pc.finished = false) :
    (∃ i, s.pc = .forking i) ∨ s.pc = .aborted ∨ s.pc = .killWait := by
  have hforked : (s.workers w).pc ≠ .notForked := fun h => by rw [h] at hw; cases hw
  have hlt : w < s.numClient := by
    by_contra hle
    exact hforked (hs.outside w (not_lt.mp hle))
  have hlate : ¬ s.AllFinished := fun h => by rw [h w hlt] at hw; cases hw
  cases hpc : s.pc with
  | start => exact absurd (hs.early (Or.inl hpc) w) hforked
  | loaded => exact absurd (hs.early (Or.inr hpc) w) hforked
  | forking i => exact Or.inl ⟨i, rfl⟩
  | finalLoaded => exact absurd (hs.late (Or.inl hpc)) hlate
  | ended => exact absurd (hs.late (Or.inr (Or.inl hpc))) hlate
  | aborted => exact Or.inr (Or.inl rfl)
  | killWait => exact Or.inr (Or.inr rfl)
  | killLoaded => exact absurd (hs.late (Or.inr (Or.inr (Or.inl hpc)))) hlate
  | reset t => exact absurd (hs.late (Or.inr (Or.inr (Or.inr ⟨t, hpc⟩)))) hlate

/-- While a worker goes on the parent has not reset the table. -/
theorem Orderly.not_reset (hs : Orderly s) (hw : (s.workers w).pc.finished = false) (t) :
    s.pc ≠ .reset t := by
  rcases hs.active hw with ⟨i, h⟩ | h | h <;> simp [h]

theorem State.table_eq (h : ∀ t, s.pc ≠ .reset t) : s.table = s.mdata.chunkInfo := by
  unfold State.table
  split
  · next t ht => exact absurd ht (h t)
  · rfl

/-- A step of one worker. -/
theorem Orderly.worker (hs : Orderly s) (hw : (s.workers w).pc.finished = false) {wk : Worker}
    (hpc : s'.pc = s.pc) (hnum : s'.numClient = s.numClient)
    (hworkers : s'.workers = update s.workers w wk) (hwk : SockErrorOk wk) : Orderly s' := by
  have hforked : (s.workers w).pc ≠ .notForked := fun h => by rw [h] at hw; cases hw
  have habsent : ∀ v, (s.workers v).pc = .notForked → (s'.workers v).pc = .notForked := by
    intro v hv
    have hne : v ≠ w := fun he => hforked (he ▸ hv)
    rw [hworkers, update_of_ne _ _ hne]
    exact hv
  have hactive : (∃ i, s'.pc = .forking i) ∨ s'.pc = .aborted ∨ s'.pc = .killWait := by
    rw [hpc]; exact hs.active hw
  refine ⟨fun h => ?_, fun i hi v hv => habsent v (hs.forked i (hpc ▸ hi) v hv),
    fun v hv => habsent v (hs.outside v (hnum ▸ hv)), fun h => ?_, fun h => ?_, fun t ht => ?_,
    fun v => ?_⟩
  · rcases hactive with ⟨i, hi⟩ | hi | hi <;> simp [hi] at h
  · rcases hactive with ⟨i, hi⟩ | hi | hi <;> simp [hi] at h
  · rcases hactive with ⟨i, hi⟩ | hi | hi <;> simp [hi] at h
  · rcases hactive with ⟨i, hi⟩ | hi | hi <;> simp [hi] at ht
  · rw [hworkers]
    exact forall_update hwk hs.sock_error v

/-- A step of the parent that forks nothing. -/
theorem Orderly.parent (hs : Orderly s) (hnum : s'.numClient = s.numClient)
    (hworkers : s'.workers = s.workers)
    (early : s'.pc = .start ∨ s'.pc = .loaded → ∀ w, (s.workers w).pc = .notForked)
    (forked : ∀ i, s'.pc = .forking i → ∀ w, (s.workers w).pc = .notForked)
    (late : (s'.pc = .finalLoaded ∨ s'.pc = .ended ∨ s'.pc = .killLoaded ∨
      ∃ t, s'.pc = .reset t) → s.AllFinished)
    (fresh : s'.pc = .loaded ∨ s'.pc = .finalLoaded ∨ s'.pc = .killLoaded →
      s'.metadata.chunkInfo = s'.mdata.chunkInfo)
    (reset : ∀ t, s'.pc = .reset t →
      s'.mdata.chunkInfo = t.map Metadata.resetDownloading) : Orderly s' where
  early := hworkers ▸ early
  forked := fun i hi w _ => hworkers ▸ forked i hi w
  outside := hworkers ▸ hnum ▸ hs.outside
  late := fun h => by unfold State.AllFinished; rw [hworkers, hnum]; exact late h
  fresh := fresh
  reset := reset
  sock_error := hworkers ▸ hs.sock_error

theorem orderly_step {md5 : Md5} {a : Act} (hs : Orderly s)
    (h : (machine md5).step s a = some s') : Orderly s' := by
  have sock (w : Nat) := hs.sock_error w
  cases step_cases h with
  | load hpc =>
    exact hs.parent rfl rfl (fun _ => hs.early (Or.inl hpc)) (by simp) (by simp) (by simp) (by simp)
  | save hpc =>
    exact hs.parent rfl rfl (by simp) (fun _ _ => hs.early (Or.inr hpc)) (by simp) (by simp)
      (by simp)
  | refuse | forkFails | sigint =>
    exact hs.parent rfl rfl (by simp) (by simp) (by simp) (by simp) (by simp)
  | wait _ hall | killLoad _ hall =>
    exact hs.parent rfl rfl (by simp) (by simp) (fun _ => hall) (by simp) (by simp)
  | finish hpc =>
    exact hs.parent rfl rfl (by simp) (by simp) (fun _ => hs.late (Or.inl hpc)) (by simp)
      (by simp)
  | killSave hpc =>
    exact hs.parent rfl rfl (by simp) (by simp)
      (fun _ => hs.late (Or.inr (Or.inr (Or.inl hpc)))) (by simp)
      (by simp [Metadata.resetDownloadingChunks])
  | @fork i hpc hn hi =>
    refine ⟨by simp, fun j hj w hw => ?_, fun w hw => ?_, by simp, by simp, by simp,
      fun w => ?_⟩
    · obtain rfl := ParentPc.forking.inj hj
      show (update s.workers i _ w).pc = _
      rw [update_of_ne _ _ (by omega)]
      exact hs.forked i hpc w (by omega)
    · change s.numClient ≤ w at hw
      show (update s.workers i _ w).pc = _
      rw [update_of_ne _ _ (by omega)]
      exact hs.outside w hw
    · exact forall_update (show SockErrorOk (forked s i) from rfl) hs.sock_error w
  | @«open» w hw | @lockClaim w _ hw | @loadClaim w hw | @claim w _ _ hw
  | @releaseClaim w _ hw | @request w _ hw =>
    refine hs.worker (by rw [hw]; rfl) rfl rfl rfl ?_
    have := sock w
    rw [SockErrorOk, hw] at this
    exact this
  | @lockUpdate w _ _ hw | @loadUpdate w _ hw | @giveUp w hw | @sigpipeStart w hw
  | @sigpipeRequest w _ hw =>
    exact hs.worker (by rw [hw]; rfl) rfl rfl rfl trivial
  | @store w _ _ _ hw =>
    exact hs.worker (by rw [hw]; rfl) rfl rfl rfl trivial
  | @releaseUpdate w c hw =>
    refine hs.worker (by rw [hw]; rfl) rfl rfl rfl ?_
    have := sock w
    rw [SockErrorOk, hw] at this
    exact this
  | @receive w k script hw =>
    obtain ⟨wk, toClient, he, -, -, hcase⟩ := receive_cases s w k script
    rw [he]
    refine hs.worker (by rw [hw]; rfl) rfl rfl rfl ?_
    have := sock w
    rw [SockErrorOk, hw] at this
    rcases hcase with ⟨hpc, -⟩ | hpc | ⟨data, size, hpc, hse, -⟩
    · rw [SockErrorOk, hpc]; trivial
    · rw [SockErrorOk, hpc]; trivial
    · rw [SockErrorOk, hpc]; exact hse.trans this
  | @update w k m hw =>
    refine hs.worker (by rw [hw]; rfl) rfl rfl rfl ?_
    show (s.workers w).sock_error = true ↔ (if (s.workers w).sock_error then -1 else (k : Int)) = -1
    cases (s.workers w).sock_error <;> simp
  | @test w c hw =>
    have := sock w
    rw [SockErrorOk, hw] at this
    refine hs.worker (by rw [hw]; rfl) rfl rfl rfl ?_
    split
    · next hc => exact Bool.eq_false_iff.mpr fun h => hc.1 (this.mp h)
    · trivial
  | server => exact ⟨hs.early, hs.forked, hs.outside, hs.late, hs.fresh, hs.reset, hs.sock_error⟩

/-! ### The table's steps -/

/-- A step that moves one worker is a step of the table, if it does the same to it. -/
theorem follows_worker {a : ClaimTable.Act ChunkInfo (Bool × Digest) Nat} {t : List ChunkInfo}
    {l : Option Nat} {x : ClaimTable.Phase ChunkInfo} {wk : Worker}
    (hstep : ClaimTable.Step rules (view s) a ⟨t, l, update (view s).phase w x⟩)
    (hworkers : s'.workers = update s.workers w wk) (ht : s'.table = t) (hl : s'.lock = l)
    (hx : phase wk = x) : (ClaimTable.machine rules).Follows (view s) (view s') (some a) := by
  subst ht hl
  exact hstep.follows hworkers hx

/-- A step that the table does not see. -/
theorem follows_silent {wk : Worker} (hworkers : s'.workers = update s.workers w wk)
    (ht : s'.table = s.table) (hl : s'.lock = s.lock) (hx : phase (s.workers w) = phase wk) :
    (ClaimTable.machine rules).Follows (view s) (view s') none := by
  unfold view
  rw [ht, hl]
  exact ClaimTable.follows_silent hworkers hx

/-- **Each step of a download run is one of the table's**, or the table does not see it. -/
theorem view_step {md5 : Md5} {a : Act} (hs : Orderly s)
    (h : (machine md5).step s a = some s') :
    (ClaimTable.machine rules).Follows (view s) (view s') (label s a) := by
  have htable {w : Nat} (hw : (s.workers w).pc.finished = false) := hs.not_reset hw
  cases step_cases h with
  | load hpc | refuse hpc | forkFails hpc | wait hpc | killLoad hpc | server =>
    simp [label, Machine.Follows, view, State.table, *]
  | sigint hpc =>
    rcases hpc with hpc | hpc | ⟨i, hpc⟩ | hpc <;>
      simp [label, Machine.Follows, view, State.table, hpc]
  | killSave hpc =>
    have := hs.fresh (Or.inr (Or.inr hpc))
    simp [label, Machine.Follows, view, State.table, hpc, this]
  | save | finish => exact ClaimTable.Step.overwrite.step
  | @fork i hpc hn hi =>
    have habsent := hs.forked i hpc i le_rfl
    simp only [label, hpc]
    refine follows_worker (.start (by simp [view, phase, habsent])) rfl ?_ rfl rfl
    simp [State.table, hpc, view, State.setWorker]
  | @«open» w hw =>
    exact follows_silent (w := w) rfl rfl rfl (by simp [phase, hw])
  | @request w k hw =>
    exact follows_silent (w := w) rfl rfl rfl (by simp [phase, hw])
  | @sigpipeStart w hw =>
    simp only [label, hw]
    exact follows_silent (w := w) rfl rfl rfl (by simp [phase, hw])
  | @sigpipeRequest w k hw =>
    simp only [label, hw]
    exact follows_worker (.die (i := k) (by simp [view, phase, hw])) rfl rfl rfl rfl
  | @store w k data pos hw =>
    exact follows_silent (w := w) rfl rfl rfl (by simp [phase, hw])
  | @receive w k script hw =>
    obtain ⟨wk, toClient, he, -, -, hcase⟩ := receive_cases s w k script
    have hpc' : ((receive s w k script).workers w).pc = wk.pc := by
      rw [he]; exact congrArg Worker.pc (update_self _ _ _)
    simp only [label, hw, hpc']
    rw [he]
    rcases hcase with ⟨hpc, -⟩ | hpc | ⟨data, size, hpc, -⟩
    · rw [hpc]; exact follows_silent (w := w) rfl rfl rfl (by simp [phase, hw, hpc])
    · rw [hpc]
      exact follows_worker (.die (i := k) (by simp [view, phase, hw])) rfl rfl rfl
        (by simp [phase, hpc])
    · rw [hpc]; exact follows_silent (w := w) rfl rfl rfl (by simp [phase, hw, hpc])
  | @lockClaim w hl hw =>
    exact follows_worker (.lockClaim hl (by simp [view, phase, hw])) rfl rfl rfl rfl
  | @lockUpdate w k hl hw =>
    exact follows_worker (.lockSettle hl (by simp [view, phase, hw])) rfl rfl rfl rfl
  | @loadClaim w hw =>
    refine follows_worker (.loadClaim (by simp [view, phase, hw])) rfl rfl rfl ?_
    exact congrArg _ (State.table_eq (htable (by rw [hw]; rfl))).symm
  | @loadUpdate w k hw =>
    refine follows_worker (.loadSettle (i := k) (by simp [view, phase, hw])) rfl rfl rfl ?_
    exact congrArg _ (State.table_eq (htable (by rw [hw]; rfl))).symm
  | @claim w k m hw hk hm =>
    subst hm
    refine follows_worker (.claim (by simp [view, phase, hw]) hk) rfl ?_ rfl rfl
    exact State.table_eq (htable (w := w) (by rw [hw]; rfl))
  | @giveUp w hw hk =>
    have := hs.sock_error w
    rw [SockErrorOk, hw] at this
    exact follows_worker (.giveUp (by simp [view, phase, hw]) hk) rfl rfl rfl
      (congrArg _ this)
  | @releaseClaim w k hw =>
    exact follows_worker (.releaseClaim (by simp [view, phase, hw])) rfl rfl rfl rfl
  | @releaseUpdate w c hw =>
    exact follows_worker (.releaseSettle (by simp [view, phase, hw])) rfl rfl rfl rfl
  | @update w k m hw hm =>
    subst hm
    refine follows_worker (.settle (i := k) (t := (s.workers w).metadata.chunkInfo)
      (by simp [view, phase, hw])) rfl ?_ rfl ?_
    · exact State.table_eq (htable (w := w) (by rw [hw]; rfl))
    · show ClaimTable.Phase.returned (decide ((if _ then (-1 : Int) else k) = -1)) = .returned _
      cases hse : (s.workers w).sock_error <;> simp [rules, claimRules]
  | @test w c hw =>
    -- the loop ends after a failure, and when the client is killed
    have := hs.sock_error w
    rw [SockErrorOk, hw] at this
    simp only [label, hw]
    by_cases hc : c = -1
    · subst hc
      simp only [ne_eq, not_true_eq_false, false_and, if_false]
      exact follows_silent (w := w) rfl rfl rfl
        (by simp [phase, hw, this.mpr rfl, ClaimTable.Phase.resume])
    · have hse : (s.workers w).sock_error = false := Bool.eq_false_iff.mpr (mt this.mp hc)
      have hidle : phase (s.workers w) = .idle := by simp [phase, hw, hc, ClaimTable.Phase.resume]
      cases hk : s.kill_proc with
      | true =>
        simp only [hc, ne_eq, not_false_eq_true, true_and, if_true, Bool.true_eq_false, if_false]
        exact follows_worker (.quit hidle) rfl rfl rfl (by simp [phase, hse])
      | false =>
        simp only [hc, ne_eq, not_false_eq_true, true_and, if_true, Bool.false_eq_true, if_false]
        exact follows_silent (w := w) rfl rfl rfl (by rw [hidle]; rfl)

end Orderly

/-- A download run is a run of the chunk table. -/
def simulation (md5 : Md5) :
    Machine.Simulation (machine md5)
      (ClaimTable.machine rules : Machine (ClaimTable.State ChunkInfo Nat) _) where
  view := view
  inv := Orderly
  guard := fun _ _ _ => True
  label := label
  preserves := fun _ _ _ hs _ h => orderly_step hs h
  simulates := fun _ _ _ hs _ h => view_step hs h

/-! ### Claims are exclusive, and no update is lost -/

/-- The chunk a worker has claimed and not finished. -/
def WorkerPc.chunk : WorkerPc → Option Nat
  | claimed k | request k | receive k | store k _ | update k | updateLocked k | updateLoaded k
  | dead k => some k
  | _ => none

/-- The worker has got as far as its loop. -/
def WorkerPc.engaged : WorkerPc → Bool
  | notForked | start | killed => false
  | _ => true

/-- Worker `w` holds chunk `k`. -/
def State.Holds (s : State) (w k : Nat) : Prop := (s.workers w).pc.chunk = some k

theorem phase_holds (wk : Worker) : (phase wk).holds = wk.pc.chunk := by
  unfold phase
  cases wk.pc with
  | looping c => by_cases hc : c = -1 <;> simp [hc, ClaimTable.Phase.resume] <;> rfl
  | _ => rfl

/-- A state of a run that began with the table `t₀`. -/
structure Sound (t₀ : List ChunkInfo) (s : State) : Prop extends Orderly s where
  valid : ClaimTable.Valid rules (view s)
  since : ClaimTable.Since rules t₀ (view s)

/-- How a step changes the entry of chunk `k`: a worker claims it when nobody holds it,
the worker that holds it finishes it, or `KillClient` resets it. -/
inductive Changes (s : State) (a : Act) (s' : State) (k : Nat) (c c' : ChunkInfo) : Prop
  | claims (w : Nat) : a = .worker w .claim → Metadata.claimable c = true →
      (∀ v, ¬ s.Holds v k) → s'.Holds w k → c' = Metadata.setStatus .chDownload none c →
      Changes s a s' k c c'
  | finishes (w : Nat) : a = .worker w .update → s.Holds w k → c.status = .chDownload →
      c'.status = .chOk ∨ c'.status = .chError → Changes s a s' k c c'
  | resets : a = .parent .killSave → c' = Metadata.resetDownloading c → Changes s a s' k c c'

section Sound
variable {md5 : Md5} {t₀ : List ChunkInfo} {s s' : State} {a : Act}

theorem Initial.view {s : State} (h : Initial s) :
    view s = ClaimTable.initial s.mdata.chunkInfo := by
  have hphase : (fun w => phase (s.workers w)) = fun _ => .absent := by
    funext w
    rw [phase, h.workers w]
  rw [Download.view, State.table, h.pc, h.lock, hphase]
  rfl

theorem Initial.sound {s : State} (h : Initial s) : Sound s.mdata.chunkInfo s where
  toOrderly := h.orderly
  valid := h.view ▸ ClaimTable.valid_initial rules _
  since := h.view ▸ ClaimTable.since_initial rules _

/-- The parent saves what is there. -/
theorem harmless_label (hs : Orderly s) (h : (machine md5).step s a = some s')
    {b : ClaimTable.Act ChunkInfo (Bool × Digest) Nat} (hb : label s a = some b) :
    ClaimTable.Harmless (view s) b := by
  cases b with
  | overwrite t =>
    cases step_cases h with
    | save hpc | finish hpc =>
      cases hb
      show s.metadata.chunkInfo = s.table
      rw [hs.fresh (by simp [hpc]), State.table_eq (by simp [hpc])]
    | @receive w k script hw =>
      simp only [label, hw] at hb
      split at hb <;> cases hb
    | fork | sigpipeStart | sigpipeRequest | test =>
      simp only [label] at hb
      repeat (first | cases hb | split at hb)
    | _ => cases hb
  | _ => trivial

theorem sound_step (hs : Sound t₀ s) (h : (machine md5).step s a = some s') : Sound t₀ s' := by
  have hfollows := view_step hs.toOrderly h
  cases hl : label s a with
  | none =>
    rw [hl] at hfollows
    have hv : view s' = view s := hfollows
    exact ⟨orderly_step hs.toOrderly h, hv ▸ hs.valid, hv ▸ hs.since⟩
  | some b =>
    rw [hl] at hfollows
    have hb := harmless_label hs.toOrderly h hl
    exact ⟨orderly_step hs.toOrderly h, ClaimTable.valid_step hs.valid hb hfollows,
      ClaimTable.since_step hs.valid hs.since hb hfollows⟩

theorem sound_run {as : List Act} (hs : Sound t₀ s) (hr : (machine md5).run s as = some s') :
    Sound t₀ s' :=
  Machine.run_invariant_of_step (fun _ _ _ hs h => sound_step hs h) hs hr

theorem Sound.unique (hs : Sound t₀ s) {w v k : Nat} (hw : s.Holds w k) (hv : s.Holds v k) :
    w = v :=
  hs.valid.unique w v k ((phase_holds _).trans hw) ((phase_holds _).trans hv)

/-- The entry of a chunk that is held is CH_DOWNLOAD, until `KillClient` resets it. -/
theorem Sound.marked (hs : Sound t₀ s) (hpc : ∀ t, s.pc ≠ .reset t) {w k : Nat}
    (hw : s.Holds w k) : ∃ c, s.mdata.chunkInfo[k]? = some c ∧ c.status = .chDownload := by
  obtain ⟨c, hc, hheld⟩ := hs.valid.marked w k ((phase_holds _).trans hw)
  rw [← State.table_eq hpc]
  exact ⟨c, hc, of_decide_eq_true hheld⟩

/-- A chunk that turned CH_DOWNLOAD is held. -/
theorem Sound.held (hs : Sound t₀ s) {k : Nat} {c : ChunkInfo}
    (hc : s.mdata.chunkInfo[k]? = some c) (hstatus : c.status = .chDownload)
    (hturned : ∀ c₀, t₀[k]? = some c₀ → c₀.status ≠ .chDownload) : ∃ w, s.Holds w k := by
  have hpc : ∀ t, s.pc ≠ .reset t := by
    intro t ht
    rw [hs.reset t ht, List.getElem?_map] at hc
    obtain ⟨c', -, rfl⟩ := Option.map_eq_some_iff.mp hc
    unfold Metadata.resetDownloading at hstatus
    split at hstatus
    · cases hstatus
    · next h => exact h (Or.inl hstatus)
  rw [← State.table_eq hpc] at hc
  obtain ⟨c₀, hc₀, h⟩ := hs.since.entry k c hc
  rcases h with rfl | ⟨-, ⟨hfree, -⟩ | hsettled | ⟨-, w, hw⟩⟩
  · exact absurd hstatus (hturned c hc₀)
  · have : Metadata.claimable c = true := hfree
    simp [Metadata.claimable, hstatus] at this
  · have : c.status = .chOk := of_decide_eq_true hsettled
    rw [hstatus] at this
    cases this
  · exact ⟨w, (phase_holds _).symm.trans hw⟩

/-- What the table's step does to an entry of the .mdata file. -/
theorem Sound.entry_step (hs : Sound t₀ s) (h : (machine md5).step s a = some s')
    {b : ClaimTable.Act ChunkInfo (Bool × Digest) Nat} (hb : label s a = some b)
    (hpc : ∀ t, s.pc ≠ .reset t) (hpc' : ∀ t, s'.pc ≠ .reset t) {k : Nat} {c c' : ChunkInfo}
    (hc : s.mdata.chunkInfo[k]? = some c) (hc' : s'.mdata.chunkInfo[k]? = some c') : c' = c ∨
      (∃ w, b = .claim w ∧ rules.free c = true ∧ ((view s').phase w).holds = some k ∧
        c' = rules.mark c) ∨
      (∃ w o, b = .settle w o ∧ ((view s).phase w).holds = some k ∧ rules.held c = true ∧
        c' = rules.settle o c) := by
  have hfollows := view_step hs.toOrderly h
  rw [hb] at hfollows
  rw [← State.table_eq hpc] at hc
  rw [← State.table_eq hpc'] at hc'
  exact ClaimTable.entry_step hs.valid (harmless_label hs.toOrderly h hb) hfollows hc hc'

/-- **What one step does to an entry.** -/
theorem Sound.changes (hs : Sound t₀ s) (h : (machine md5).step s a = some s') {k : Nat}
    {c c' : ChunkInfo} (hc : s.mdata.chunkInfo[k]? = some c)
    (hc' : s'.mdata.chunkInfo[k]? = some c') : c' = c ∨ Changes s a s' k c c' := by
  have kept : s'.mdata.chunkInfo = s.mdata.chunkInfo → c' = c := fun ht => by
    rw [ht] at hc'
    exact Option.some.inj (hc'.symm.trans hc)
  cases step_cases h with
  | save hpc | finish hpc => exact Or.inl (kept (hs.fresh (by simp [hpc])))
  | killSave hpc =>
    refine Or.inr (.resets rfl ?_)
    have hmap : s.metadata.chunkInfo.map Metadata.resetDownloading =
        s.mdata.chunkInfo.map Metadata.resetDownloading := by rw [hs.fresh (by simp [hpc])]
    have hc'' : (s.metadata.chunkInfo.map Metadata.resetDownloading)[k]? = some c' := hc'
    rw [hmap, List.getElem?_map, hc] at hc''
    exact (Option.some.inj hc'').symm
  | @claim w j m hw hj hm =>
    have hpc := hs.not_reset (w := w) (by rw [hw]; rfl)
    rcases hs.entry_step h (b := .claim w) rfl hpc hpc hc hc' with
      he | ⟨v, hv, hfree, hholds, he⟩ | ⟨v, o, hv, -⟩
    · exact Or.inl he
    · -- an entry on offer is not marked, so nobody holds its chunk
      obtain rfl := ClaimTable.Act.claim.inj hv
      refine Or.inr (.claims w rfl hfree (fun v hv => ?_) ((phase_holds _).symm.trans hholds) he)
      obtain ⟨c₁, hc₁, hstatus⟩ := hs.marked hpc hv
      obtain rfl := Option.some.inj (hc.symm.trans hc₁)
      have hclaimable : Metadata.claimable c = true := hfree
      simp [Metadata.claimable, hstatus] at hclaimable
    · cases hv
  | @update w j m hw hm =>
    have hpc := hs.not_reset (w := w) (by rw [hw]; rfl)
    rcases hs.entry_step h (b := .settle w _) rfl hpc hpc hc hc' with
      he | ⟨v, hv, -⟩ | ⟨v, o, hv, hholds, hheld, he⟩
    · exact Or.inl he
    · cases hv
    · obtain ⟨rfl, rfl⟩ := ClaimTable.Act.settle.inj hv
      refine Or.inr (.finishes w rfl ((phase_holds _).symm.trans hholds)
        (of_decide_eq_true hheld) ?_)
      rw [he]
      cases (s.workers w).sock_error
      · exact Or.inl rfl
      · exact Or.inr rfl
  | receive hw =>
    obtain ⟨wk, toClient, he, -⟩ := receive_cases s _ _ _
    exact Or.inl (kept (by rw [he]; rfl))
  | _ => exact Or.inl (kept rfl)

theorem Sound.length (hs : Sound t₀ s) : s.mdata.chunkInfo.length = t₀.length := by
  have hlen : s.table.length = t₀.length := hs.since.length
  rw [← hlen, State.table]
  split
  · next t ht => rw [hs.reset t ht, List.length_map]
  · rfl

/-- A chunk that is CH_OK stays so, with its md5sum. -/
theorem Sound.ok_kept (hs : Sound t₀ s) (h : (machine md5).step s a = some s') {k : Nat}
    {c : ChunkInfo} (hc : s.mdata.chunkInfo[k]? = some c) (hok : c.status = .chOk) :
    s'.mdata.chunkInfo[k]? = some c := by
  have hlt : k < s'.mdata.chunkInfo.length := by
    rw [(sound_step hs h).length, ← hs.length]
    exact (List.getElem?_eq_some_iff.mp hc).1
  have hc' := List.getElem?_eq_getElem hlt
  rcases hs.changes h hc hc' with he | ⟨w, -, hfree, -⟩ | ⟨w, -, -, hstatus, -⟩ | ⟨-, he⟩
  · rw [hc', he]
  · simp [Metadata.claimable, hok] at hfree
  · rw [hok] at hstatus
    cases hstatus
  · rw [hc', he, Metadata.resetDownloading, if_neg (by simp [hok])]

theorem Sound.ok_run {as : List Act} (hs : Sound t₀ s) (hr : (machine md5).run s as = some s')
    {k : Nat} {c : ChunkInfo} (hc : s.mdata.chunkInfo[k]? = some c) (hok : c.status = .chOk) :
    s'.mdata.chunkInfo[k]? = some c :=
  (Machine.run_invariant_of_step (I := fun u => Sound t₀ u ∧ u.mdata.chunkInfo[k]? = some c)
    (fun _ _ _ hu h => ⟨sound_step hu.1 h, hu.1.ok_kept h hu.2 hok⟩) ⟨hs, hc⟩ hr).2

end Sound

/-- **Claims are exclusive and no update is lost.**  In every state of a download run no
chunk is held by two workers; a chunk that turned CH_DOWNLOAD is held by exactly one, and
a chunk that is held is CH_DOWNLOAD until `KillClient` resets the table; a step changes
an entry only as the claim or the finish of the worker whose chunk it is, or as that
reset; and a chunk that is CH_OK stays CH_OK with the same md5sum. -/
theorem exclusive_claims (md5 : Md5) {s₀ s : State} {as : List Act} (h₀ : Initial s₀)
    (hr : (machine md5).run s₀ as = some s) :
    (∀ w v k, s.Holds w k → s.Holds v k → w = v) ∧
    (∀ k c, s.mdata.chunkInfo[k]? = some c → c.status = .chDownload →
      (∀ c₀, s₀.mdata.chunkInfo[k]? = some c₀ → c₀.status ≠ .chDownload) →
      ∃ w, s.Holds w k ∧ ∀ v, s.Holds v k → v = w) ∧
    (∀ w k, (∀ t, s.pc ≠ .reset t) → s.Holds w k →
      ∃ c, s.mdata.chunkInfo[k]? = some c ∧ c.status = .chDownload) ∧
    (∀ a s', (machine md5).step s a = some s' → ∀ k c c', s.mdata.chunkInfo[k]? = some c →
      s'.mdata.chunkInfo[k]? = some c' → c' = c ∨ Changes s a s' k c c') ∧
    (∀ bs s', (machine md5).run s bs = some s' → ∀ (k : Nat) (c : ChunkInfo),
      s.mdata.chunkInfo[k]? = some c → c.status = .chOk → s'.mdata.chunkInfo[k]? = some c) := by
  have hs := sound_run h₀.sound hr
  refine ⟨fun w v k => hs.unique, fun k c hc hstatus hturned => ?_,
    fun w k hpc => hs.marked hpc, fun a s' h k c c' => hs.changes h,
    fun bs s' hbs k c => hs.ok_run hbs⟩
  obtain ⟨w, hw⟩ := hs.held hc hstatus hturned
  exact ⟨w, hw, fun v hv => hs.unique hv hw⟩

/-- One chunk of one byte, two workers, and one of them claims the chunk. -/
def sampleClaim : List Act :=
  [.parent .load, .parent .save, .parent .fork, .parent .fork, .worker 0 .open, .worker 1 .open,
    .worker 1 .lock, .worker 1 .load, .worker 1 .claim, .worker 1 .release]

def sampleName : FName := (Buffer.zero _).overlay [97]

def sampleMetadata : Metadata :=
  (createHeader (fun _ => Buffer.zero _) sampleName [7] 1).fresh 0

theorem exclusive_claims_sample :
    ∃ s, (machine fun _ => Buffer.zero _).run (.begin 2 sampleMetadata [] fun _ => none)
        sampleClaim = some s ∧ s.Holds 1 0 ∧ ∀ v, s.Holds v 0 → v = 1 := by
  have hsome : ((machine fun _ => Buffer.zero _).run (.begin 2 sampleMetadata [] fun _ => none)
      sampleClaim).isSome = true := by decide +kernel
  obtain ⟨s, hs⟩ := Option.isSome_iff_exists.mp hsome
  have hholds : s.Holds 1 0 := by
    have : (((machine fun _ => Buffer.zero _).run (.begin 2 sampleMetadata [] fun _ => none)
        sampleClaim).map fun s => (s.workers 1).pc.chunk) = some (some 0) := by decide +kernel
    rw [hs] at this
    exact Option.some.inj this
  have hunique := (exclusive_claims _ (initial_begin _ _ _ _) hs).1
  exact ⟨s, hs, hholds, fun v hv => hunique v 1 0 hv hholds⟩

end Mhftp.Download
