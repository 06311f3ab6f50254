import Mhftp.Library.ClaimStale
import Mhftp.Upload

/-! # The claims of an upload run

Seen through the chunk table, the lock and the workers' program counters, an upload run is
a run of `Library.ClaimTable`, as a download run is.  But here the parent goes on saving
the table it had on its first connection (`Orderly.copy`) while workers change the .mdata
file, so the writer outside the lock need not be harmless.  What a run keeps when it is,
and that it keeps it only then, is `no_lost_update_iff`.
-/

namespace Mhftp.Upload
open Library

/-- A worker settles its chunk with `sock_error` and `snd_md5sum`. -/
def rules : ClaimRules ChunkInfo (Bool × Digest) := claimRules .upload Prod.fst Prod.snd

/-- Where the table sees a worker. -/
def phase (wk : Worker) : ClaimTable.Phase ChunkInfo :=
  match wk.pc with
  | .notForked => .absent
  | .start | .loop | .looping _ | .killed => .idle
  | .claimLocked => .entering
  | .claimLoaded => .loaded wk.metadata.chunkInfo
  | .claimed k => .claimed k
  | .send k | .update k => .holding k
  | .updateLocked k => .returning k
  | .updateLoaded k => .reloaded k wk.metadata.chunkInfo
  | .updated _ => .returned false
  | .exited => .left false
  | .dead k => .dead k

/-- The table that `create` makes for the local file. -/
def State.freshTable (s : State) : List ChunkInfo :=
  (createdMetadata (fun _ => Buffer.zero _) (fun _ => 0) s).chunkInfo

/-- The chunk table; without an .mdata file the one that `create` is going to make. -/
def State.table (s : State) : List ChunkInfo :=
  match s.mdata with
  | some m => m.chunkInfo
  | none => s.freshTable

theorem State.table_of_some {s : State} {m : Metadata} (h : s.mdata = some m) :
    s.table = m.chunkInfo := by
  rw [State.table, h]

theorem State.table_of_none {s : State} (h : s.mdata = none) : s.table = s.freshTable := by
  rw [State.table, h]

def view (s : State) : ClaimTable.State ChunkInfo Nat :=
  ⟨s.table, s.lock, fun w => phase (s.workers w)⟩

/-- What a step is to the table. -/
def label (s : State) : Act → Option (ClaimTable.Act ChunkInfo (Bool × Digest) Nat)
  | .parent .save => some (.overwrite s.metadata.chunkInfo)
  | .parent .fork =>
    match s.pc with
    | .saved i => some (.start i)
    | _ => none
  | .worker w .lock => some (.lock w)
  | .worker w .load => some (.load w)
  | .worker w .claim => some (.claim w)
  | .worker w (.giveUp _) => some (.giveUp w)
  | .worker w .release => some (.release w)
  | .worker w (.send _) =>
    match (s.workers w).pc with
    | .send k => if readChunk s.localFile (s.workers w) k = none then some (.die w) else none
    | _ => none
  | .worker w .sigpipe =>
    match (s.workers w).pc with
    | .send _ => some (.die w)
    | _ => none
  | .worker w .update => some (.settle w ((s.workers w).sock_error, (s.workers w).snd_md5sum))
  | .worker w .test => if s.kill_proc = true then some (.quit w) else none
  | _ => none

/-! ### The order of a run -/

/-- The connection of the parent's turn. -/
def ParentPc.turn : ParentPc → Option Nat
  | loop i | inited i | saved i => some i
  | _ => none

/-- A worker never sets its `sock_error`, so its loop goes on after each chunk. -/
structure SockErrorOk (wk : Worker) : Prop where
  sock_error : wk.pc ≠ .notForked → wk.sock_error = false
  chunkNumber : ∀ c, wk.pc = .updated c ∨ wk.pc = .looping c → c ≠ -1

/-- The parent forks its workers in order, keeps the table `t₀` of the start until all of
them have ended, and then loads what is there. -/
structure Orderly (t₀ : List ChunkInfo) (s : State) : Prop where
  early : s.pc = .loop 0 → s.table = t₀
  copy : ∀ i, s.pc = .loop (i + 1) ∨ s.pc = .inited i ∨ s.pc = .saved i →
    s.metadata.chunkInfo = t₀
  forked : ∀ i, s.pc.turn = some i → ∀ w, i ≤ w → (s.workers w).pc = .notForked
  outside : ∀ w, s.numClient ≤ w → (s.workers w).pc = .notForked
  turn : ∀ i, s.pc = .inited i ∨ s.pc = .saved i → i < s.numClient
  late : s.pc = .finalLoaded ∨ s.pc = .ended → s.AllFinished
  fresh : s.pc = .finalLoaded → s.metadata.chunkInfo = s.table
  file : s.mdata = none → (∀ w, (s.workers w).pc = .notForked) ∧
    (s.pc = .loop 0 ∨ s.pc = .aborted ∨ s.pc = .killWait)
  sock_error : ∀ w, SockErrorOk (s.workers w)

theorem sockErrorOk_notForked {wk : Worker} (h : wk.pc = .notForked) : SockErrorOk wk where
  sock_error := fun hne => absurd h hne
  chunkNumber := fun c hc => by simp [h] at hc

theorem Initial.orderly {s : State} (h : Initial s) : Orderly s.table s where
  early := fun _ => rfl
  copy := fun i hi => by simp [h.pc] at hi
  forked := fun _ _ w _ => h.workers w
  outside := fun w _ => h.workers w
  turn := fun i hi => by simp [h.pc] at hi
  late := fun hl => by simp [h.pc] at hl
  fresh := fun hf => by simp [h.pc] at hf
  file := fun _ => ⟨h.workers, Or.inl h.pc⟩
  sock_error := fun w => sockErrorOk_notForked (h.workers w)

section Orderly
variable {t₀ : List ChunkInfo} {s s' : State} {w : Nat}

/-- While a worker goes on the parent has not waited for it, and the .mdata file is
there. -/
theorem Orderly.active (hs : Orderly t₀ s) (hw : (s.workers w).pc.finished = false) :
    s.pc ≠ .loop 0 ∧ s.pc ≠ .finalLoaded ∧ s.pc ≠ .ended ∧ w < s.numClient ∧
      ∃ m, s.mdata = some m := by
  have hforked : (s.workers w).pc ≠ .notForked := by
    intro h
    simp [h] at hw
  have hlt : w < s.numClient := by
    by_contra hle
    exact hforked (hs.outside w (not_lt.mp hle))
  have hlate : ¬ s.AllFinished := fun h => by rw [h w hlt] at hw; cases hw
  refine ⟨?_, ?_, ?_, hlt, ?_⟩
  · intro h
    exact hforked (hs.forked 0 (by rw [h]; rfl) w (Nat.zero_le w))
  · intro h
    exact hlate (hs.late (Or.inl h))
  · intro h
    exact hlate (hs.late (Or.inr h))
  · cases hm : s.mdata with
    | some m => exact ⟨m, rfl⟩
    | none => exact absurd ((hs.file hm).1 w) hforked

/-- A step of one worker. -/
theorem Orderly.worker (hs : Orderly t₀ s) (hw : (s.workers w).pc.finished = false)
    {wk : Worker} (hpc : s'.pc = s.pc) (hnum : s'.numClient = s.numClient)
    (hmetadata : s'.metadata = s.metadata) (hfile : s.mdata ≠ none → s'.mdata ≠ none)
    (hworkers : s'.workers = update s.workers w wk) (hwk : SockErrorOk wk) : Orderly t₀ s' := by
  obtain ⟨hearly, hfinal, hended, -, m, hm⟩ := hs.active hw
  have habsent : ∀ v, (s.workers v).pc = .notForked → (s'.workers v).pc = .notForked := by
    intro v hv
    have hne : v ≠ w := by
      rintro rfl
      simp [hv] at hw
    rw [hworkers, update_of_ne _ _ hne]
    exact hv
  constructor
  · intro h
    exact absurd (hpc ▸ h) hearly
  · rw [hpc, hmetadata]
    exact hs.copy
  · rw [hpc]
    intro i hi v hv
    exact habsent v (hs.forked i hi v hv)
  · rw [hnum]
    intro v hv
    exact habsent v (hs.outside v hv)
  · rw [hpc, hnum]
    exact hs.turn
  · rw [hpc]
    intro h
    exact absurd h (by simp [hfinal, hended])
  · intro h
    exact absurd (hpc ▸ h) hfinal
  · intro h
    exact absurd h (hfile (by simp [hm]))
  · intro v
    rw [hworkers]
    exact forall_update hwk hs.sock_error v

/-- The parent goes to where it has no turn any more. -/
theorem Orderly.leave (hs : Orderly t₀ s) (hnum : s'.numClient = s.numClient)
    (hmdata : s'.mdata = s.mdata) (hworkers : s'.workers = s.workers)
    (hpc : s'.pc = .aborted ∨ s'.pc = .killWait) : Orderly t₀ s' where
  early := fun h => by simp [h] at hpc
  copy := fun i h => by rcases h with h | h | h <;> simp [h] at hpc
  forked := fun i h => by rcases hpc with hpc | hpc <;> simp [hpc, ParentPc.turn] at h
  outside := by rw [hnum, hworkers]; exact hs.outside
  turn := fun i h => by rcases h with h | h <;> simp [h] at hpc
  late := fun h => by rcases h with h | h <;> simp [h] at hpc
  fresh := fun h => by simp [h] at hpc
  file := fun h => by rw [hworkers]; exact ⟨(hs.file (hmdata ▸ h)).1, Or.inr hpc⟩
  sock_error := hworkers ▸ hs.sock_error

/-- What `InitUploadOnServer` makes of the metadata. -/
theorem initMetadata_cases (hs : Orderly t₀ s) {md5 : Md5} {junk : Nat → UInt8} {i : Nat}
    {m : Metadata} {mdata : Option Metadata} (hpc : s.pc = .loop i)
    (h : initMetadata md5 junk s i = (m, mdata)) :
    m.chunkInfo = t₀ ∧ ∃ file, mdata = some file ∧ file.chunkInfo = s.table := by
  unfold initMetadata at h
  by_cases hi : i = 0
  · subst hi
    have htable := hs.early hpc
    rw [if_pos rfl] at h
    split at h
    · next m' hm =>
      cases h
      rw [State.table_of_some hm] at htable ⊢
      exact ⟨htable, m, rfl, rfl⟩
    · next hm =>
      cases h
      rw [State.table_of_none hm] at htable ⊢
      exact ⟨htable, _, rfl, rfl⟩
  · rw [if_neg hi] at h
    cases h
    obtain ⟨j, rfl⟩ := Nat.exists_eq_succ_of_ne_zero hi
    refine ⟨hs.copy j (Or.inl hpc), ?_⟩
    cases hm : s.mdata with
    | some m => exact ⟨m, rfl, (State.table_of_some hm).symm⟩
    | none =>
      have := (hs.file hm).2
      simp [hpc] at this

theorem orderly_step {md5 : Md5} {a : Act} (hs : Orderly t₀ s)
    (h : (machine md5).step s a = some s') : Orderly t₀ s' := by
  have sock (w : Nat) := hs.sock_error w
  -- the file is there from the parent's first turn on
  have there : ∀ i, s.pc = .inited i ∨ s.pc = .saved i ∨ s.pc = .finalLoaded → s.mdata ≠ none := by
    intro i hpc hm
    have := (hs.file hm).2
    rcases hpc with hpc | hpc | hpc <;> simp [hpc] at this
  cases step_cases h with
  | sigpipe | forkFails | refuse | waitFails | exit =>
    exact hs.leave rfl rfl rfl (Or.inl rfl)
  | sigint => exact hs.leave rfl rfl rfl (Or.inr rfl)
  | @init junk script i m mdata hpc _ hi hm =>
    obtain ⟨hcopy, file, rfl, -⟩ := initMetadata_cases hs hpc hm
    have hforked := hs.forked i (by rw [hpc]; rfl)
    exact ⟨by simp, fun _ _ => hcopy, fun j hj => Option.some.inj hj ▸ hforked, hs.outside,
      fun j hj => by simp at hj; exact hj ▸ hi, by simp, by simp, by simp, hs.sock_error⟩
  | @save i hpc =>
    have hforked := hs.forked i (by rw [hpc]; rfl)
    have hi := hs.turn i (Or.inl hpc)
    have hcopy := hs.copy i (Or.inr (Or.inl hpc))
    exact ⟨by simp, fun _ _ => hcopy, fun j hj => Option.some.inj hj ▸ hforked, hs.outside,
      fun j hj => by simp at hj; exact hj ▸ hi, by simp, by simp, by simp, hs.sock_error⟩
  | @fork i hpc =>
    have hforked := hs.forked i (by rw [hpc]; rfl)
    have hi := hs.turn i (Or.inr hpc)
    have hcopy := hs.copy i (Or.inr (Or.inr hpc))
    refine ⟨by simp, fun _ _ => hcopy, fun j hj w hw => ?_, fun w hw => ?_, by simp, by simp,
      by simp, fun hm => absurd hm (there i (Or.inr (Or.inl hpc))), fun w => ?_⟩
    · obtain rfl := Option.some.inj hj
      show (update s.workers i _ w).pc = _
      rw [update_of_ne _ _ (by omega)]
      exact hforked w (by omega)
    · change s.numClient ≤ w at hw
      show (update s.workers i _ w).pc = _
      rw [update_of_ne _ _ (by omega)]
      exact hs.outside w hw
    · refine forall_update ⟨fun _ => rfl, fun c hc => ?_⟩ hs.sock_error w
      simp [forked] at hc
  | @wait m hpc hall hm =>
    refine ⟨by simp, by simp, by simp [ParentPc.turn], hs.outside, by simp, fun _ => hall,
      fun _ => ?_, fun h => absurd h (by simp [hm]), hs.sock_error⟩
    show m.chunkInfo = State.table _
    simp [State.table, hm]
  | finish hpc =>
    exact ⟨by simp, by simp, by simp [ParentPc.turn], hs.outside, by simp,
      fun _ => hs.late (Or.inl hpc), by simp, by simp, hs.sock_error⟩
  | @«open» w script m hw | @lockClaim w _ hw | @loadClaim w m hw | @releaseClaim w _ hw
  | @lockUpdate w _ _ hw | @loadUpdate w _ m hw | @giveUp w script hw | @overrun w _ script hw
  | @send w _ script _ _ _ hw | @sigpipeStart w hw | @sigpipeSend w _ hw =>
    have hsock := (sock w).sock_error (by simp [hw])
    exact hs.worker (w := w) (by simp [hw]) rfl rfl rfl id rfl ⟨fun _ => hsock, by simp⟩
  | @claim w _ m hw =>
    have hsock := (sock w).sock_error (by simp [hw])
    exact hs.worker (w := w) (by simp [hw]) rfl rfl rfl (by simp) rfl ⟨fun _ => hsock, by simp⟩
  | @releaseUpdate w c hw =>
    have hsock := (sock w).sock_error (by simp [hw])
    have hc := (sock w).chunkNumber c (Or.inl hw)
    exact hs.worker (w := w) (by simp [hw]) rfl rfl rfl id rfl ⟨fun _ => hsock, by simpa using hc⟩
  | @update w k m hw =>
    have hsock := (sock w).sock_error (by simp [hw])
    refine hs.worker (w := w) (by simp [hw]) rfl rfl rfl (by simp) rfl ⟨fun _ => hsock, ?_⟩
    simp [hsock]
  | @test w c hw =>
    have hsock := (sock w).sock_error (by simp [hw])
    refine hs.worker (w := w) (by simp [hw]) rfl rfl rfl id rfl ⟨fun _ => hsock, ?_⟩
    intro c'
    dsimp only
    split <;> simp
  | server =>
    exact ⟨hs.early, hs.copy, hs.forked, hs.outside, hs.turn, hs.late, hs.fresh, hs.file,
      hs.sock_error⟩

/-! ### The table's steps -/

theorem State.table_of_update {m file : Metadata} (hfile : s.mdata = some file)
    (h : s'.mdata = s.mdata.map m.updateControlData) : s'.table = m.chunkInfo := by
  rw [hfile, Option.map_some] at h
  exact (State.table_of_some h).trans rfl

/-- The table after a worker has finished chunk `k`. -/
theorem Orderly.update_table {md5 : Md5} {k : Nat} (hs : Orderly t₀ s)
    (hw : (s.workers w).pc = .updateLoaded k)
    (h : (machine md5).step s (.worker w .update) = some s') :
    s'.table = (s.workers w).metadata.chunkInfo.modify k
      (Metadata.setStatus .chOk (some (s.workers w).snd_md5sum)) := by
  obtain ⟨-, -, -, -, file, hfile⟩ := hs.active (w := w) (by simp [hw])
  have hsock := (hs.sock_error w).sock_error (by simp [hw])
  cases step_cases h with
  | @update _ j m hw' hm =>
    obtain rfl := WorkerPc.updateLoaded.inj (hw.symm.trans hw')
    exact (State.table_of_update (m := m) hfile rfl).trans (by rw [hm, hsock]; rfl)

/-- A step that moves one worker is a step of the table, if it does the same to it. -/
theorem follows_worker {a : ClaimTable.Act ChunkInfo (Bool × Digest) Nat} {t : List ChunkInfo}
    {l : Option Nat} {x : ClaimTable.Phase ChunkInfo} {wk : Worker}
    (hstep : ClaimTable.Step rules (view s) a ⟨t, l, update (view s).phase w x⟩)
    (hworkers : s'.workers = update s.workers w wk) (ht : s'.table = t) (hl : s'.lock = l)
    (hx : phase wk = x) : (ClaimTable.machine rules).Follows (view s) (view s') (some a) := by
  subst ht hl
  exact hstep.follows hworkers hx

/-- A step that the table does not see. -/
theorem follows_silent {wk : Worker} (hworkers : s'.workers = update s.workers w wk)
    (ht : s'.table = s.table) (hl : s'.lock = s.lock) (hx : phase (s.workers w) = phase wk) :
    (ClaimTable.machine rules).Follows (view s) (view s') none := by
  unfold view
  rw [ht, hl]
  exact ClaimTable.follows_silent hworkers hx

/-- **Each step of an upload run is one of the table's**, or the table does not see it. -/
theorem view_step {md5 : Md5} {a : Act} (hs : Orderly t₀ s)
    (h : (machine md5).step s a = some s') :
    (ClaimTable.machine rules).Follows (view s) (view s') (label s a) := by
  cases step_cases h with
  | @init junk script i m mdata hpc _ hi hm =>
    obtain ⟨-, file, rfl, hfile⟩ := initMetadata_cases hs hpc hm
    show view _ = view _
    unfold view
    rw [← hfile]
    rfl
  | sigpipe | forkFails | refuse | wait | waitFails | sigint | exit | server => rfl
  | save => exact ClaimTable.Step.overwrite.step
  | finish hpc =>
    show view _ = view _
    unfold view
    rw [← hs.fresh hpc]
    rfl
  | @fork i hpc =>
    have habsent := hs.forked i (by rw [hpc]; rfl) i le_rfl
    simp only [label, hpc]
    exact follows_worker (.start (by simp [view, phase, habsent])) rfl rfl rfl rfl
  | @«open» w script m hw =>
    exact follows_silent (w := w) rfl rfl rfl (by simp [phase, hw])
  | @lockClaim w hl hw =>
    exact follows_worker (.lockClaim hl (by simp [view, phase, hw])) rfl rfl rfl rfl
  | @lockUpdate w k hl hw =>
    exact follows_worker (.lockSettle hl (by simp [view, phase, hw])) rfl rfl rfl rfl
  | @loadClaim w m hw hm =>
    refine follows_worker (.loadClaim (by simp [view, phase, hw])) rfl rfl rfl ?_
    exact congrArg _ (State.table_of_some hm).symm
  | @loadUpdate w k m hw hm =>
    refine follows_worker (.loadSettle (i := k) (by simp [view, phase, hw])) rfl rfl rfl ?_
    exact congrArg _ (State.table_of_some hm).symm
  | @claim w k m hw hk hm =>
    obtain ⟨-, -, -, -, file, hfile⟩ := hs.active (w := w) (by simp [hw])
    refine follows_worker (.claim (by simp [view, phase, hw]) hk) rfl ?_ rfl rfl
    exact (State.table_of_update (m := m) hfile rfl).trans (by rw [hm]; rfl)
  | @giveUp w script hw hk =>
    exact follows_worker (.giveUp (by simp [view, phase, hw]) hk) rfl rfl rfl rfl
  | @releaseClaim w k hw =>
    exact follows_worker (.releaseClaim (by simp [view, phase, hw])) rfl rfl rfl rfl
  | @releaseUpdate w c hw =>
    exact follows_worker (.releaseSettle (f := false) (by simp [view, phase, hw])) rfl rfl rfl rfl
  | @overrun w k script hw hnone =>
    simp only [label, hw, hnone, if_true]
    exact follows_worker (.die (i := k) (by simp [view, phase, hw])) rfl rfl rfl rfl
  | @send w k script br data pos hw hsome =>
    simp only [label, hw, hsome, reduceCtorEq, if_false]
    exact follows_silent (w := w) rfl rfl rfl (by simp [phase, hw])
  | @sigpipeStart w hw =>
    simp only [label, hw]
    exact follows_silent (w := w) rfl rfl rfl (by simp [phase, hw])
  | @sigpipeSend w k hw =>
    simp only [label, hw]
    exact follows_worker (.die (i := k) (by simp [view, phase, hw])) rfl rfl rfl rfl
  | @update w k m hw hm =>
    have hsock := (hs.sock_error w).sock_error (by simp [hw])
    refine follows_worker (.settle (i := k) (t := (s.workers w).metadata.chunkInfo)
      (by simp [view, phase, hw])) rfl ?_ rfl ?_
    · exact (hs.update_table hw h).trans (by rw [hsock]; rfl)
    · show ClaimTable.Phase.returned false = .returned (s.workers w).sock_error
      rw [hsock]
  | @test w c hw =>
    have hc := (hs.sock_error w).chunkNumber c (Or.inr hw)
    have hidle : phase (s.workers w) = .idle := by simp [phase, hw]
    cases hk : s.kill_proc with
    | true =>
      simp only [label, hk, if_true, Bool.true_eq_false, and_false, if_false]
      exact follows_worker (.quit hidle) rfl rfl rfl rfl
    | false =>
      simp only [label, hk, hc, Bool.false_eq_true, if_false, ne_eq, not_false_eq_true, and_self,
        if_true]
      exact follows_silent (w := w) rfl rfl rfl (by rw [hidle]; rfl)

/-- Which steps write to the table. -/
theorem label_write {a : Act} {b : ClaimTable.Act ChunkInfo (Bool × Digest) Nat}
    (h : label s a = some b) : (∀ v, b = .claim v → a = .worker v .claim) ∧
      (∀ v o, b = .settle v o →
        a = .worker v .update ∧ o = ((s.workers v).sock_error, (s.workers v).snd_md5sum)) ∧
      ∀ t, b = .overwrite t → a = .parent .save ∧ t = s.metadata.chunkInfo := by
  unfold label at h
  repeat' split at h
  all_goals first | (cases h; done) | (cases h; simp)

end Orderly

/-! ### What every run keeps -/

/-- A state of a run that began with the table `t₀`. -/
structure Tracked (t₀ : List ChunkInfo) (s : State) : Prop extends Orderly t₀ s where
  sized : ClaimTable.Sized t₀.length (view s)

theorem Initial.view {s : State} (h : Initial s) : view s = ClaimTable.initial s.table := by
  have hphase : (fun w => phase (s.workers w)) = fun _ => .absent := by
    funext w
    rw [phase, h.workers w]
  rw [Upload.view, h.lock, hphase]
  rfl

theorem Initial.tracked {s : State} (h : Initial s) : Tracked s.table s where
  toOrderly := h.orderly
  sized := h.view ▸ ClaimTable.sized_initial _

section Tracked
variable {md5 : Md5} {t₀ : List ChunkInfo} {s s' : State} {a : Act}

/-- The parent saves the table of the start. -/
theorem Orderly.overwrites (hs : Orderly t₀ s) (h : (machine md5).step s a = some s')
    {t : List ChunkInfo} (ht : label s a = some (.overwrite t)) :
    a = .parent .save ∧ t = s.metadata.chunkInfo ∧ t = t₀ := by
  obtain ⟨rfl, rfl⟩ := (label_write ht).2.2 t rfl
  cases step_cases h with
  | @save i hpc => exact ⟨rfl, rfl, hs.copy i (Or.inr (Or.inl hpc))⟩

/-- The saves put back the table of the start, and no worker notices a failure. -/
theorem Orderly.label_restores (hs : Orderly t₀ s) (h : (machine md5).step s a = some s')
    {b : ClaimTable.Act ChunkInfo (Bool × Digest) Nat} (hb : label s a = some b) :
    ClaimTable.Restores rules t₀ b := by
  cases b with
  | overwrite t => exact (hs.overwrites h hb).2.2
  | settle w o =>
    obtain ⟨rfl, rfl⟩ := (label_write hb).2.1 w o rfl
    cases step_cases h with
    | update hw => exact (hs.sock_error w).sock_error (by simp [hw])
  | _ => trivial

theorem Tracked.length (hs : Tracked t₀ s) : s.table.length = t₀.length := hs.sized.table

theorem tracked_step (hs : Tracked t₀ s) (h : (machine md5).step s a = some s') :
    Tracked t₀ s' where
  toOrderly := orderly_step hs.toOrderly h
  sized := by
    apply (view_step hs.toOrderly h).preserves hs.sized
    intro b hb hstep
    refine ClaimTable.sized_step hs.sized (fun t ht => ?_) hstep
    obtain ⟨-, -, rfl⟩ := hs.toOrderly.overwrites h (ht ▸ hb)
    rfl

end Tracked

/-! ### No update is lost -/

/-- The chunk a worker has claimed and not finished. -/
@[simp] def WorkerPc.chunk : WorkerPc → Option Nat
  | claimed k | send k | update k | updateLocked k | updateLoaded k | dead k => some k
  | _ => none

/-- Worker `w` holds chunk `k`. -/
def State.Holds (s : State) (w k : Nat) : Prop := (s.workers w).pc.chunk = some k

theorem phase_holds (wk : Worker) : (phase wk).holds = wk.pc.chunk := by
  unfold phase
  cases wk.pc <;> rfl

/-- How a step changes the entry of chunk `k`: a worker claims it, which was claimable, or
the worker that holds it finishes it, which was CH_UPLOAD. -/
inductive Changes (s : State) (a : Act) (s' : State) (k : Nat) (c c' : ChunkInfo) : Prop
  | claims (w : Nat) : a = .worker w .claim → Metadata.claimable c = true → s'.Holds w k →
      c' = Metadata.setStatus .chUpload none c → Changes s a s' k c c'
  | finishes (w : Nat) : a = .worker w .update → s.Holds w k → c.status = .chUpload →
      c'.status = .chOk → Changes s a s' k c c'

/-- A step loses no update: it changes an entry only for the worker that claims or finishes
the chunk, a chunk that is CH_OK stays so, and no chunk is held by two workers. -/
structure NoLostUpdate (s : State) (a : Act) (s' : State) : Prop where
  entry : ∀ (k : Nat) (c c' : ChunkInfo), s.table[k]? = some c → s'.table[k]? = some c' →
    c' = c ∨ Changes s a s' k c c'
  ok : ∀ (k : Nat) (c : ChunkInfo), s.table[k]? = some c → c.status = .chOk →
    s'.table[k]? = some c
  holder : ∀ w v k, s'.Holds w k → s'.Holds v k → w = v

/-- Where the parent saves its copy of the table, that is what is there. -/
def SavesFresh (s : State) : Act → State → Prop
  | .parent .save, _ => s.metadata.chunkInfo = s.table
  | _, _ => True

instance (s s' : State) : (a : Act) → Decidable (SavesFresh s a s')
  | .parent .save => inferInstanceAs (Decidable (s.metadata.chunkInfo = s.table))
  | .parent (.init _ _) | .parent .sigpipe | .parent .fork | .parent .forkFails
  | .parent .refuse | .parent .wait | .parent .finish | .parent .sigint | .parent .exit
  | .worker _ _ | .server _ _ _ => isTrue trivial

/-- A state of a run where every save was fresh. -/
structure Sound (t₀ : List ChunkInfo) (s : State) : Prop extends Tracked t₀ s where
  valid : ClaimTable.Valid rules (view s)

theorem Initial.sound {s : State} (h : Initial s) : Sound s.table s where
  toTracked := h.tracked
  valid := h.view ▸ ClaimTable.valid_initial rules _

section Sound
variable {md5 : Md5} {t₀ : List ChunkInfo} {s s' : State} {a : Act}

theorem harmless_label (hs : Orderly t₀ s) (ha : SavesFresh s a s')
    (h : (machine md5).step s a = some s')
    {b : ClaimTable.Act ChunkInfo (Bool × Digest) Nat} (hb : label s a = some b) :
    ClaimTable.Harmless (view s) b := by
  cases b with
  | overwrite t =>
    obtain ⟨rfl, rfl, -⟩ := hs.overwrites h hb
    exact ha
  | _ => trivial

theorem sound_step (hs : Sound t₀ s) (ha : SavesFresh s a s')
    (h : (machine md5).step s a = some s') : Sound t₀ s' where
  toTracked := tracked_step hs.toTracked h
  valid := by
    apply (view_step hs.toOrderly h).preserves hs.valid
    intro b hb hstep
    exact ClaimTable.valid_step hs.valid (harmless_label hs.toOrderly ha h hb) hstep

/-- What a fresh save, and every other step, does to an entry. -/
theorem Sound.changes (hs : Sound t₀ s) (ha : SavesFresh s a s')
    (h : (machine md5).step s a = some s') {k : Nat} {c c' : ChunkInfo}
    (hc : s.table[k]? = some c) (hc' : s'.table[k]? = some c') :
    c' = c ∨ Changes s a s' k c c' := by
  have hfollows := view_step hs.toOrderly h
  cases hl : label s a with
  | none =>
    rw [hl] at hfollows
    have ht : s'.table = s.table := congrArg ClaimTable.State.table hfollows
    rw [ht, hc] at hc'
    exact Or.inl (Option.some.inj hc').symm
  | some b =>
    rw [hl] at hfollows
    have hb := harmless_label hs.toOrderly ha h hl
    rcases ClaimTable.entry_step hs.valid hb hfollows hc hc' with he | ⟨w, rfl, hfree, hw, he⟩ |
      ⟨w, o, rfl, hw, hheld, he⟩
    · exact Or.inl he
    · have hact := (label_write hl).1 w rfl
      exact Or.inr (.claims w hact hfree ((phase_holds _).symm.trans hw) he)
    · obtain ⟨hact, rfl⟩ := (label_write hl).2.1 w o rfl
      have hholds : s.Holds w k := (phase_holds _).symm.trans hw
      have hsock := (hs.sock_error w).sock_error
        (by intro hpc; simp [State.Holds, hpc] at hholds)
      refine Or.inr (.finishes w hact hholds (of_decide_eq_true hheld) ?_)
      rw [he, hsock]
      rfl

theorem Sound.noLostUpdate (hs : Sound t₀ s) (ha : SavesFresh s a s')
    (h : (machine md5).step s a = some s') : NoLostUpdate s a s' where
  entry := fun k c c' hc hc' => hs.changes ha h hc hc'
  ok := by
    intro k c hc hok
    have hlt : k < s'.table.length := by
      rw [(tracked_step hs.toTracked h).length, ← hs.length]
      exact (List.getElem?_eq_some_iff.mp hc).1
    have hc' := List.getElem?_eq_getElem hlt
    rcases hs.changes ha h hc hc' with he | ⟨w, -, hfree, -⟩ | ⟨w, -, -, hstatus, -⟩
    · rw [hc', he]
    · simp [Metadata.claimable, hok] at hfree
    · rw [hok] at hstatus
      cases hstatus
  holder := by
    intro w v k hw hv
    have hs' := sound_step hs ha h
    exact hs'.valid.unique w v k ((phase_holds _).trans hw) ((phase_holds _).trans hv)

/-- A save that changes no entry was fresh. -/
theorem Tracked.savesFresh (hs : Tracked t₀ s) (ha : NoLostUpdate s a s')
    (h : (machine md5).step s a = some s') : SavesFresh s a s' := by
  unfold SavesFresh
  split
  · have hlen : s'.table.length = s.table.length := by
      rw [(tracked_step hs h).length, hs.length]
    cases step_cases h with
    | save hpc =>
      -- no worker is at work here, so the entries stay as they are
      refine List.ext_getElem hlen fun k h₁ h₂ => ?_
      have hc := List.getElem?_eq_getElem h₂
      rcases ha.entry k _ _ hc (List.getElem?_eq_getElem h₁) with he | ⟨w, hact, -⟩ | ⟨w, hact, -⟩
      · exact he
      · cases hact
      · cases hact
  · trivial

theorem Tracked.along_savesFresh (hs : Tracked t₀ s) {as : List Act}
    (h : (machine md5).Along NoLostUpdate s as) : (machine md5).Along SavesFresh s as :=
  Machine.along_of_invariant
    (fun _ _ _ hs ha h => ⟨tracked_step hs h, hs.savesFresh ha h⟩) hs h

end Sound

/-- **When an upload run loses no update.**  Every step of a run changes an entry only as
the claim or the finish of a worker that the chunk is free for or held by, and no chunk is
ever held by two workers, exactly if whenever the parent saves its copy of the chunk table
between two forks, no worker has changed the table since the parent loaded it. -/
theorem no_lost_update_iff (md5 : Md5) {s₀ : State} (as : List Act) (h₀ : Initial s₀) :
    (machine md5).Along NoLostUpdate s₀ as ↔ (machine md5).Along SavesFresh s₀ as := by
  constructor
  · exact h₀.tracked.along_savesFresh
  · apply Machine.along_of_invariant (I := Sound s₀.table)
    · intro s a s' hs ha h
      exact ⟨sound_step hs ha h, hs.noLostUpdate ha h⟩
    · exact h₀.sound

def sampleName : FileName := ⟨[97], by decide, by decide, by decide⟩

/-- The first connection up to its fork. -/
def sampleFork : List Act :=
  [.parent (.init (fun _ => 0) []), .parent .save, .parent .fork]

/-- Worker `w` claims a chunk, sends it and finishes it. -/
def sampleChunk (w : Nat) : List Act :=
  [.worker w .lock, .worker w .load, .worker w .claim, .worker w .release, .worker w (.send []),
    .worker w .lock, .worker w .load, .worker w .update, .worker w .release]

/-- Both workers are forked before one of them claims the only chunk. -/
theorem no_lost_update_sample :
    (machine fun _ => Buffer.zero _).Along NoLostUpdate
      (.begin 2 1 sampleName [7] none fun _ => none)
      (sampleFork ++ sampleFork ++ .worker 0 (.open []) :: sampleChunk 0) :=
  (no_lost_update_iff _ _ (initial_begin _ _ _ _ _ _)).mpr (by decide +kernel)

/-- The first worker finishes the only chunk before the parent turns to its second
connection: the save there makes the chunk pending again. -/
theorem no_lost_update_fails :
    ¬ (machine fun _ => Buffer.zero _).Along NoLostUpdate
        (.begin 2 1 sampleName [7] none fun _ => none)
        (sampleFork ++ .worker 0 (.open []) :: sampleChunk 0 ++ sampleFork) ∧
      ((machine fun _ => Buffer.zero _).run (.begin 2 1 sampleName [7] none fun _ => none)
        (sampleFork ++ .worker 0 (.open []) :: sampleChunk 0)).map
          (fun s => s.table.map ChunkInfo.status) = some [.chOk] ∧
      ((machine fun _ => Buffer.zero _).run (.begin 2 1 sampleName [7] none fun _ => none)
        (sampleFork ++ .worker 0 (.open []) :: sampleChunk 0 ++ sampleFork)).map
          (fun s => s.table.map ChunkInfo.status) = some [.chPending] := by
  refine ⟨fun h => ?_, by decide +kernel, by decide +kernel⟩
  have hfresh := (initial_begin _ _ _ _ _ _).tracked.along_savesFresh h
  revert hfresh
  decide +kernel

end Mhftp.Upload
