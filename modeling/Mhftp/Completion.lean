import Mhftp.Blocking

/-! # Downloads that do their work

Over blocking connections and with the file on every host nobody hangs (`hangs_iff`), every
run comes to an end (`terminates`), and what it leaves is what the .mdata file says of the
local file (`Source.Faithful`): the file itself (`completes`).

A download that has been interrupted, as often as may be, is made complete by one more run
after a recovery, which fetches what is missing and nothing else (`resume_completes`).
-/

namespace Mhftp.Download
open Library

section Run
variable {src : Source} {md5 : Md5} {s s' : State} {a : Act}

/-- Which workers the parent has forked. -/
structure Forked (s : State) : Prop where
  so_far : ∀ i, s.pc = .forking i → ∀ w < i, (s.workers w).pc ≠ .notForked
  all : s.pc = .finalLoaded ∨ s.pc = .ended → ∀ w < s.numClient, (s.workers w).pc ≠ .notForked

theorem forked_kept {w : Nat} (h : (machine md5).step s a = some s')
    (hw : (s.workers w).pc ≠ .notForked) : (s'.workers w).pc ≠ .notForked := by
  have moved {v : Nat} {wk : Worker} (hwk : wk.pc ≠ .notForked) :
      (update s.workers v wk w).pc ≠ .notForked := by
    by_cases hv : w = v
    · rw [hv, update_self]
      exact hwk
    · rw [update_of_ne _ _ hv]
      exact hw
  cases step_cases h with
  | @receive v k script hv =>
    obtain ⟨wk, toClient, he, -, -, hcase⟩ := receive_cases s v k script
    rw [he]
    refine moved ?_
    rcases hcase with ⟨hpc, -⟩ | hpc | ⟨data, size, hpc, -⟩ <;> rw [hpc] <;> simp
  | @test v c hv =>
    refine moved ?_
    dsimp only
    split <;> simp
  | fork | «open» | lockClaim | lockUpdate | loadClaim | loadUpdate | claim | giveUp
  | releaseClaim | releaseUpdate | request | sigpipeStart | sigpipeRequest | store | update =>
    exact moved (by simp [forked])
  | _ => exact hw

/-- What the parent is up to, while nobody interrupts it. -/
structure Uninterrupted (s : State) : Prop extends Forked s where
  kill_proc : s.kill_proc = false
  pc : s.pc = .start ∨ s.pc = .loaded ∨ (∃ i, s.pc = .forking i) ∨ s.pc = .finalLoaded ∨
    s.pc = .ended

theorem uninterrupted_step (hs : Uninterrupted s) (hn : s.numClient ≤ nproc)
    (ha : a.ordinary = true) (h : (machine md5).step s a = some s') : Uninterrupted s' := by
  have kept := fun w => forked_kept (w := w) h
  -- a step of a worker or of a server
  have worker (hnum : s'.numClient = s.numClient) (hpc : s'.pc = s.pc)
      (hkill : s'.kill_proc = s.kill_proc) : Uninterrupted s' := by
    refine ⟨⟨fun i hi w hw => kept w (hs.so_far i (hpc ▸ hi) w hw), fun he w hw => ?_⟩,
      hkill.trans hs.kill_proc, by rw [hpc]; exact hs.pc⟩
    exact kept w (hs.all (hpc ▸ he) w (hnum ▸ hw))
  cases step_cases h with
  | load => exact ⟨⟨by simp, by simp⟩, hs.kill_proc, by simp⟩
  | save =>
    refine ⟨⟨fun i hi w hw => ?_, by simp⟩, hs.kill_proc, by simp⟩
    obtain rfl := ParentPc.forking.inj hi
    omega
  | refuse _ hlt => exact absurd hn (by omega)
  | @fork i hpc _ _ =>
    refine ⟨⟨fun j hj w hw => ?_, by simp⟩, hs.kill_proc, by simp⟩
    obtain rfl := ParentPc.forking.inj hj
    by_cases he : w = i
    · subst w
      show (update s.workers i _ i).pc ≠ .notForked
      rw [update_self]
      simp [forked]
    · exact kept w (hs.so_far i hpc w (by omega))
  | wait hpc => exact ⟨⟨by simp, fun _ w hw => hs.so_far _ hpc w hw⟩, hs.kill_proc, by simp⟩
  | finish hpc => exact ⟨⟨by simp, fun _ => hs.all (.inl hpc)⟩, hs.kill_proc, by simp⟩
  | sigint | forkFails => cases ha
  | killLoad hpc | killSave hpc =>
    rcases hs.pc with he | he | ⟨i, he⟩ | he | he <;> cases hpc.symm.trans he
  | receive =>
    obtain ⟨wk, toClient, he, -⟩ := receive_cases s _ _ _
    rw [he] at worker ⊢
    exact worker rfl rfl rfl
  | _ => exact worker rfl rfl rfl

/-- What disturbs no worker. -/
theorem undisturbed_of_blocking (ha : blocking s a s' = true) (hord : a.ordinary = true) :
    undisturbed s a s' = true := by
  cases a with
  | parent a => cases a <;> first | rfl | cases hord
  | worker w a => cases a <;> first | rfl | exact ha
  | server => rfl

theorem answersIntact_of_blocking (ha : blocking s a s' = true) : AnswersIntact s a s' := by
  cases a with
  | server w script junk => exact fun _ => by simpa [blocking] using ha
  | _ => trivial

/-- What is neither CH_DOWNLOAD nor CH_UPLOAD is CH_OK or yet to be fetched. -/
theorem ok_or_pending
    (hs : ∀ c ∈ s.mdata.chunkInfo, c.status ≠ .chDownload ∧ c.status ≠ .chUpload) {k : Nat}
    {c : ChunkInfo} (hc : s.mdata.chunkInfo[k]? = some c) :
    c.status = .chOk ∨ k ∈ s.pendingChunks := by
  obtain ⟨hdownload, hupload⟩ := hs c (List.mem_of_getElem? hc)
  rw [mem_pendingChunks]
  cases hst : c.status with
  | chOk => exact .inl rfl
  | chPending => exact .inr ⟨c, hc, .inl hst⟩
  | chError => exact .inr ⟨c, hc, .inr hst⟩
  | chDownload => exact absurd hst hdownload
  | chUpload => exact absurd hst hupload

/-- Where everybody has ended nothing has failed, and nobody has been killed. -/
theorem cleanRun_of_over (md5 : Md5) (src : Source) {s₀ : State} {as : List Act} (h₀ : Initial s₀)
    (hgood : src.Good md5 s₀.localFile s₀.mdata) (hhosted : src.Hosted s₀)
    (hsome : 1 ≤ s₀.numClient) (hfew : s₀.numClient ≤ nproc)
    (hr : (machine md5).run s₀ as = some s)
    (hblocking : (machine md5).Along (fun s a s' => blocking s a s' = true) s₀ as)
    (hordinary : ∀ a ∈ as, a.ordinary = true) (hall : s.AllFinished) (hover : s.pc.over = true) :
    src.CleanRun md5 s₀.mdata s₀.localFile s₀ as s ∧ s.pc = .ended ∧
      ∃ w, (s.workers w).pc = .exited := by
  have hord : (machine md5).Along (fun _ a _ => a.ordinary = true) s₀ as :=
    Machine.along_of_at_step fun bs a cs _ _ he _ _ => hordinary a (by simp [he])
  have hundisturbed := (hblocking.and hord).imp fun _ _ _ h => undisturbed_of_blocking h.1 h.2
  have huninterrupted : Uninterrupted s ∧ s.numClient = s₀.numClient :=
    Machine.run_invariant (I := fun s => Uninterrupted s ∧ s.numClient = s₀.numClient)
      (fun _ _ _ hs ha h => ⟨uninterrupted_step hs.1 (hs.2 ▸ hfew) ha h,
        (numClient_step h).trans hs.2⟩)
      ⟨⟨⟨by simp [h₀.pc], by simp [h₀.pc]⟩, h₀.kill_proc, .inl h₀.pc⟩, rfl⟩ hord hr
  obtain ⟨-, hunharmed⟩ := Machine.run_invariant
    (I := fun s => s.kill_proc = false ∧ ∀ w, Unharmed (s.workers w))
    (fun _ _ _ hs ha h => unharmed_step h ha hs.1 hs.2)
    ⟨h₀.kill_proc, fun w => .inl (h₀.workers w)⟩ hundisturbed hr
  have hended : s.pc = .ended := by
    rcases huninterrupted.1.pc with he | he | ⟨i, he⟩ | he | he <;> rw [he] at hover <;>
      first | exact he | cases hover
  have hhosts : (machine md5).Along (fun _ _ s' => src.Hosted s') s₀ as :=
    Machine.along_of_invariant (I := fun u => src.Calm md5 s₀.mdata.chunkInfo u ∧ src.Hosted u)
      (fun u a u' hu ha h => by
        have hhosted' : src.Hosted u' := fun w hw => by
          rw [numClient_step h] at hw
          rw [hu.1.hosts_step ha h hw]
          exact hu.2 w hw
        exact ⟨⟨calm_step hu.1 ha h, hhosted'⟩, hhosted'⟩)
      ⟨h₀.calm hgood.header fun w hw => .inl (hhosted w hw), hhosted⟩ hblocking
  refine ⟨?_, hended, 0, ?_⟩
  · exact
      { toInitial := h₀
        mdata := rfl
        localFile := rfl
        hosted := ⟨hhosted, hhosts⟩
        answers := hblocking.imp fun _ _ _ => answersIntact_of_blocking
        undisturbed := hundisturbed
        run := hr
        finished := hall }
  · have hlt : 0 < s.numClient := huninterrupted.2 ▸ hsome
    have hforked := huninterrupted.1.all (.inr hended) 0 hlt
    obtain ⟨-, hkilled, hdead⟩ := (hunharmed 0).resolve_left hforked
    have hfinished := hall 0 hlt
    cases hpc : (s.workers 0).pc <;> simp_all [WorkerPc.finished]

/-- Where nobody can move any more, everybody has ended. -/
theorem cleanRun_of_stuck (md5 : Md5) (src : Source) {s₀ : State} {as : List Act} (h₀ : Initial s₀)
    (hgood : src.Good md5 s₀.localFile s₀.mdata) (hhosted : src.Hosted s₀)
    (hsome : 1 ≤ s₀.numClient) (hfew : s₀.numClient ≤ nproc)
    (hr : (machine md5).run s₀ as = some s)
    (hblocking : (machine md5).Along (fun s a s' => blocking s a s' = true) s₀ as)
    (hordinary : ∀ a ∈ as, a.ordinary = true) (hstuck : ¬ Moves md5 s) :
    src.CleanRun md5 s₀.mdata s₀.localFile s₀ as s ∧ s.pc = .ended ∧
      ∃ w, (s.workers w).pc = .exited := by
  obtain ⟨hcalm, hnum, hhosts⟩ :=
    calm_run (h₀.calm hgood.header fun w hw => .inl (hhosted w hw)) hblocking hr
  obtain ⟨hall, hover⟩ : s.AllFinished ∧ s.pc.over = true := by
    by_contra hthere
    obtain ⟨w, hw, -, hdir⟩ := hcalm.hanging hstuck hthere
    rw [hnum] at hw
    rw [hhosts w hw, hhosted w hw] at hdir
    cases hdir
  exact cleanRun_of_over md5 src h₀ hgood hhosted hsome hfew hr hblocking hordinary hall hover

/-- **A download over blocking connections does its work.**  All hosts have the file, the
.mdata file is good and has no chunk left in CH_DOWNLOAD or CH_UPLOAD, and nobody interrupts
mhclient.  Then, in whatever order its one to ten workers and their servers go on, this takes
a bounded number of steps; and when none of them can take another step the parent has ended,
every chunk is CH_OK, and the local file begins with the file. -/
theorem completes (md5 : Md5) (src : Source) {s₀ : State} {as : List Act} (h₀ : Initial s₀)
    (hgood : src.Good md5 s₀.localFile s₀.mdata) (hhosted : src.Hosted s₀)
    (hsome : 1 ≤ s₀.numClient) (hfew : s₀.numClient ≤ nproc)
    (hstart : ∀ c ∈ s₀.mdata.chunkInfo, c.status ≠ .chDownload ∧ c.status ≠ .chUpload)
    (hr : (machine md5).run s₀ as = some s)
    (hblocking : (machine md5).Along (fun s a s' => blocking s a s' = true) s₀ as)
    (hordinary : ∀ a ∈ as, a.ordinary = true) :
    as.countP (Act.within s₀.numClient) ≤ 33 * s₀.pendingChunks.card + 6306 * s₀.numClient + 6 ∧
      (¬ Moves md5 s → s.pc = .ended ∧ (∀ c ∈ s.mdata.chunkInfo, c.status = .chOk) ∧
        s.localFile.take src.content.length = src.content) := by
  have hsteps := steps_le_claims h₀ hr
  have hclaims := claims_le h₀ hr
  refine ⟨by omega, fun hstuck => ?_⟩
  obtain ⟨hclean, hended, w, hexited⟩ :=
    cleanRun_of_stuck md5 src h₀ hgood hhosted hsome hfew hr hblocking hordinary hstuck
  have hforked : ∃ w, (s.workers w).pc ≠ .notForked := ⟨w, by simp [hexited]⟩
  have hok : ∀ c ∈ s.mdata.chunkInfo, c.status = .chOk :=
    hclean.all_ok (fun k c hc => ok_or_pending hstart hc) hforked
  exact ⟨hended, hok, (hclean.faithful hgood).file.take_eq hok⟩

/-- The parent has ended, and its only worker. -/
theorem not_moves_of_ended (hs : Orderly s) (hnum : s.numClient = 1) (hpc : s.pc = .ended)
    (hw : (s.workers 0).pc = .exited) (hserver : (s.conns 0).toServer = []) : ¬ Moves md5 s := by
  refine not_moves (fun a _ => ?_) (fun w => ?_) fun w hlt => ?_
  · cases a <;> simp [parentStep, hpc]
  · left
    cases w with
    | zero =>
      rw [hw]
      rfl
    | succ w =>
      rw [hs.outside (w + 1) (by omega)]
      rfl
  · obtain rfl : w = 0 := by omega
    exact .inr hserver

end Run

/-- Both chunks. -/
def sampleWhole : List Act :=
  sampleOpen ++ sampleFetch [] ++ sampleFetch [] ++ leave 0 ++ [.parent .wait, .parent .finish]

theorem completes_sample : ∃ s,
    (machine fun _ => Buffer.zero _).run sampleHistory.run sampleWhole = some s ∧
    s.pc = .ended ∧ (∀ c ∈ s.mdata.chunkInfo, c.status = .chOk) ∧ s.localFile.take 2 = [1, 2] := by
  obtain ⟨s, hs, hnum, hpc, hw, hserver⟩ : ∃ s,
      (machine fun _ => Buffer.zero _).run sampleHistory.run sampleWhole = some s ∧
        s.numClient = 1 ∧ s.pc = .ended ∧ (s.workers 0).pc = .exited ∧
        (s.conns 0).toServer = [] := Machine.exists_run (by decide +kernel)
  refine ⟨s, hs, (completes _ sampleSource (initial_begin _ _ _ _) (good_fresh _ _ _ _)
    begins_sampleHistory.hosted (by decide) (by decide) ?_ hs (by decide +kernel)
    (by decide +kernel)).2 (not_moves_of_ended ?_ hnum hpc hw hserver)⟩
  · intro c hc
    rw [status_of_mem_initControlData hc]
    simp
  · exact (sound_run (initial_begin _ _ _ _).sound hs).toOrderly

/-! ### After a recovery -/

/-- The table has been made ready for another run, by `KillClient` or with `mhstatus`. -/
def History.Recovered (h : History) : Prop :=
  h.phase = .recovered ∨ h.phase = .running ∧ ∃ t, h.run.pc = .reset t

section Resume
variable {src : Source} {md5 : Md5} {t₀ : List ChunkInfo} {s s' : State} {a : Act}
  {h h' : History} {b : HistoryAct}

theorem resetDownloading_upload {c : ChunkInfo} (hc : c.status ≠ .chUpload) :
    (Metadata.resetDownloading c).status ≠ .chUpload := by
  unfold Metadata.resetDownloading
  split
  · simp
  · exact hc

theorem resetDownloading_download (c : ChunkInfo) :
    (Metadata.resetDownloading c).status ≠ .chDownload := by
  unfold Metadata.resetDownloading
  split
  · simp
  · next hno => exact fun hdownload => hno (.inl hdownload)

/-- A download does not upload. -/
theorem Sound.upload_step (hs : Sound t₀ s) (h : (machine md5).step s a = some s')
    (hupload : ∀ c ∈ s.mdata.chunkInfo, c.status ≠ .chUpload) :
    ∀ c ∈ s'.mdata.chunkInfo, c.status ≠ .chUpload := by
  intro c' hmem
  obtain ⟨k, hc'⟩ := List.getElem?_of_mem hmem
  have hlt : k < s.mdata.chunkInfo.length := by
    rw [hs.length, ← (sound_step hs h).length]
    exact (List.getElem?_eq_some_iff.mp hc').1
  have hold := hupload _ (List.getElem_mem hlt)
  rcases hs.changes h (List.getElem?_eq_getElem hlt) hc' with
    he | ⟨w, -, -, -, -, he⟩ | ⟨w, -, -, -, hok | herror⟩ | ⟨-, he⟩
  · rw [he]
    exact hold
  · rw [he]
    simp [Metadata.setStatus]
  · simp [hok]
  · simp [herror]
  · rw [he]
    exact resetDownloading_upload hold

/-- What a history keeps of the table, besides that it is good. -/
structure Resumable (h : History) : Prop where
  sound : h.phase = .running → ∃ t₀, Sound t₀ h.run
  upload : ∀ c ∈ h.run.mdata.chunkInfo, c.status ≠ .chUpload
  download : h.phase = .recovered → ∀ c ∈ h.run.mdata.chunkInfo, c.status ≠ .chDownload

theorem Begins.resumable (hb : Begins src md5 h) : Resumable h where
  sound := fun _ => ⟨_, hb.initial.sound⟩
  upload := by
    intro c hc
    obtain ⟨inUse, hmdata⟩ := hb.mdata
    rw [hmdata] at hc
    rw [status_of_mem_initControlData hc]
    simp
  download := fun hphase => by cases hb.phase.symm.trans hphase

theorem resumable_step (hs : Resumable h) (hstep : (history md5).step h b = some h') :
    Resumable h' := by
  cases b with
  | step a =>
    simp only [history, historyStep] at hstep
    split at hstep
    · next hphase =>
      obtain ⟨s', hs', rfl⟩ := Option.map_eq_some_iff.mp hstep
      obtain ⟨t₀, hsound⟩ := hs.sound hphase
      refine ⟨fun _ => ⟨t₀, sound_step hsound hs'⟩, hsound.upload_step hs' hs.upload, fun hp => ?_⟩
      cases hphase.symm.trans hp
    · cases hstep
  | kill written saved =>
    simp only [history, historyStep] at hstep
    split at hstep
    · cases hstep
      refine ⟨fun hp => (by cases hp), fun c hc => ?_, fun hp => (by cases hp)⟩
      have hc : c ∈ (cutSave h.run saved).chunkInfo := hc
      unfold cutSave at hc
      split at hc
      · obtain ⟨k, hk, he⟩ := List.mem_mapIdx.mp hc
        have hold := hs.upload _ (List.getElem_mem hk)
        rw [← he]
        split
        · exact resetDownloading_upload hold
        · exact hold
      · exact hs.upload c hc
    · cases hstep
  | recover =>
    simp only [history, historyStep] at hstep
    split at hstep
    · cases hstep
      refine ⟨fun hp => (by cases hp), fun c hc => ?_, fun _ c hc => ?_⟩
      all_goals
        obtain ⟨c₀, hc₀, rfl⟩ := List.mem_map.mp hc
      · exact resetDownloading_upload (hs.upload c₀ hc₀)
      · exact resetDownloading_download c₀
    · cases hstep
  | again next =>
    simp only [history, historyStep] at hstep
    split at hstep
    · cases hstep
      exact ⟨fun _ => ⟨_, (initial_next next h.run).sound⟩, hs.upload, fun hp => (by cases hp)⟩
    · cases hstep

/-- A recovery leaves nothing for which nobody would care. -/
theorem Resumable.idle (hs : Resumable h) (hrecovered : h.Recovered) :
    ∀ c ∈ h.run.mdata.chunkInfo, c.status ≠ .chDownload ∧ c.status ≠ .chUpload := by
  intro c hc
  refine ⟨?_, hs.upload c hc⟩
  rcases hrecovered with hphase | ⟨hphase, t, ht⟩
  · exact hs.download hphase c hc
  · obtain ⟨t₀, hsound⟩ := hs.sound hphase
    rw [hsound.reset t ht] at hc
    obtain ⟨c₀, -, rfl⟩ := List.mem_map.mp hc
    exact resetDownloading_download c₀

end Resume

/-- **An interrupted download is made complete.**  Downloads of one file into one .mdata file
and one local file have been killed, stopped with SIGINT, recovered and begun again, in any
way, as long as no server answered on a connection where one of its `so_read`s came up short.
After the last recovery a run over blocking connections to hosts that have the file takes a
bounded number of steps; and when none of its processes can take another step it has ended, it
has fetched each chunk that was not CH_OK once and no other, every chunk is CH_OK, and the local
file begins with the file. -/
theorem resume_completes (md5 : Md5) (src : Source) {h₀ h : History} {bs : List HistoryAct}
    {next : NextRun} {s : State} {as : List Act} (hbegins : Begins src md5 h₀)
    (hregular : (history md5).Along (Regular src) h₀ bs)
    (hhistory : (history md5).run h₀ bs = some h) (hrecovered : h.Recovered)
    (hhosted : src.Hosted (next.begin h.run))
    (hsome : 1 ≤ next.numClient) (hfew : next.numClient ≤ nproc)
    (hr : (machine md5).run (next.begin h.run) as = some s)
    (hblocking : (machine md5).Along (fun s a s' => blocking s a s' = true) (next.begin h.run) as)
    (hordinary : ∀ a ∈ as, a.ordinary = true) :
    as.countP (Act.within next.numClient) ≤
        33 * (next.begin h.run).pendingChunks.card + 6306 * next.numClient + 6 ∧
      (¬ Moves md5 s → s.pc = .ended ∧
        ((machine md5).events fetchedChunk (next.begin h.run) as).Nodup ∧
        (∀ k, k ∈ (machine md5).events fetchedChunk (next.begin h.run) as ↔
          ∃ c, h.run.mdata.chunkInfo[k]? = some c ∧ c.status ≠ .chOk) ∧
        (∀ c ∈ s.mdata.chunkInfo, c.status = .chOk) ∧
        s.localFile.take src.content.length = src.content) := by
  have hinitial : Initial (next.begin h.run) := initial_next next h.run
  obtain ⟨inUse, hmdata⟩ := hbegins.mdata
  have hgood₀ : src.Good md5 h₀.run.localFile h₀.run.mdata := hmdata ▸ good_fresh src md5 _ inUse
  have hgood : src.Good md5 h.run.localFile h.run.mdata :=
    (Machine.run_invariant (fun _ _ _ => kept_step)
      ⟨hgood₀, fun _ => hbegins.initial.faithful hgood₀, hbegins.hosted⟩ hregular hhistory).file
  have hidle := (Machine.run_invariant_of_step (fun _ _ _ => resumable_step) hbegins.resumable
    hhistory).idle hrecovered
  have hsteps : as.countP (Act.within next.numClient) ≤ 33 * _ + 6273 * next.numClient + 6 :=
    steps_le_claims hinitial hr
  have hclaims : _ ≤ _ + next.numClient := claims_le hinitial hr
  refine ⟨by omega, fun hstuck => ?_⟩
  obtain ⟨hclean, hended, w, hexited⟩ :=
    cleanRun_of_stuck md5 src hinitial hgood hhosted hsome hfew hr hblocking hordinary hstuck
  have hforked : ∃ w, (s.workers w).pc ≠ .notForked := ⟨w, by simp [hexited]⟩
  have hok : ∀ c ∈ s.mdata.chunkInfo, c.status = .chOk :=
    hclean.all_ok (fun k c hc => ok_or_pending (s := next.begin h.run) hidle hc) hforked
  -- what is fetched is what is claimed, and that is what was left
  obtain ⟨-, hnodup, hmem, -⟩ := claims_complete md5 hinitial hr hclean.undisturbed hclean.finished
    hforked
  have hperm := fetched_perm_claimed hinitial hclean.undisturbed hr hclean.finished
  refine ⟨hended, hperm.nodup_iff.mpr hnodup, fun k => ?_, hok,
    (hclean.faithful hgood).file.take_eq hok⟩
  rw [hperm.mem_iff, hmem, mem_pendingChunks]
  constructor
  · rintro ⟨c, hc, hpending | herror⟩
    · exact ⟨c, hc, by simp [hpending]⟩
    · exact ⟨c, hc, by simp [herror]⟩
  · rintro ⟨c, hc, hne⟩
    exact mem_pendingChunks.mp ((ok_or_pending (s := next.begin h.run) hidle hc).resolve_left hne)

/-- The next run, with the hosts of the first. -/
def sampleNext : NextRun :=
  ⟨1, sampleHistory.run.mdata, fun _ => Buffer.zero _,
    fun _ => (sampleSource.header fun _ => Buffer.zero _, [], Buffer.zero _),
    sampleHistory.run.hosts⟩

/-- What is left. -/
def sampleRest : List Act :=
  sampleOpen ++ sampleFetch [] ++ leave 0 ++ [.parent .wait, .parent .finish]

/-- The first chunk is there, and the second one is fetched. -/
theorem resume_completes_sample : ∃ h s,
    (history fun _ => Buffer.zero _).run sampleHistory sampleKill.dropLast = some h ∧
    (machine fun _ => Buffer.zero _).run (sampleNext.begin h.run) sampleRest = some s ∧
    (∀ c ∈ s.mdata.chunkInfo, c.status = .chOk) ∧ s.localFile.take 2 = [1, 2] := by
  obtain ⟨h, hh, hphase, hhosted, hblocking, hany⟩ : ∃ h,
      (history fun _ => Buffer.zero _).run sampleHistory sampleKill.dropLast = some h ∧
        h.phase = .recovered ∧ sampleSource.Hosted (sampleNext.begin h.run) ∧
        (machine fun _ => Buffer.zero _).Along (fun s a s' => blocking s a s' = true)
          (sampleNext.begin h.run) sampleRest ∧
        ((machine fun _ => Buffer.zero _).run (sampleNext.begin h.run) sampleRest).any (fun s =>
          s.numClient = 1 ∧ s.pc = .ended ∧ (s.workers 0).pc = .exited ∧
            (s.conns 0).toServer = []) = true := Machine.exists_run (by decide +kernel)
  obtain ⟨s, hs, hnum, hpc, hw, hserver⟩ := Machine.exists_run hany
  obtain ⟨-, -, -, hok, htake⟩ := (resume_completes _ sampleSource begins_sampleHistory
    (by decide +kernel) hh (.inl hphase) hhosted (by decide) (by decide) hs hblocking
    (by decide +kernel)).2 (not_moves_of_ended
      (sound_run (initial_next _ _).sound hs).toOrderly hnum hpc hw hserver)
  exact ⟨h, s, hh, hs, hok, htake⟩

end Mhftp.Download
