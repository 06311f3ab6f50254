import Mhftp.DownloadIntegrity
import Mhftp.Recover

/-! # How in_use is released

A transfer sets in_use in the .mdata file before its first worker is forked, and clears it
when it has waited for all workers.  `KillClient` clears it, too, if `meta_file_` is set, which
only a download does.  No other exit clears it: the number of clients is looked at when a
download has set it, a fork fails after that, and SIGINT leaves an upload as it is
(`in_use_released`).

A chunk stays CH_DOWNLOAD or CH_UPLOAD when its worker has been killed and the main process
ends normally.
-/

namespace Mhftp
open Library

/-- The chunk is CH_OK. -/
def HasOk (t : List ChunkInfo) (k : Nat) : Prop := ∃ c, t[k]? = some c ∧ c.status = .chOk

/-- What a run that began with the table `before` is to leave in the .mdata file: in_use is
clear, no chunk is CH_DOWNLOAD or CH_UPLOAD that was not so before, and every chunk that was
CH_OK is. -/
structure Released (before : List ChunkInfo) (wasOk : Nat → Prop) (m : Metadata) : Prop where
  inUse : m.inUse = 0
  turned : ∀ (k : Nat) c, m.chunkInfo[k]? = some c →
    c.status = .chDownload ∨ c.status = .chUpload →
      ∃ c₀, before[k]? = some c₀ ∧ c₀.status = c.status
  ok : ∀ k, wasOk k → HasOk m.chunkInfo k

theorem hasOk_resetDownloading {t : List ChunkInfo} {k : Nat} :
    HasOk (t.map Metadata.resetDownloading) k ↔ HasOk t k := by
  unfold HasOk
  rw [List.getElem?_map]
  constructor
  · rintro ⟨c', hc', hok⟩
    obtain ⟨c, hc, rfl⟩ := Option.map_eq_some_iff.mp hc'
    refine ⟨c, hc, ?_⟩
    unfold Metadata.resetDownloading at hok
    split at hok
    · cases hok
    · exact hok
  · rintro ⟨c, hc, hok⟩
    refine ⟨c, ?_, hok⟩
    rw [hc, Option.map_some, Metadata.resetDownloading, if_neg (by simp [hok])]

/-- After a reset no chunk is CH_DOWNLOAD, and those that are CH_UPLOAD were. -/
theorem upload_of_reset {t : List ChunkInfo} {k : Nat} {c : ChunkInfo}
    (hc : (t.map Metadata.resetDownloading)[k]? = some c)
    (hstatus : c.status = .chDownload ∨ c.status = .chUpload) :
    t[k]? = some c ∧ c.status = .chUpload := by
  rw [List.getElem?_map] at hc
  obtain ⟨c₀, hc₀, rfl⟩ := Option.map_eq_some_iff.mp hc
  unfold Metadata.resetDownloading at hstatus ⊢
  split at hstatus
  · rcases hstatus with h | h <;> cases h
  · next hno =>
    rw [if_neg hno]
    exact ⟨hc₀, hstatus.resolve_left fun h => hno (.inl h)⟩

/-! ### Downloads -/

namespace Download
variable {md5 : Md5} {t₀ : List ChunkInfo} {s₀ s s' : State} {a : Act} {as : List Act}

/-- A process of the client that may write to the .mdata file goes on, after in_use has been
set. -/
def State.Busy (s : State) : Prop :=
  (∃ w, (s.workers w).pc.finished = false) ∨ (∃ i, s.pc = .forking i) ∨ s.pc = .finalLoaded

theorem Orderly.not_busy (hs : Orderly s) (hall : s.AllFinished)
    (hpc : (∀ i, s.pc ≠ .forking i) ∧ s.pc ≠ .finalLoaded) : ¬ s.Busy := by
  rintro (⟨w, hw⟩ | ⟨i, hi⟩ | hfinal)
  · rw [hall w (hs.lt_numClient hw)] at hw
    cases hw
  · exact hpc.1 i hi
  · exact hpc.2 hfinal

/-- in_use is set while the client is at work, and when it has given up; it is clear when the
client has finished or has been stopped. -/
structure Flagged (s : State) : Prop extends Orderly s where
  set : s.Busy ∨ s.pc = .aborted → s.mdata.inUse = 1
  clear : s.pc = .ended ∨ (∃ t, s.pc = .reset t) → s.mdata.inUse = 0

theorem Initial.flagged (h : Initial s) : Flagged s where
  toOrderly := h.orderly
  set := by
    have hbusy : ¬ s.Busy := by
      refine h.orderly.not_busy (fun w _ => ?_) (by simp [h.pc])
      rw [h.workers w]
      rfl
    rintro (hb | hpc)
    · exact absurd hb hbusy
    · simp [h.pc] at hpc
  clear := fun hpc => by simp [h.pc] at hpc

/-- A step of one worker. -/
theorem Flagged.worker (hs : Flagged s) (ho : Orderly s') {w : Nat}
    (hw : (s.workers w).pc.finished = false) (hpc : s'.pc = s.pc)
    (hinUse : s'.mdata.inUse = s.mdata.inUse) : Flagged s' where
  toOrderly := ho
  set := fun _ => hinUse.trans (hs.set (.inl (.inl ⟨w, hw⟩)))
  clear := by
    rw [hpc]
    intro hpc
    rcases hs.active hw with ⟨i, hi⟩ | hi | hi <;> simp [hi] at hpc

/-- A step of the parent to where nobody is at work. -/
theorem Orderly.flagged (ho : Orderly s) (hall : s.AllFinished)
    (hpc : (∀ i, s.pc ≠ .forking i) ∧ s.pc ≠ .finalLoaded ∧ s.pc ≠ .aborted)
    (hclear : s.pc = .ended ∨ (∃ t, s.pc = .reset t) → s.mdata.inUse = 0) : Flagged s where
  toOrderly := ho
  set := by
    rintro (hb | h)
    · exact absurd hb (ho.not_busy hall ⟨hpc.1, hpc.2.1⟩)
    · exact absurd h hpc.2.2
  clear := hclear

theorem flagged_step (hs : Flagged s) (h : (machine md5).step s a = some s') : Flagged s' := by
  have ho := orderly_step hs.toOrderly h
  cases step_cases h with
  | load hpc =>
    refine ho.flagged (fun w _ => ?_) (by simp) (by simp)
    show (s.workers w).pc.finished = true
    rw [hs.early (.inl hpc) w]
    rfl
  | save => exact ⟨ho, fun _ => rfl, by simp⟩
  | refuse hpc | forkFails hpc | fork hpc | wait hpc =>
    exact ⟨ho, fun _ => hs.set (.inl (.inr (.inl ⟨_, hpc⟩))), by simp⟩
  | finish => exact ho.flagged (ho.late (.inr (.inl rfl))) (by simp) fun _ => rfl
  | sigint hpc =>
    refine ⟨ho, fun hb => ?_, by simp⟩
    rcases hb with (⟨w, hw⟩ | ⟨i, hi⟩ | hi) | hi
    · exact hs.set (.inl (.inl ⟨w, hw⟩))
    · cases hi
    · cases hi
    · cases hi
  | killLoad => exact ho.flagged (ho.late (.inr (.inr (.inl rfl)))) (by simp) (by simp)
  | killSave =>
    exact ho.flagged (ho.late (.inr (.inr (.inr ⟨_, rfl⟩)))) (by simp) fun _ => rfl
  | server => exact ⟨ho, hs.set, hs.clear⟩
  | @receive w k script hw =>
    obtain ⟨wk, toClient, he, -⟩ := receive_cases s w k script
    exact hs.worker ho (w := w) (by rw [hw]; rfl) (by rw [he]; rfl) (by rw [he]; rfl)
  | «open» hw | lockClaim _ hw | lockUpdate _ hw | loadClaim hw | loadUpdate hw | claim hw
  | giveUp hw | releaseClaim hw | releaseUpdate hw | request hw | sigpipeStart hw
  | sigpipeRequest hw | store hw | update hw | test hw =>
    exact hs.worker ho (by rw [hw]; rfl) rfl rfl

theorem flagged_run (h₀ : Initial s₀) (hr : (machine md5).run s₀ as = some s) : Flagged s :=
  Machine.run_invariant_of_step (fun _ _ _ hs h => flagged_step hs h) h₀.flagged hr

/-- An entry of the table that is CH_DOWNLOAD is held or was so, and one that is CH_UPLOAD is as
it was. -/
theorem Sound.turned (hs : Sound t₀ s) {k : Nat} {c : ChunkInfo} (hc : s.table[k]? = some c)
    (hstatus : c.status = .chDownload ∨ c.status = .chUpload) :
    t₀[k]? = some c ∨ c.status = .chDownload ∧ ∃ w, s.Holds w k := by
  obtain ⟨c₀, hc₀, hentry⟩ := hs.since.entry k c hc
  rcases hentry with rfl | ⟨-, ⟨hfree, -⟩ | hsettled | ⟨hheld, w, hw⟩⟩
  · exact .inl hc₀
  · have hclaimable : Metadata.claimable c = true := hfree
    rcases hstatus with h | h <;> simp [Metadata.claimable, h] at hclaimable
  · have hok : c.status = .chOk := of_decide_eq_true hsettled
    rcases hstatus with h | h <;> simp [h] at hok
  · exact .inr ⟨of_decide_eq_true hheld, w, (phase_holds _).symm.trans hw⟩

/-- What a reset makes of the table. -/
theorem Sound.released_of_reset (hs : Sound t₀ s) {wasOk : Nat → Prop} {m : Metadata}
    (hm : m.chunkInfo = s.table.map Metadata.resetDownloading) (hinUse : m.inUse = 0)
    (hok : ∀ k, wasOk k → HasOk s.table k) : Released t₀ wasOk m where
  inUse := hinUse
  turned := by
    intro k c hc hstatus
    rw [hm] at hc
    obtain ⟨hc, hup⟩ := upload_of_reset hc hstatus
    rcases hs.turned hc hstatus with hbefore | ⟨hdown, -⟩
    · exact ⟨c, hbefore, rfl⟩
    · rw [hup] at hdown
      cases hdown
  ok := fun k hk => hm ▸ hasOk_resetDownloading.mpr (hok k hk)

/-- The chunks that were CH_OK at some point of the run. -/
def WasOk (md5 : Md5) (s₀ : State) (as : List Act) (k : Nat) : Prop :=
  ∃ bs cs t, as = bs ++ cs ∧ (machine md5).run s₀ bs = some t ∧ HasOk t.mdata.chunkInfo k

theorem hasOk_of_wasOk (h₀ : Initial s₀) (hr : (machine md5).run s₀ as = some s) {k : Nat}
    (hk : WasOk md5 s₀ as k) : HasOk s.mdata.chunkInfo k := by
  obtain ⟨bs, cs, t, rfl, ht, c, hc, hok⟩ := hk
  rw [Machine.run_append_of_run ht] at hr
  exact ⟨c, (sound_run h₀.sound ht).ok_run hr hc hok, hok⟩

/-- **What a download leaves behind.**  After `KillClient`, which may come as late as the check
of the MD5, everything is released.  At a normal end it is if no worker has been killed at
work on a chunk.  Where the main process gives up nothing is. -/
theorem released_iff (h₀ : Initial s₀) (hr : (machine md5).run s₀ as = some s) :
    (s.pc = .ended →
      (Released s₀.mdata.chunkInfo (WasOk md5 s₀ as) s.mdata ↔
        ∀ w k, (s.workers w).pc ≠ .dead k) ∧
      Released s₀.mdata.chunkInfo (WasOk md5 s₀ as) s.mdata.resetDownloadingChunks) ∧
    (∀ t, s.pc = .reset t → Released s₀.mdata.chunkInfo (WasOk md5 s₀ as) s.mdata) ∧
    (s.pc = .aborted → ¬ Released s₀.mdata.chunkInfo (WasOk md5 s₀ as) s.mdata) := by
  have hs := sound_run h₀.sound hr
  have hflag := flagged_run h₀ hr
  have hok := fun k => hasOk_of_wasOk h₀ hr (k := k)
  refine ⟨fun hpc => ?_, fun t hpc => ?_, fun hpc hreleased => ?_⟩
  · have hreset : ∀ t, s.pc ≠ .reset t := by simp [hpc]
    have htable := State.table_eq hreset
    refine ⟨⟨fun hreleased w k hw => ?_, fun hdead => ⟨hflag.clear (.inl hpc), ?_, hok⟩⟩, ?_⟩
    · -- the chunk of a killed worker is still CH_DOWNLOAD, and was claimable before
      have hholds : s.Holds w k := by
        rw [State.Holds, hw]
        rfl
      obtain ⟨c, hc, hstatus⟩ := hs.marked hreset hholds
      obtain ⟨c₀, hc₀, hbefore⟩ := hreleased.turned k c hc (.inl hstatus)
      obtain ⟨c₁, hc₁, hfree⟩ := hs.since.claimed w k ((phase_holds _).trans hholds)
      rw [hc₀] at hc₁
      obtain rfl := Option.some.inj hc₁
      have hclaimable : Metadata.claimable c₀ = true := hfree
      simp [Metadata.claimable, hbefore, hstatus] at hclaimable
    · intro k c hc hstatus
      rw [← htable] at hc
      rcases hs.turned hc hstatus with hbefore | ⟨-, w, hw⟩
      · exact ⟨c, hbefore, rfl⟩
      · -- all workers have ended
        have hlt : w < s.numClient := by
          by_contra hle
          rw [State.Holds, hs.outside w (not_lt.mp hle)] at hw
          cases hw
        have hfinished := hs.late (.inr (.inl hpc)) w hlt
        rw [State.Holds] at hw
        cases hwpc : (s.workers w).pc with
        | dead j => exact absurd hwpc (hdead w j)
        | _ => simp [hwpc, WorkerPc.chunk, WorkerPc.finished] at hw hfinished
    · exact hs.released_of_reset (by rw [htable]; rfl) rfl fun k hk => htable ▸ hok k hk
  · have hm := hs.reset t hpc
    have htable : s.table = t := by rw [State.table, hpc]
    refine hs.released_of_reset (htable ▸ hm) (hflag.clear (.inr ⟨t, hpc⟩)) fun k hk => ?_
    rw [htable, ← hasOk_resetDownloading, ← hm]
    exact hok k hk
  · have hset := hflag.set (.inr hpc)
    rw [hreleased.inUse] at hset
    cases hset

end Download

/-! ### Uploads -/

namespace Upload
variable {md5 : Md5} {t₀ : List ChunkInfo} {s₀ s s' : State} {a : Act} {as : List Act}

/-- in_use in the .mdata file; `create` makes a file where it is 0. -/
def State.inUse (s : State) : UInt8 :=
  match s.mdata with
  | some m => m.inUse
  | none => 0

theorem State.inUse_of_some {m : Metadata} (h : s.mdata = some m) : s.inUse = m.inUse := by
  rw [State.inUse, h]

/-- in_use after the parent has saved for the first time. -/
structure Saved (s : State) : Prop where
  pc : s.pc ≠ .loop 0
  set : s.pc ≠ .ended → s.inUse = 2
  clear : s.pc = .ended → s.inUse = 0

theorem Saved.goOn (hs : Saved s) (hpc : s'.pc = s.pc) (hinUse : s'.inUse = s.inUse) :
    Saved s' where
  pc := hpc ▸ hs.pc
  set := by
    rw [hpc, hinUse]
    exact hs.set
  clear := by
    rw [hpc, hinUse]
    exact hs.clear

/-- The parent goes on with its turns, or stops. -/
theorem Saved.parent (hs : Saved s) (hpc : s.pc ≠ .ended) (hloop : s'.pc ≠ .loop 0)
    (hended : s'.pc ≠ .ended) (hmdata : s'.mdata = s.mdata) : Saved s' where
  pc := hloop
  set := fun _ => by
    rw [State.inUse, hmdata]
    exact hs.set hpc
  clear := fun h => absurd h hended

theorem inUse_of_update {m : Metadata} (h : s'.mdata = s.mdata.map m.updateControlData) :
    s'.inUse = s.inUse := by
  unfold State.inUse
  rw [h]
  cases s.mdata <;> rfl

theorem saved_step (hs : Saved s) (h : (machine md5).step s a = some s') : Saved s' := by
  cases step_cases h with
  | @init junk script i m mdata hpc _ _ hm =>
    have hi : i ≠ 0 := by
      rintro rfl
      exact hs.pc hpc
    rw [initMetadata, if_neg hi] at hm
    exact hs.parent (by simp [hpc]) (by simp) (by simp) (congrArg Prod.snd hm).symm
  | save => exact ⟨by simp, fun _ => rfl, by simp⟩
  | finish => exact ⟨by simp, by simp, fun _ => rfl⟩
  | sigpipe hpc | refuse hpc | forkFails hpc | fork hpc | wait hpc | waitFails hpc | exit hpc =>
    exact hs.parent (by simp [hpc]) (by simp) (by simp) rfl
  | sigint hpc =>
    refine hs.parent ?_ (by simp) (by simp) rfl
    rcases hpc with ⟨i, hpc | hpc | hpc⟩ | hpc <;> simp [hpc]
  | claim | update => exact hs.goOn rfl (inUse_of_update rfl)
  | _ => exact hs.goOn rfl rfl

/-- Before the first save nobody is at work, and the file is as it was, if there was one. -/
structure Unsaved (t₀ : List ChunkInfo) (inUse : UInt8) (s : State) : Prop
    extends Orderly t₀ s where
  alone : ∀ w, (s.workers w).pc = .notForked
  pc : ∀ i, s.pc ≠ .loop (i + 1) ∧ s.pc ≠ .inited (i + 1) ∧ s.pc ≠ .saved i
  table : s.table = t₀
  kept : s.pc ≠ .ended → s.inUse = inUse
  clear : s.pc = .ended → s.inUse = 0

theorem Initial.unsaved (h : Initial s) : Unsaved s.table s.inUse s where
  toOrderly := h.orderly
  alone := h.workers
  pc := fun i => by simp [h.pc]
  table := rfl
  kept := fun _ => rfl
  clear := fun hpc => by simp [h.pc] at hpc

theorem unsaved_step {inUse : UInt8} (hs : Unsaved t₀ inUse s) (ha : a ≠ .parent .save)
    (h : (machine md5).step s a = some s') : Unsaved t₀ inUse s' := by
  have ho := orderly_step hs.toOrderly h
  have absent {w : Nat} {pc : WorkerPc} (hw : (s.workers w).pc = pc) (hpc : pc ≠ .notForked) :
      Unsaved t₀ inUse s' := absurd (hw.symm.trans (hs.alone w)) hpc
  cases step_cases h with
  | save => exact absurd rfl ha
  | @init junk script i m mdata hpc _ _ hm =>
    obtain rfl : i = 0 := by
      cases i with
      | zero => rfl
      | succ j => exact absurd hpc (hs.pc j).1
    obtain ⟨-, file, rfl, hfile⟩ := initMetadata_cases hs.toOrderly hpc hm
    refine ⟨ho, hs.alone, by simp, hfile.trans hs.table, fun _ => ?_, by simp⟩
    show file.inUse = inUse
    rw [← hs.kept (by simp [hpc])]
    rw [initMetadata, if_pos rfl] at hm
    -- the file that was there, or the one that `create` has made
    cases hmdata : s.mdata with
    | some m' =>
      rw [hmdata] at hm
      cases hm
      exact (State.inUse_of_some hmdata).symm
    | none =>
      rw [hmdata] at hm
      cases hm
      rw [State.inUse, hmdata]
      rfl
  | sigpipe hpc | refuse hpc | waitFails hpc | exit hpc =>
    exact ⟨ho, hs.alone, by simp, hs.table, fun _ => hs.kept (by simp [hpc]), by simp⟩
  | wait hpc =>
    exact ⟨ho, hs.alone, by simp, hs.table, fun _ => hs.kept (by simp [hpc]), by simp⟩
  | sigint hpc =>
    refine ⟨ho, hs.alone, by simp, hs.table, fun _ => hs.kept ?_, by simp⟩
    rcases hpc with ⟨i, hpc | hpc | hpc⟩ | hpc <;> simp [hpc]
  | @fork i hpc | @forkFails i hpc => exact absurd hpc (hs.pc i).2.2
  | finish hpc =>
    exact ⟨ho, hs.alone, by simp, (hs.fresh hpc).trans hs.table, by simp, fun _ => rfl⟩
  | server => exact ⟨ho, hs.alone, hs.pc, hs.table, hs.kept, hs.clear⟩
  | «open» hw | lockClaim _ hw | lockUpdate _ hw | loadClaim hw | loadUpdate hw | claim hw
  | giveUp hw | releaseClaim hw | releaseUpdate hw | overrun hw | send hw | sigpipeStart hw
  | sigpipeSend hw | update hw | test hw => exact absent hw nofun

/-- in_use, at any point of a run. -/
theorem unsaved_run (h₀ : Initial s₀) (hsave : Act.parent .save ∉ as)
    (hr : (machine md5).run s₀ as = some s) : Unsaved s₀.table s₀.inUse s := by
  refine Machine.run_invariant (P := fun _ a _ => a ≠ .parent .save)
    (fun _ _ _ hs ha h => unsaved_step hs ha h) h₀.unsaved ?_ hr
  refine Machine.along_of_at_step fun bs a cs t u has _ _ => ?_
  rintro rfl
  exact hsave (has ▸ List.mem_append_right _ List.mem_cons_self)

theorem saved_run (hsave : Act.parent .save ∈ as) (hr : (machine md5).run s₀ as = some s) :
    Saved s := by
  obtain ⟨bs, cs, rfl⟩ := List.append_of_mem hsave
  rw [Machine.run_append] at hr
  obtain ⟨t, -, hr⟩ := Option.bind_eq_some_iff.mp hr
  obtain ⟨u, hu, hr⟩ := Machine.run_cons hr
  have hsaved : Saved u := by
    cases step_cases hu with
    | save => exact ⟨by simp, fun _ => rfl, by simp⟩
  exact Machine.run_invariant_of_step (fun _ _ _ hs h => saved_step hs h) hsaved hr

/-- **in_use after an upload.**  It is clear if the main process has come to its normal end, or
has never set it. -/
theorem inUse_iff (h₀ : Initial s₀) (hr : (machine md5).run s₀ as = some s) :
    s.inUse = 0 ↔ s.pc = .ended ∨ Act.parent .save ∉ as ∧ s₀.inUse = 0 := by
  by_cases hpc : s.pc = .ended
  · refine iff_of_true ?_ (.inl hpc)
    by_cases hsave : Act.parent .save ∈ as
    · exact (saved_run hsave hr).clear hpc
    · exact (unsaved_run h₀ hsave hr).clear hpc
  · by_cases hsave : Act.parent .save ∈ as
    · have hset := (saved_run hsave hr).set hpc
      simp [hset, hpc, hsave]
    · have hkept := (unsaved_run h₀ hsave hr).kept hpc
      simp [hkept, hpc, hsave]

/-! #### The chunks -/

/-- The number of workers that have been forked, as long as the parent goes on. -/
def ParentPc.forked (numClient : Nat) : ParentPc → Nat
  | loop i | inited i | saved i => i
  | finalLoaded | ended => numClient
  | aborted | killWait => 0

/-- The workers are there that the parent has forked. -/
def Forked (s : State) : Prop :=
  ∀ w < s.pc.forked s.numClient, (s.workers w).pc ≠ .notForked

theorem forked_step (hs : Forked s) (h : (machine md5).step s a = some s') : Forked s' := by
  have moved {w : Nat} {wk : Worker} (hwk : wk.pc ≠ .notForked) :
      ∀ v < s.pc.forked s.numClient, (update s.workers w wk v).pc ≠ .notForked := by
    intro v hv
    by_cases hvw : v = w
    · rw [hvw, update_self]
      exact hwk
    · rw [update_of_ne _ _ hvw]
      exact hs v hv
  cases step_cases h with
  | @fork i hpc =>
    intro w hw
    change w < i + 1 at hw
    change (update s.workers i (forked s i) w).pc ≠ .notForked
    by_cases hwi : w = i
    · rw [hwi, update_self]
      exact nofun
    · rw [update_of_ne _ _ hwi]
      exact hs w (by rw [hpc]; exact (by omega : w < i))
  | sigpipe | refuse | forkFails | waitFails | sigint | exit =>
    exact fun w hw => absurd hw (Nat.not_lt_zero w)
  | init hpc | save hpc | wait hpc | finish hpc =>
    exact fun w hw => hs w (by rw [hpc]; exact hw)
  | server => exact hs
  | test =>
    refine moved ?_
    dsimp only
    split <;> exact nofun
  | _ => exact moved nofun

/-- As long as the main process goes on, nothing but its saves disturbs the table, and what they
put back is known. -/
structure Live (t₀ : List ChunkInfo) (s : State) : Prop extends Lossless t₀ s where
  accounted : ClaimTable.Accounted rules t₀ (fun _ => True) (view s)
  workers : Forked s

/-- SIGINT has arrived, or the main process has given up. -/
def Stopped (s : State) : Prop := s.pc = .killWait ∨ s.pc = .aborted

theorem Initial.live (h : Initial s) : Live s.table s where
  toLossless := h.lossless
  accounted := h.view ▸ ClaimTable.accounted_initial _
  workers := fun w hw => by
    rw [h.pc] at hw
    exact absurd hw (Nat.not_lt_zero w)

theorem stopped_step (hs : Stopped s) (h : (machine md5).step s a = some s') : Stopped s' := by
  cases step_cases h with
  | init hpc | save hpc | fork hpc | wait hpc | finish hpc =>
    rcases hs with hs | hs <;> simp [hs] at hpc
  | sigpipe | forkFails | refuse | waitFails | exit => exact .inr rfl
  | sigint => exact .inl rfl
  | _ => exact hs

theorem live_step (hs : Live t₀ s) (h : (machine md5).step s a = some s') :
    Stopped s' ∨ Live t₀ s' := by
  by_cases ha : a = .parent .sigint
  · subst ha
    cases step_cases h with
    | sigint => exact .inl (.inl rfl)
  · refine .inr ⟨lossless_step hs.toLossless ?_ h, ?_, forked_step hs.workers h⟩
    · unfold NoSigint
      split
      · exact absurd rfl ha
      · trivial
    · exact accounted_step hs.toLossless hs.accounted (fun _ _ => trivial) h

theorem stopped_run (hs : Stopped s) (hr : (machine md5).run s as = some s') : Stopped s' :=
  Machine.run_invariant_of_step (fun _ _ _ hs h => stopped_step hs h) hs hr

theorem live_run (h₀ : Initial s₀) (hr : (machine md5).run s₀ as = some s) :
    Stopped s ∨ Live s₀.table s := by
  refine Machine.run_invariant_of_step (I := fun s => Stopped s ∨ Live s₀.table s)
    (fun s a s' hs h => ?_) (.inr h₀.live) hr
  rcases hs with hs | hs
  · exact .inl (stopped_step hs h)
  · exact live_step hs h

/-- No worker has been killed at work on a chunk, nor the last one before its loop. -/
structure Unharmed (s : State) : Prop where
  dead : ∀ w k, (s.workers w).pc ≠ .dead k
  killed : ∀ w, w + 1 = s.numClient → (s.workers w).pc ≠ .killed

/-- At the normal end of such a run every chunk is CH_OK that was claimable before, and the others
are as they were. -/
theorem Live.entry (hs : Live t₀ s) (hone : 1 ≤ s.numClient) (hpc : s.pc = .ended)
    (hsafe : Unharmed s) {k : Nat} {c : ChunkInfo} (hc : s.table[k]? = some c) :
    c.status = .chOk ∨ t₀[k]? = some c ∧ Metadata.claimable c = false := by
  have hfinished := hs.late (.inr hpc)
  have hgone : ∀ w, ((view s).phase w).holds = none := by
    intro w
    by_cases hw : w < s.numClient
    · have hfin := hfinished w hw
      show (phase (s.workers w)).holds = none
      rw [phase_holds]
      cases hwpc : (s.workers w).pc with
      | dead j => exact absurd hwpc (hsafe.dead w j)
      | _ => simp [hwpc] at hfin ⊢
    · simp [view, phase, hs.outside w (not_lt.mp hw), ClaimTable.Phase.holds]
  -- the last worker has been forked, and nobody has killed it
  have hleft : (view s).phase (s.numClient - 1) = .left false := by
    have hfin := hfinished (s.numClient - 1) (by omega)
    have hthere := hs.workers (s.numClient - 1) (by
      rw [hpc]
      show s.numClient - 1 < s.numClient
      omega)
    have hkilled := hsafe.killed (s.numClient - 1) (by omega)
    show phase (s.workers (s.numClient - 1)) = .left false
    unfold phase
    cases hwpc : (s.workers (s.numClient - 1)).pc with
    | exited => rfl
    | dead j => exact absurd hwpc (hsafe.dead _ j)
    | notForked => exact absurd hwpc hthere
    | killed => exact absurd hwpc hkilled
    | _ => simp [hwpc] at hfin
  have hoffered : ∀ c₀, t₀[k]? = some c₀ → Metadata.claimable c₀ = true → c.status = .chOk := by
    intro c₀ hc₀ hfree
    obtain ⟨c', hc', hok⟩ := hs.stale.settled_of_late hs.last hleft hgone hc₀ hfree
    obtain rfl := Option.some.inj (hc.symm.trans hc')
    exact of_decide_eq_true hok
  rcases hs.accounted.entries.table k c hc with hbefore | ⟨⟨c₀, hc₀, hfree⟩, -⟩
  · by_cases hfree : Metadata.claimable c = true
    · exact .inl (hoffered c hbefore hfree)
    · exact .inr ⟨hbefore, Bool.eq_false_of_not_eq_true hfree⟩
  · exact .inl (hoffered c₀ hc₀ hfree)

/-- The chunks that were CH_OK at some point of the run. -/
def WasOk (md5 : Md5) (s₀ : State) (as : List Act) (k : Nat) : Prop :=
  ∃ bs cs t, as = bs ++ cs ∧ (machine md5).run s₀ bs = some t ∧ HasOk t.table k

/-- A chunk that was CH_OK before the normal end is so then. -/
theorem Live.hasOk (hs : Live s₀.table s) (h₀ : Initial s₀)
    (hr : (machine md5).run s₀ as = some s) (hone : 1 ≤ s.numClient) (hpc : s.pc = .ended)
    (hsafe : Unharmed s) {k : Nat} (hk : WasOk md5 s₀ as k) : HasOk s.table k := by
  obtain ⟨bs, cs, t, rfl, ht, c, hc, hok⟩ := hk
  rw [Machine.run_append_of_run ht] at hr
  have hlive : Live s₀.table t := by
    refine (live_run h₀ ht).resolve_left fun hstopped => ?_
    rcases stopped_run hstopped hr with h | h <;> rw [hpc] at h <;> cases h
  have hlength : s.table.length = t.table.length :=
    hs.stale.table.length.trans hlive.stale.table.length.symm
  have hlt : k < s.table.length := hlength ▸ (List.getElem?_eq_some_iff.mp hc).1
  have hend := List.getElem?_eq_getElem hlt
  refine ⟨_, hend, ?_⟩
  rcases hs.entry hone hpc hsafe hend with hok' | ⟨hbefore, hno⟩
  · exact hok'
  · -- not on offer, so it has never changed
    rcases hlive.accounted.entries.table k c hc with hsame | ⟨⟨c₀, hc₀, hfree⟩, -⟩
    · rw [hbefore] at hsame
      rw [Option.some.inj hsame]
      exact hok
    · rw [hbefore] at hc₀
      rw [← Option.some.inj hc₀] at hfree
      exact absurd (hno.symm.trans hfree) nofun

theorem one_le_of_save (h₀ : Initial s₀) (hsave : Act.parent .save ∈ as)
    (hr : (machine md5).run s₀ as = some s) : 1 ≤ s.numClient := by
  obtain ⟨bs, cs, rfl⟩ := List.append_of_mem hsave
  rw [numClient_run hr]
  rw [Machine.run_append] at hr
  obtain ⟨t, ht, hr⟩ := Option.bind_eq_some_iff.mp hr
  obtain ⟨u, hu, -⟩ := Machine.run_cons hr
  have horderly : Orderly s₀.table t :=
    Machine.run_invariant_of_step (fun _ _ _ hs h => orderly_step hs h) h₀.orderly ht
  cases step_cases hu with
  | @save i hpc =>
    have hi := horderly.turn i (.inl hpc)
    rw [numClient_run ht] at hi
    omega

/-- **What an upload leaves behind.**  in_use is clear if and only if the main process has come to
its normal end or has never set it; then everything is released, if no worker has been killed at
work on a chunk, nor the last one before its loop. -/
theorem released_of (h₀ : Initial s₀) (hr : (machine md5).run s₀ as = some s)
    {m : Metadata} (hm : s.mdata = some m) :
    (Released s₀.table (WasOk md5 s₀ as) m →
      s.pc = .ended ∨ Act.parent .save ∉ as ∧ s₀.inUse = 0) ∧
    ((s.pc = .ended ∨ Act.parent .save ∉ as ∧ s₀.inUse = 0) → Unharmed s →
      Released s₀.table (WasOk md5 s₀ as) m) := by
  have hinUse := inUse_iff h₀ hr
  have htable := State.table_of_some hm
  rw [State.inUse_of_some hm] at hinUse
  refine ⟨fun hreleased => hinUse.mp hreleased.inUse, fun hfreed hsafe => ?_⟩
  by_cases hsave : Act.parent .save ∈ as
  · have hpc : s.pc = .ended := hfreed.resolve_right fun h => h.1 hsave
    have hone := one_le_of_save h₀ hsave hr
    have hs : Live s₀.table s := by
      refine (live_run h₀ hr).resolve_left fun hstopped => ?_
      rcases hstopped with h | h <;> rw [hpc] at h <;> cases h
    refine ⟨hinUse.mpr hfreed, fun k c hc hstatus => ?_, fun k hk => ?_⟩
    · rcases hs.entry hone hpc hsafe (htable ▸ hc) with hok | ⟨hbefore, -⟩
      · rcases hstatus with h | h <;> rw [hok] at h <;> cases h
      · exact ⟨c, hbefore, rfl⟩
    · exact htable ▸ hs.hasOk h₀ hr hone hpc hsafe hk
  · -- nobody has touched the table
    have hs := (unsaved_run h₀ hsave hr).table
    rw [htable] at hs
    refine ⟨hinUse.mpr hfreed, fun k c hc _ => ⟨c, hs ▸ hc, rfl⟩, fun k hk => ?_⟩
    obtain ⟨bs, cs, t, rfl, ht, hok⟩ := hk
    have hbefore := (unsaved_run h₀ (fun h => hsave (List.mem_append_left cs h)) ht).table
    rwa [hs, ← hbefore]

end Upload

/-! ### Both transfers -/

/-- The main process of the download waits for its two workers and saves. -/
def Download.sampleEnd : List Download.Act :=
  Download.sampleRun ++ [.parent .wait, .parent .finish]

/-- One worker sends the only chunk. -/
def Upload.sampleAtWork : List Upload.Act :=
  Upload.sampleFork ++ .worker 0 (.open []) :: Upload.sampleChunk 0

/-- It finds nothing more to claim, and the main process waits for it and saves. -/
def Upload.sampleEnd : List Upload.Act :=
  Upload.sampleAtWork ++ [.worker 0 .test, .worker 0 .lock, .worker 0 .load,
    .worker 0 (.giveUp []), .parent .wait, .parent .finish]

/-- SIGINT arrives while it is at work. -/
def Upload.sampleStopped : List Upload.Act :=
  Upload.sampleAtWork ++ [.parent .sigint, .worker 0 .test, .parent .exit]

def Upload.sampleStart : Upload.State :=
  .begin 1 1 Upload.sampleName [7] none fun _ => none

abbrev Upload.sampleMachine : Machine Upload.State Upload.Act :=
  Upload.machine fun _ => Buffer.zero _

end Mhftp
