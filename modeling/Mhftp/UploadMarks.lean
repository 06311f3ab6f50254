import Mhftp.UploadClaims

/-! # What an upload marks as sent

A worker looks at none of the results of its writes, and its `sock_error` is never set
(`SockErrorOk`).  An upload run is observed together with the one fact that it forgets:
whether the last chunk of each worker was accepted in full.
-/

namespace Mhftp.Upload
open Library

/-- A run, and whether the last chunk that each worker sent was accepted in full. -/
structure Observed where
  run : State
  full : Nat → Bool

/-- The writes of the chunk that worker `w` is about to send accept its number, its size and
all of its bytes. -/
def sentInFull (s : State) (w : Nat) (script : List WriteResult) : Bool :=
  match (s.workers w).pc with
  | .send k =>
    match readChunk s.localFile (s.workers w) k with
    | some (br, data) => decide (0 ≤ br) && allFull (sendPieces k br data) script
    | none => false
  | _ => false

def observe (o : Observed) : Act → Nat → Bool
  | .worker w (.send script) => update o.full w (sentInFull o.run w script)
  | _ => o.full

def observed (md5 : Md5) : Machine Observed Act :=
  ⟨fun o a => (step md5 o.run a).map fun run => ⟨run, observe o a⟩⟩

/-- Whoever observes a run leaves it as it is. -/
theorem observed_run (md5 : Md5) (o : Observed) (as : List Act) :
    ((observed md5).run o as).map Observed.run = (machine md5).run o.run as := by
  induction as generalizing o with
  | nil => rfl
  | cons a as ih =>
    simp only [Machine.run, observed, machine, Option.bind_map, Option.map_bind]
    apply congrArg
    funext s
    exact ih ⟨s, observe o a⟩

/-- A chunk is set to CH_OK only if it was accepted in full; else it is set to CH_ERROR and
the worker's `chunkNumber` to -1, which ends its loop. -/
def MarksSent (o : Observed) (a : Act) (o' : Observed) : Prop :=
  ∀ w k c, a = .worker w .update → (o.run.workers w).pc = .updateLoaded k →
    o'.run.table[k]? = some c →
      (c.status = .chOk → o.full w = true) ∧
      (o.full w = false → c.status = .chError ∧ (o'.run.workers w).pc = .updated (-1))

/-- A worker that is about to set the status of its chunk has sent it in full. -/
def UpdatesFull (o : Observed) : Act → Observed → Prop
  | .worker w .update, _ => o.full w = true
  | _, _ => True

instance (o o' : Observed) : (a : Act) → Decidable (UpdatesFull o a o')
  | .worker w .update => inferInstanceAs (Decidable (o.full w = true))
  | .worker _ (.open _) | .worker _ .lock | .worker _ .load | .worker _ .claim
  | .worker _ (.giveUp _) | .worker _ .release | .worker _ (.send _) | .worker _ .sigpipe
  | .worker _ .test | .parent _ | .server _ _ _ => isTrue trivial

section Marks
variable {md5 : Md5} {t₀ : List ChunkInfo} {o o' : Observed} {a : Act}

/-- Every chunk that a worker finishes becomes CH_OK. -/
theorem Tracked.update_ok {s s' : State} (hs : Tracked t₀ s) {w : Nat}
    (h : (machine md5).step s (.worker w .update) = some s') :
    ∃ k c, (s.workers w).pc = .updateLoaded k ∧ s'.table[k]? = some c ∧ c.status = .chOk := by
  obtain ⟨k, hw⟩ : ∃ k, (s.workers w).pc = .updateLoaded k := by
    cases step_cases h with
    | update hw => exact ⟨_, hw⟩
  have hk : k < s'.table.length := by
    rw [(tracked_step hs h).length]
    exact hs.sized.holds w k (by simp [view, phase, hw, ClaimTable.Phase.holds])
  refine ⟨k, s'.table[k], hw, List.getElem?_eq_getElem hk, ?_⟩
  simp only [hs.update_table hw h, List.getElem_modify_eq]
  rfl

theorem step_of_observed (h : (observed md5).step o a = some o') :
    (machine md5).step o.run a = some o'.run := by
  obtain ⟨s, hs, rfl⟩ := Option.map_eq_some_iff.mp h
  exact hs

theorem Tracked.updatesFull (hs : Tracked t₀ o.run) (ha : MarksSent o a o')
    (h : (observed md5).step o a = some o') : UpdatesFull o a o' := by
  have hstep := step_of_observed h
  unfold UpdatesFull
  split
  · next w =>
    obtain ⟨k, c, hw, hc, hok⟩ := hs.update_ok hstep
    exact (ha w k c rfl hw hc).1 hok
  · trivial

theorem Tracked.along_updatesFull (hs : Tracked t₀ o.run) {as : List Act}
    (h : (observed md5).Along MarksSent o as) : (observed md5).Along UpdatesFull o as :=
  Machine.along_of_invariant (I := fun o => Tracked t₀ o.run)
    (fun _ _ _ hs ha h => ⟨tracked_step hs (step_of_observed h), hs.updatesFull ha h⟩) hs h

end Marks

/-- **When an upload marks only what was sent.**  In every run, each chunk set to CH_OK was
accepted in full, and each other one is set to CH_ERROR by a worker that leaves its loop,
exactly if every worker that gets to set the status of a chunk has sent it in full. -/
theorem marks_sent_iff (md5 : Md5) {o : Observed} (as : List Act) (h₀ : Initial o.run) :
    (observed md5).Along MarksSent o as ↔ (observed md5).Along UpdatesFull o as := by
  constructor
  · exact h₀.tracked.along_updatesFull
  · intro h
    refine Machine.Along.imp (fun o a o' ha => ?_) h
    rintro w k c rfl - -
    have hfull : o.full w = true := ha
    simp [hfull]

/-- A worker claims the chunk, sends it with the results of `script`, and finishes it. -/
def sampleSend (script : List WriteResult) : List Act :=
  sampleFork ++ [.worker 0 (.open []), .worker 0 .lock, .worker 0 .load, .worker 0 .claim,
    .worker 0 .release, .worker 0 (.send script), .worker 0 .lock, .worker 0 .load,
    .worker 0 .update]

theorem marks_sent_sample :
    (observed fun _ => Buffer.zero _).Along MarksSent
      ⟨.begin 1 2 sampleName [7, 8] none fun _ => none, fun _ => false⟩
      (sampleSend [.count 8, .count 8, .count 2]) :=
  (marks_sent_iff _ _ (initial_begin _ _ _ _ _ _)).mpr (by decide +kernel)

/-- The number and the size get through, and of the two bytes of the chunk one. -/
theorem marks_sent_fails :
    ¬ (observed fun _ => Buffer.zero _).Along MarksSent
        ⟨.begin 1 2 sampleName [7, 8] none fun _ => none, fun _ => false⟩
        (sampleSend [.count 8, .count 8, .count 1]) ∧
      ((observed fun _ => Buffer.zero _).run
        ⟨.begin 1 2 sampleName [7, 8] none fun _ => none, fun _ => false⟩
        (sampleSend [.count 8, .count 8, .count 1])).map
          (fun o => (o.full 0, o.run.table.map ChunkInfo.status)) = some (false, [.chOk]) := by
  refine ⟨fun h => ?_, by decide +kernel⟩
  have hfull := (initial_begin _ _ _ _ _ _).tracked.along_updatesFull h
  revert hfull
  decide +kernel

end Mhftp.Upload
