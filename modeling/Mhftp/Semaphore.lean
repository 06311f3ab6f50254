import Mhftp.DownloadClaims
import Mhftp.Library.Semaphore
import Mhftp.MetadataFile

/-! # The lock of the workers

The lock of a download is a `Semaphore`: `semaphore_get_lock` takes 1 from it and
`semaphore_release_lock` puts it back, both with SEM_UNDO, and `~MhProtoClient` deletes it.
Nobody looks at what the two return; where the semaphore is gone they return at once.  Else
`semop` waits or succeeds: that it fails otherwise is left out.

A worker may be killed anywhere, and takes no step after that.  So it is with all of them at a
second SIGINT, which may come while `KillClient` waits for the workers, or later: the second
`KillClient` kills them and waits for nobody.  `pid_` of a worker that was not forked is taken as
the number of no process.
-/

namespace Mhftp
open Library

/-! ### Semaphore -/

/-- `set_semvalue`, for the constructor. -/
def setSemvalue : Option (Semaphore Nat) := some (.setval 1)

def semaphoreGetLock (sem : Option (Semaphore Nat)) (p : Nat) :
    Option (Option (Semaphore Nat)) :=
  match sem with
  | none => some none
  | some s => (s.semop p (-1)).map some

def semaphoreReleaseLock (sem : Option (Semaphore Nat)) (p : Nat) :
    Option (Option (Semaphore Nat)) :=
  match sem with
  | none => some none
  | some s => (s.semop p 1).map some

/-- What becomes of the semaphore; none is left after `del_semvalue`. -/
def semaphoreAct (sem : Option (Semaphore Nat)) :
    LockOp Nat → Option (Option (Semaphore Nat))
  | .get p => semaphoreGetLock sem p
  | .release p => semaphoreReleaseLock sem p
  | .exit p => some (sem.map fun s => s.exit p)
  | .remove => some none

/-- The semaphore that a lock is made of. -/
def semaphoreOf (l : Lock Nat) : Option (Semaphore Nat) :=
  if l.removed then none else some l.semaphore

theorem semaphoreOf_some {l : Lock Nat} (h : l.removed = false) :
    semaphoreOf l = some l.semaphore := by
  rw [semaphoreOf, h]
  rfl

theorem semaphoreOf_none {l : Lock Nat} (h : l.removed = true) : semaphoreOf l = none := by
  rw [semaphoreOf, h]
  rfl

theorem semaphoreAct_eq (l : Lock Nat) (op : LockOp Nat) (hop : l.Admits op) :
    semaphoreAct (semaphoreOf l) op = (l.act op).map semaphoreOf := by
  cases op with
  | get p =>
    have hremoved : l.removed = false := hop
    rw [semaphoreOf_some hremoved]
    show (l.semaphore.semop p (-1)).map some = _
    rw [l.semop_get p]
    simp only [Lock.act]
    cases l.holder with
    | none => exact congrArg some (by rw [semaphoreOf_some]; exact hremoved)
    | some q => rfl
  | release p =>
    obtain ⟨hremoved, hp⟩ := hop
    rw [semaphoreOf_some hremoved]
    show (l.semaphore.semop p 1).map some = _
    rw [Lock.semop_release hp]
    exact congrArg some (by rw [semaphoreOf_some]; exact hremoved)
  | exit p =>
    have hkept : (if l.holder = some p then { l with holder := none } else l).removed =
        l.removed := by
      split <;> rfl
    simp only [semaphoreAct, Lock.act, Option.map_some]
    by_cases hremoved : l.removed = true
    · rw [semaphoreOf_none hremoved, semaphoreOf_none (hkept.trans hremoved)]
      rfl
    · have hremoved := Bool.not_eq_true _ ▸ hremoved
      have hexit := l.act_exit p
      simp only [Lock.act, Option.map_some, Option.some.injEq] at hexit
      rw [semaphoreOf_some hremoved, semaphoreOf_some (hkept.trans hremoved), hexit]
      rfl
  | remove => rfl

namespace Download

/-! ### The processes without their lock -/

def State.unlocked (s : State) : State := { s with lock := none }

inductive ProcessAct
  | client (a : Act)
  /-- worker `w` is killed -/
  | kill (w : Nat)
  /-- SIGINT once more, in `KillClient` -/
  | sigint

/-- Where a worker is that has been killed. -/
def WorkerPc.killedAt : WorkerPc → WorkerPc
  | claimed k | request k | receive k | store k _ | update k | updateLocked k | updateLoaded k =>
    .dead k
  | _ => .killed

/-- Between `semaphore_get_lock` and `semaphore_release_lock`. -/
def WorkerPc.critical : WorkerPc → Bool
  | claimLocked | claimLoaded | claimed _ | updateLocked _ | updateLoaded _ | updated _ => true
  | _ => false

/-- SIGKILL, which means nothing to a process that has ended. -/
def Worker.kill (wk : Worker) : Worker :=
  if wk.pc.finished then wk else { wk with pc := wk.pc.killedAt }

/-- `KillClient` when `kill_proc` is more than 1: the workers are killed, and the parent loads
the table at once. -/
def State.killWorkers (s : State) : State :=
  { s with
    workers := fun w => (s.workers w).kill
    metadata := s.mdata
    pc := .killLoaded }

/-- A step of a process, which does not look at `lock`. -/
def processStep (md5 : Md5) (s : State) : ProcessAct → Option State
  | .client a => (step md5 s.unlocked a).map State.unlocked
  | .kill w =>
    if (s.workers w).pc.finished then none else some (s.setWorker w (s.workers w).kill)
  | .sigint =>
    match s.pc with
    | .killWait | .killLoaded => some s.killWorkers
    | _ => none

def processes (md5 : Md5) : Machine State ProcessAct := ⟨processStep md5⟩

/-- What a step that ends in `t` does about the lock. -/
def lockOps (t : State) : ProcessAct → List (LockOp Nat)
  | .client (.worker w .lock) => [.get w]
  | .client (.worker w .release) => [.release w]
  | .client (.worker w .giveUp) => [.release w, .exit w]
  | .client (.worker w _) => if (t.workers w).pc.finished then [.exit w] else []
  | .client (.parent .finish) | .client (.parent .killSave) => [.remove]
  | .client _ => []
  | .kill w => [.exit w]
  | .sigint => (List.range t.numClient).map .exit

/-- The processes with the semaphore. -/
def semaphored (md5 : Md5) : Machine (State × Option (Semaphore Nat)) ProcessAct :=
  (processes md5).guarded semaphoreAct fun _ a t => lockOps t a

/-- The processes with a lock. -/
def locked (md5 : Md5) : Machine (State × Lock Nat) ProcessAct :=
  (processes md5).guarded Lock.act fun _ a t => lockOps t a

theorem Worker.kill_finished (wk : Worker) : wk.kill.pc.finished = true := by
  unfold Worker.kill
  cases hpc : wk.pc <;> simp [WorkerPc.killedAt, WorkerPc.finished, hpc]

theorem WorkerPc.critical_of_finished {pc : WorkerPc} (h : pc.finished = true) :
    pc.critical = false := by
  cases pc with
  | notForked | exited | killed | dead => rfl
  | _ => cases h

theorem Worker.kill_critical (wk : Worker) : wk.kill.pc.critical = false :=
  WorkerPc.critical_of_finished wk.kill_finished

/-- The parent has come to its end, with `delete mhProto`. -/
def ParentPc.cleared : ParentPc → Bool
  | ended | reset _ => true
  | _ => false

/-- The lock of a state. -/
def State.theLock (s : State) : Lock Nat := ⟨s.lock, s.pc.cleared⟩

/-! ### Who has the lock -/

/-- The workers in their critical sections have the lock, and the parent removes it when no
worker is left. -/
structure Tidy (s : State) (l : Lock Nat) : Prop where
  holder : ∀ w, (s.workers w).pc.critical = true ↔ l.holder = some w
  removed : l.removed = s.pc.cleared
  forked : ∀ i, s.pc = .forking i → ∀ w, i ≤ w → (s.workers w).pc = .notForked
  early : s.pc = .start ∨ s.pc = .loaded → ∀ w, (s.workers w).pc = .notForked
  outside : ∀ w, s.numClient ≤ w → (s.workers w).pc = .notForked
  late : (s.pc = .finalLoaded ∨ s.pc = .killLoaded ∨ s.pc.cleared = true) → s.AllFinished

section Tidy
variable {md5 : Md5} {s t : State} {l l' : Lock Nat} {w : Nat}

theorem Tidy.lt (hs : Tidy s l) (hw : (s.workers w).pc.finished = false) : w < s.numClient := by
  by_contra hle
  rw [hs.outside w (not_lt.mp hle)] at hw
  cases hw

theorem Tidy.not_cleared (hs : Tidy s l) (hw : (s.workers w).pc.finished = false) :
    l.removed = false := by
  rw [hs.removed]
  by_contra hcleared
  have hall := hs.late (.inr (.inr (Bool.not_eq_false _ ▸ hcleared)))
  rw [hall w (hs.lt hw)] at hw
  cases hw

/-- One worker moves, and has the lock afterwards if it is in its critical section. -/
theorem Tidy.worker (hs : Tidy s l) (hw : (s.workers w).pc.finished = false) {wk : Worker}
    (hworkers : t.workers = update s.workers w wk) (hpc : t.pc = s.pc)
    (hnum : t.numClient = s.numClient) (hremoved : l'.removed = l.removed)
    (hself : l'.holder = some w ↔ wk.pc.critical = true)
    (hother : ∀ v, v ≠ w → (l'.holder = some v ↔ l.holder = some v)) : Tidy t l' := by
  have hlt := hs.lt hw
  have habsent : ∀ v, (s.workers v).pc = .notForked → (t.workers v).pc = .notForked := by
    intro v hv
    have hne : v ≠ w := by
      rintro rfl
      rw [hv] at hw
      cases hw
    rw [hworkers, update_of_ne _ _ hne]
    exact hv
  have hgoing : ¬ s.AllFinished := fun hall => by
    rw [hall w hlt] at hw
    cases hw
  constructor
  case holder =>
    intro v
    by_cases hv : v = w
    · rw [hv, hworkers, update_self]
      exact hself.symm
    · rw [hworkers, update_of_ne _ _ hv, hother v hv]
      exact hs.holder v
  case removed => rw [hremoved, hpc, hs.removed]
  case forked =>
    intro i hi v hv
    exact habsent v (hs.forked i (hpc ▸ hi) v hv)
  case early =>
    intro he v
    exact habsent v (hs.early (hpc ▸ he) v)
  case outside =>
    intro v hv
    exact habsent v (hs.outside v (hnum ▸ hv))
  case late =>
    intro hlate
    rw [hpc] at hlate
    exact absurd (hs.late hlate) hgoing

/-- What a step of a worker does to its place and needs of the lock. -/
def LockMove (a : WorkerAct) (pc pc' : WorkerPc) : Prop :=
  match a with
  | .lock => pc.critical = false ∧ pc'.critical = true
  | .release | .giveUp => pc.critical = true ∧ pc'.critical = false
  | _ => pc'.critical = pc.critical ∧ (pc'.finished = true → pc'.critical = false)

/-- The lock of a download after a step of worker `w`. -/
def lockAfter (lock : Option Nat) (w : Nat) : WorkerAct → Option Nat
  | .lock => some w
  | .release | .giveUp => none
  | _ => lock

theorem worker_step {a : WorkerAct} (h : (machine md5).step s (.worker w a) = some t) :
    ∃ wk, t.workers = update s.workers w wk ∧ t.pc = s.pc ∧ t.numClient = s.numClient ∧
      t.lock = lockAfter s.lock w a ∧ (s.workers w).pc.finished = false ∧
      LockMove a (s.workers w).pc wk.pc := by
  cases step_cases h with
  | «open» hw | lockClaim _ hw | lockUpdate _ hw | loadClaim hw | loadUpdate hw | claim hw
  | giveUp hw | releaseClaim hw | releaseUpdate hw | request hw | sigpipeStart hw
  | sigpipeRequest hw | store hw | update hw =>
    exact ⟨_, rfl, rfl, rfl, rfl, by rw [hw]; rfl, by rw [hw]; simp [LockMove, WorkerPc.critical,
      WorkerPc.finished]⟩
  | test hw =>
    refine ⟨_, rfl, rfl, rfl, rfl, by rw [hw]; rfl, ?_⟩
    rw [hw]
    dsimp only
    split <;> simp [LockMove, WorkerPc.critical, WorkerPc.finished]
  | @receive _ k script hw =>
    obtain ⟨wk, toClient, he, -, -, hcase⟩ := receive_cases s w k script
    refine ⟨wk, by rw [he]; rfl, by rw [he]; rfl, by rw [he]; rfl, by rw [he]; rfl,
      by rw [hw]; rfl, ?_⟩
    rw [hw]
    rcases hcase with ⟨hpc, -⟩ | hpc | ⟨data, size, hpc, -⟩ <;>
      simp [hpc, LockMove, WorkerPc.critical, WorkerPc.finished]

/-- What a worker's step does to the lock. -/
theorem lock_move {a : WorkerAct} (hs : Tidy s l)
    (hmove : LockMove a (s.workers w).pc (t.workers w).pc)
    (hops : (lockOps t (.client (.worker w a))).foldlM Lock.act l = some l') :
    l'.removed = l.removed ∧ (l'.holder = some w ↔ (t.workers w).pc.critical = true) ∧
      ∀ v, v ≠ w → (l'.holder = some v ↔ l.holder = some v) := by
  have hholder := hs.holder w
  -- the worker releases what it has
  have released {l' : Lock Nat} (hhas : l.holder = some w)
      (hcritical : (t.workers w).pc.critical = false) (hl' : l' = { l with holder := none }) :
      l'.removed = l.removed ∧ (l'.holder = some w ↔ (t.workers w).pc.critical = true) ∧
        ∀ v, v ≠ w → (l'.holder = some v ↔ l.holder = some v) := by
    subst hl'
    refine ⟨rfl, by simp [hcritical], fun v hv => ?_⟩
    simp [hhas, Ne.symm hv]
  cases a with
  | lock =>
    obtain ⟨-, hcritical⟩ := hmove
    cases hl : l.holder with
    | some q => simp [lockOps, Lock.act, hl] at hops
    | none =>
      simp only [lockOps, List.foldlM_cons, List.foldlM_nil, Lock.act, hl] at hops
      obtain rfl := Option.some.inj hops
      exact ⟨rfl, by simp [hcritical], fun v hv => by simp [Ne.symm hv]⟩
  | release =>
    exact released (hholder.mp hmove.1) hmove.2 (Option.some.inj hops).symm
  | giveUp =>
    have hl' : l' = { l with holder := none } := by
      simpa [lockOps, Lock.act] using hops.symm
    exact released (hholder.mp hmove.1) hmove.2 hl'
  | _ =>
    obtain ⟨hcritical, hfinished⟩ := hmove
    have hl' : l' = l := by
      by_cases hf : (t.workers w).pc.finished = true
      · have hnot : l.holder ≠ some w := fun hhas => by
          rw [← hholder, ← hcritical, hfinished hf] at hhas
          cases hhas
        simpa [lockOps, Lock.act, hf, hnot] using hops.symm
      · simpa [lockOps, hf] using hops.symm
    rw [hl', hcritical]
    exact ⟨rfl, hholder.symm, fun v _ => Iff.rfl⟩

/-- The parent moves, and forks nothing. -/
theorem Tidy.parent (hs : Tidy s l) (hworkers : t.workers = s.workers)
    (hnum : t.numClient = s.numClient) (hholder : l'.holder = l.holder)
    (hremoved : l'.removed = t.pc.cleared)
    (hforked : ∀ i, t.pc = .forking i → ∀ w, (s.workers w).pc = .notForked)
    (hearly : t.pc = .start ∨ t.pc = .loaded → ∀ w, (s.workers w).pc = .notForked)
    (hlate : (t.pc = .finalLoaded ∨ t.pc = .killLoaded ∨ t.pc.cleared = true) → s.AllFinished) :
    Tidy t l' := by
  constructor
  case holder =>
    intro v
    rw [hworkers, hholder]
    exact hs.holder v
  case removed => exact hremoved
  case forked =>
    intro i hi v _
    rw [hworkers]
    exact hforked i hi v
  case early =>
    intro he v
    rw [hworkers]
    exact hearly he v
  case outside =>
    intro v hv
    rw [hworkers]
    exact hs.outside v (hnum ▸ hv)
  case late =>
    intro hl v hv
    rw [hworkers]
    exact hlate hl v (hnum ▸ hv)

theorem locked_cases {a : ProcessAct} (h : (locked md5).step (s, l) a = some (t, l')) :
    processStep md5 s a = some t ∧ (lockOps t a).foldlM Lock.act l = some l' :=
  Machine.guarded_cases h

theorem tidy_parent {a : ParentAct} (hs : Tidy s l)
    (h : (machine md5).step s.unlocked (.parent a) = some t)
    (hops : (lockOps t.unlocked (.client (.parent a))).foldlM Lock.act l = some l') :
    Tidy t.unlocked l' := by
  have hremoved := hs.removed
  cases step_cases h with
  | load hpc =>
    obtain rfl := Option.some.inj hops
    have hpc : s.pc = .start := hpc
    rw [hpc] at hremoved
    exact hs.parent rfl rfl rfl hremoved (by simp [State.unlocked]) (fun _ => hs.early (.inl hpc))
      (by simp [State.unlocked, ParentPc.cleared])
  | save hpc =>
    obtain rfl := Option.some.inj hops
    have hpc : s.pc = .loaded := hpc
    rw [hpc] at hremoved
    exact hs.parent rfl rfl rfl hremoved (fun _ _ => hs.early (.inr hpc)) (by simp [State.unlocked])
      (by simp [State.unlocked, ParentPc.cleared])
  | refuse hpc | forkFails hpc =>
    obtain rfl := Option.some.inj hops
    have hpc : s.pc = _ := hpc
    rw [hpc] at hremoved
    exact hs.parent rfl rfl rfl hremoved (by simp [State.unlocked]) (by simp [State.unlocked])
      (by simp [State.unlocked, ParentPc.cleared])
  | sigint hpc =>
    obtain rfl := Option.some.inj hops
    have hcleared : l.removed = false := by
      rw [hremoved]
      rcases hpc with hpc | hpc | ⟨i, hpc⟩ | hpc <;>
        exact congrArg ParentPc.cleared (show s.pc = _ from hpc)
    exact hs.parent rfl rfl rfl hcleared (by simp [State.unlocked]) (by simp [State.unlocked])
      (by simp [State.unlocked, ParentPc.cleared])
  | wait hpc hall | killLoad hpc hall =>
    obtain rfl := Option.some.inj hops
    have hpc : s.pc = _ := hpc
    rw [hpc] at hremoved
    exact hs.parent rfl rfl rfl hremoved (by simp [State.unlocked]) (by simp [State.unlocked])
      (fun _ => hall)
  | finish hpc =>
    obtain rfl := Option.some.inj hops
    exact hs.parent rfl rfl rfl rfl (by simp [State.unlocked]) (by simp [State.unlocked])
      (fun _ => hs.late (.inl hpc))
  | killSave hpc =>
    obtain rfl := Option.some.inj hops
    exact hs.parent rfl rfl rfl rfl (by simp [State.unlocked]) (by simp [State.unlocked])
      (fun _ => hs.late (.inr (.inl hpc)))
  | @fork i hpc hn hi =>
    obtain rfl := Option.some.inj hops
    have hpc : s.pc = .forking i := hpc
    have hi : i < s.numClient := hi
    rw [hpc] at hremoved
    have habsent := hs.forked i hpc
    constructor
    case holder =>
      intro w
      rw [← hs.holder w]
      show (update s.workers i _ w).pc.critical = true ↔ _
      by_cases hw : w = i
      · rw [hw, update_self, habsent i (le_refl i)]
        exact Iff.rfl
      · rw [update_of_ne _ _ hw]
    case removed => exact hremoved
    case forked =>
      intro j hj w hw
      obtain rfl := ParentPc.forking.inj hj
      show (update s.workers i _ w).pc = _
      rw [update_of_ne _ _ (by omega)]
      exact habsent w (by omega)
    case early => simp [State.unlocked]
    case outside =>
      intro w hw
      have hw : s.numClient ≤ w := hw
      show (update s.workers i _ w).pc = _
      rw [update_of_ne _ _ (by omega)]
      exact hs.outside w hw
    case late => simp [State.unlocked, ParentPc.cleared]

/-- When all workers are killed nobody has the lock. -/
theorem Tidy.killWorkers (hs : Tidy s l) (hpc : s.pc.cleared = false)
    (hops : (lockOps s.killWorkers .sigint).foldlM Lock.act l = some l') :
    Tidy s.killWorkers l' := by
  obtain ⟨l'', hl'', hremoved, hholder⟩ := l.foldlM_exit (List.range s.numClient)
  obtain rfl := Option.some.inj (hl''.symm.trans hops)
  constructor
  case holder =>
    intro w
    have hcritical : (s.killWorkers.workers w).pc.critical = false := (s.workers w).kill_critical
    rw [hcritical, hholder w, ← hs.holder w, List.mem_range]
    constructor
    · intro h
      cases h
    · -- a worker with the lock is one of those that are killed
      rintro ⟨hw, hlt⟩
      refine absurd (hs.lt ?_) hlt
      by_contra hfinished
      rw [WorkerPc.critical_of_finished (Bool.not_eq_false _ ▸ hfinished)] at hw
      cases hw
  case removed => rw [hremoved, hs.removed, hpc]; rfl
  case forked => simp [State.killWorkers]
  case early => simp [State.killWorkers]
  case outside =>
    intro w hw
    have habsent := hs.outside w hw
    show (s.workers w).kill.pc = .notForked
    rw [Worker.kill, habsent]
    exact habsent
  case late => exact fun _ w _ => (s.workers w).kill_finished

theorem tidy_step {a : ProcessAct} (hs : Tidy s l)
    (h : (locked md5).step (s, l) a = some (t, l')) : Tidy t l' := by
  obtain ⟨hstep, hops⟩ := locked_cases h
  cases a with
  | kill w =>
    simp only [processStep] at hstep
    split at hstep
    · cases hstep
    · next hw =>
      obtain rfl := Option.some.inj hstep
      obtain rfl := Option.some.inj hops
      refine hs.worker (Bool.not_eq_true _ ▸ hw) rfl rfl rfl ?_ ?_ fun v hv => ?_
      · split <;> rfl
      · rw [Worker.kill_critical]
        split <;> simp [*]
      · split
        · next hhas => simp [show l.holder = some w from hhas, Ne.symm hv]
        · exact Iff.rfl
  | sigint =>
    simp only [processStep] at hstep
    split at hstep
    case h_3 => cases hstep
    all_goals
      next hpc =>
      obtain rfl := Option.some.inj hstep
      exact hs.killWorkers (by rw [hpc]; rfl) hops
  | client a =>
    obtain ⟨u, hu, rfl⟩ := Option.map_eq_some_iff.mp hstep
    have hu : (machine md5).step s.unlocked a = some u := hu
    cases a with
    | parent a => exact tidy_parent hs hu hops
    | worker w a =>
      obtain ⟨wk, hworkers, hpc, hnum, -, hw, hmove⟩ := worker_step hu
      have hself : u.unlocked.workers w = wk := by
        show u.workers w = wk
        rw [hworkers, update_self]
      obtain ⟨hremoved, hholder, hother⟩ := lock_move hs (hself.symm ▸ hmove) hops
      exact hs.worker hw hworkers hpc hnum hremoved (hself ▸ hholder) hother
    | server w script junk =>
      obtain rfl := Option.some.inj hops
      cases step_cases hu with
      | server => exact ⟨hs.holder, hs.removed, hs.forked, hs.early, hs.outside, hs.late⟩

theorem tidy_unlocked : Tidy s.unlocked l ↔ Tidy s l :=
  ⟨fun h => ⟨h.holder, h.removed, h.forked, h.early, h.outside, h.late⟩,
    fun h => ⟨h.holder, h.removed, h.forked, h.early, h.outside, h.late⟩⟩

theorem Initial.tidy (h : Initial s) : Tidy s s.theLock where
  holder := fun w => by simp [State.theLock, h.lock, h.workers w, WorkerPc.critical]
  removed := rfl
  forked := fun _ _ w _ => h.workers w
  early := fun _ => h.workers
  outside := fun w _ => h.workers w
  late := by simp [h.pc, ParentPc.cleared]

/-- A worker has what it releases, and the semaphore is there. -/
theorem Tidy.admits {a : ProcessAct} (hs : Tidy s l) (h : processStep md5 s a = some t) :
    l.AdmitsAll (lockOps t a) := by
  cases a with
  | kill w => exact ⟨trivial, fun _ _ => trivial⟩
  | sigint => exact l.admitsAll_exit _
  | client a =>
    obtain ⟨u, hu, rfl⟩ := Option.map_eq_some_iff.mp h
    have hu : (machine md5).step s.unlocked a = some u := hu
    cases a with
    | server w script junk => trivial
    | parent a =>
      cases a with
      | finish | killSave => exact ⟨trivial, fun _ _ => trivial⟩
      | _ => trivial
    | worker w a =>
      obtain ⟨wk, -, -, -, -, hw, hmove⟩ := worker_step hu
      have hthere : l.removed = false := hs.not_cleared hw
      cases a with
      | lock => exact ⟨hthere, fun _ _ => trivial⟩
      | release => exact ⟨⟨hthere, (hs.holder w).mp hmove.1⟩, fun _ _ => trivial⟩
      | giveUp =>
        exact ⟨⟨hthere, (hs.holder w).mp hmove.1⟩, fun _ _ => ⟨trivial, fun _ _ => trivial⟩⟩
      | _ =>
        simp only [lockOps]
        split
        · exact ⟨trivial, fun _ _ => trivial⟩
        · trivial

/-- The semaphore does what the lock does. -/
theorem semaphored_run (hs : Tidy s l) (bs : List ProcessAct) :
    (semaphored md5).run (s, semaphoreOf l) bs =
      ((locked md5).run (s, l) bs).map fun t => (t.1, semaphoreOf t.2) :=
  Machine.guarded_run semaphoreAct_eq (I := fun x => Tidy x.1 x.2)
    (fun _ _ _ hs h => tidy_step hs h) (fun _ _ _ hs h => hs.admits h) (s := (s, l)) hs bs

/-! ### The lock of a download -/

/-- Two steps under one condition. -/
theorem map_guarded {α β : Type} {f : α → β} {c d : Prop} [Decidable c] [Decidable d] {x y : α}
    (hcd : c ↔ d) (hxy : f x = f y) :
    (if c then some x else none).map f = (if d then some y else none).map f := by
  by_cases hc : c
  · rw [if_pos hc, if_pos (hcd.mp hc), Option.map_some, hxy, Option.map_some]
  · rw [if_neg hc, if_neg (mt hcd.mpr hc), Option.map_none]

theorem unlocked_receive (s : State) (w k : Nat) (script : List (List ReadResult)) :
    (receive s.unlocked w k script).unlocked = (receive s w k script).unlocked := by
  unfold receive
  dsimp only [State.unlocked]
  split
  · rfl
  · split
    · rfl
    · split
      · rfl
      · split <;> split <;> rfl

/-- Only `semaphore_get_lock` looks at the lock. -/
theorem unlocked_step {a : Act} (ha : ∀ w, a ≠ .worker w .lock) :
    (step md5 s.unlocked a).map State.unlocked = (step md5 s a).map State.unlocked := by
  cases a with
  | parent a =>
    cases a with
    | fork | forkFails | wait | killLoad | refuse =>
      simp only [step, parentStep, State.unlocked]
      split
      · exact map_guarded Iff.rfl rfl
      · rfl
    | _ =>
      simp only [step, parentStep, State.unlocked]
      split <;> rfl
  | server w script junk =>
    simp only [step, serverStep, State.unlocked, Option.map_map]
    rfl
  | worker w a =>
    cases a with
    | lock => exact absurd rfl (ha w)
    | claim | giveUp =>
      simp only [step, workerStep, State.unlocked]
      split
      · split <;> rfl
      · rfl
    | receive script =>
      have hworkers : s.unlocked.workers = s.workers := rfl
      simp only [step, workerStep, hworkers]
      split
      · exact congrArg some (unlocked_receive s w _ script)
      · rfl
    | _ =>
      simp only [step, workerStep, State.unlocked]
      split <;> rfl

/-- The lock after a step that is none of `semaphore_get_lock`. -/
theorem lockOps_unlocked {a : Act} (hs : Tidy s s.theLock) (ha : ∀ w, a ≠ .worker w .lock)
    (h : (machine md5).step s a = some t) :
    (lockOps t.unlocked (.client a)).foldlM Lock.act s.theLock = some t.theLock := by
  cases a with
  | server w script junk =>
    cases step_cases h with
    | server => rfl
  | parent a =>
    have hlock {pc : ParentPc} (hpc : s.pc = pc) :
        s.theLock = ⟨s.lock, pc.cleared⟩ := by rw [← hpc]; rfl
    cases step_cases h with
    | load hpc | save hpc | refuse hpc | forkFails hpc | wait hpc | killLoad hpc | fork hpc =>
      rw [hlock hpc]
      rfl
    | finish | killSave => rfl
    | sigint hpc =>
      rcases hpc with hpc | hpc | ⟨i, hpc⟩ | hpc <;> rw [hlock hpc] <;> rfl
  | worker w a =>
    obtain ⟨wk, hworkers, hpc, -, hlock, hw, hmove⟩ := worker_step h
    have hself : t.unlocked.workers w = wk := by
      show t.workers w = wk
      rw [hworkers, update_self]
    have hafter : t.theLock = ⟨lockAfter s.lock w a, s.pc.cleared⟩ := by
      rw [State.theLock, hlock, hpc]
    rw [hafter]
    cases a with
    | lock => exact absurd rfl (ha w)
    | release => rfl
    | giveUp => simp [lockOps, Lock.act, lockAfter, State.theLock]
    | _ =>
      obtain ⟨hcritical, hfinished⟩ := hmove
      by_cases hf : wk.pc.finished = true
      · have hnot : s.lock ≠ some w := fun hhas => by
          rw [hfinished hf] at hcritical
          cases hcritical.trans ((hs.holder w).mpr hhas)
        simp [lockOps, Lock.act, lockAfter, State.theLock, hself, hf, hnot]
      · simp [lockOps, lockAfter, State.theLock, hself, hf]

theorem locked_client (hs : Tidy s s.theLock) (a : Act) :
    (locked md5).step (s.unlocked, s.theLock) (.client a) =
      ((machine md5).step s a).map fun t => (t.unlocked, t.theLock) := by
  by_cases ha : ∃ w, a = .worker w .lock
  · obtain ⟨w, rfl⟩ := ha
    cases hpc : (s.workers w).pc with
    | loop | update =>
      cases hlock : s.lock <;>
        simp [locked, Machine.guarded, processes, processStep, machine, step, workerStep,
          State.unlocked, State.theLock, State.goto, State.setWorker, lockOps, Lock.act, hpc, hlock]
    | _ =>
      cases hlock : s.lock <;>
        simp [locked, Machine.guarded, processes, processStep, machine, step, workerStep,
          State.unlocked, hpc, hlock]
  · have ha : ∀ w, a ≠ .worker w .lock := fun w hw => ha ⟨w, hw⟩
    have hstep : processStep md5 s.unlocked (.client a) =
        ((machine md5).step s a).map State.unlocked := unlocked_step (s := s) ha
    simp only [locked, Machine.guarded, processes, hstep]
    cases h : (machine md5).step s a with
    | none => rfl
    | some t =>
      simp only [Option.map_some, Option.bind_some, lockOps_unlocked hs ha h]

theorem locked_run (hs : Tidy s s.theLock) (as : List Act) :
    (locked md5).run (s.unlocked, s.theLock) (as.map .client) =
      ((machine md5).run s as).map fun t => (t.unlocked, t.theLock) := by
  induction as generalizing s with
  | nil => rfl
  | cons a as ih =>
    have hstep := @locked_client md5 s hs a
    cases ht : (machine md5).step s a with
    | none =>
      rw [ht] at hstep
      simp [Machine.run, hstep, ht]
    | some t =>
      rw [ht] at hstep
      have htidy : Tidy t t.theLock := tidy_unlocked.mp (tidy_step (tidy_unlocked.mpr hs) hstep)
      rw [Machine.run_cons_of_step ht, ← ih htidy]
      exact Machine.run_cons_of_step hstep _

theorem Initial.semaphore (h : Initial s) : semaphoreOf s.theLock = setSemvalue := by
  rw [State.theLock, h.lock, h.pc]
  rfl

/-- What a run with the semaphore has come to. -/
theorem tidy_run {sem : Option (Semaphore Nat)} {s₀ : State} (h₀ : Initial s₀)
    {bs : List ProcessAct}
    (hr : (semaphored md5).run (s₀.unlocked, setSemvalue) bs = some (s, sem)) :
    ∃ l, Tidy s l ∧ sem = semaphoreOf l := by
  have htidy := tidy_unlocked.mpr h₀.tidy
  rw [← h₀.semaphore, semaphored_run htidy] at hr
  obtain ⟨⟨t, l⟩, hlocked, he⟩ := Option.map_eq_some_iff.mp hr
  obtain ⟨rfl, rfl⟩ := Prod.mk.inj he
  exact ⟨l, Machine.run_invariant_of_step (I := fun x => Tidy x.1 x.2)
    (fun _ _ _ hs h => tidy_step hs h) htidy hlocked, rfl⟩

end Tidy

def sampleTwo : State := .begin 2 (sampleHeader.fresh 0) [] fun _ => none

/-- Two workers are forked, and one claims a chunk before the other one looks. -/
def sampleTurns : List Act :=
  [.parent .load, .parent .save, .parent .fork, .parent .fork, .worker 0 .open, .worker 1 .open,
    .worker 1 .lock, .worker 1 .load, .worker 1 .claim, .worker 1 .release, .worker 0 .lock]

/-- Worker 1 is killed while it has the lock. -/
def sampleKilled : List ProcessAct :=
  (sampleTurns.take 7).map .client ++ [.kill 1, .client (.worker 0 .lock)]

/-- SIGINT comes twice, and worker 0 is killed with the lock. -/
def sampleInterrupted : List ProcessAct :=
  sampleKilled ++ [.client (.parent .sigint), .sigint, .client (.parent .killSave)]

end Download
end Mhftp
