import Mhftp.Library.Machine

/-! # Locks and semaphores

The processes of a machine may get and release a lock, and any of them may end at any time.
Where the lock is a semaphore of System V the kernel notes for each process what it has taken
(SEM_UNDO) and gives it back when the process ends.

* `Lock`: who has the lock, and whether it has been removed.
* `Semaphore`: `semop` and the end of a process.
* `Machine.guarded`: a machine with a lock of some kind; what a step does about the lock is a
  list of `LockOp`s.
* `guarded_run`: where processes release only what they have, and get nothing after it has been
  removed, the machine does the same over the lock and over what implements it.
-/

namespace Library

/-- What a step may do about a lock. -/
inductive LockOp (P : Type)
  | get (p : P)
  | release (p : P)
  /-- the process ends -/
  | exit (p : P)
  /-- the lock is removed -/
  | remove

structure Lock (P : Type) where
  holder : Option P
  removed : Bool

structure Semaphore (P : Type) where
  value : Nat
  undo : P → Int

section
variable {P : Type} [DecidableEq P]

namespace Lock

/-- A process waits as long as there is no result. -/
def act (l : Lock P) : LockOp P → Option (Lock P)
  | .get p =>
    match l.holder with
    | none => some { l with holder := some p }
    | some _ => none
  | .release _ => some { l with holder := none }
  | .exit p => some (if l.holder = some p then { l with holder := none } else l)
  | .remove => some { l with removed := true }

/-- A process releases what it has, and gets nothing that is not there any more. -/
def Admits (l : Lock P) : LockOp P → Prop
  | .get _ => l.removed = false
  | .release p => l.removed = false ∧ l.holder = some p
  | .exit _ | .remove => True

/-- All of a step is admitted. -/
def AdmitsAll : Lock P → List (LockOp P) → Prop
  | _, [] => True
  | l, op :: ops => l.Admits op ∧ ∀ l', l.act op = some l' → l'.AdmitsAll ops

/-- Several processes end. -/
theorem foldlM_exit (l : Lock P) (ps : List P) :
    ∃ l', (ps.map .exit).foldlM act l = some l' ∧ l'.removed = l.removed ∧
      ∀ p, l'.holder = some p ↔ l.holder = some p ∧ p ∉ ps := by
  induction ps generalizing l with
  | nil => exact ⟨l, rfl, rfl, fun p => by simp⟩
  | cons q ps ih =>
    -- the first process, and then the others
    by_cases hq : l.holder = some q
    · obtain ⟨l', hl', hremoved, hholder⟩ := ih { l with holder := none }
      refine ⟨l', ?_, hremoved, fun p => ?_⟩
      · rw [List.map_cons, List.foldlM_cons, act, if_pos hq]
        exact hl'
      · rw [hholder p, hq, List.mem_cons, Option.some.injEq]
        constructor
        · rintro ⟨h, -⟩
          cases h
        · rintro ⟨rfl, hp⟩
          exact absurd (.inl rfl) hp
    · obtain ⟨l', hl', hremoved, hholder⟩ := ih l
      refine ⟨l', ?_, hremoved, fun p => ?_⟩
      · rw [List.map_cons, List.foldlM_cons, act, if_neg hq]
        exact hl'
      · rw [hholder p, List.mem_cons, not_or]
        have hne : l.holder = some p → p ≠ q := by
          rintro h rfl
          exact hq h
        constructor
        · rintro ⟨h, hp⟩
          exact ⟨h, hne h, hp⟩
        · rintro ⟨h, -, hp⟩
          exact ⟨h, hp⟩

theorem admitsAll_exit (l : Lock P) (ps : List P) : l.AdmitsAll (ps.map .exit) := by
  induction ps generalizing l with
  | nil => trivial
  | cons q ps ih => exact ⟨trivial, fun l' _ => ih l'⟩

/-- What an implementation does for each `LockOp` it does for a list of them. -/
theorem foldlM_act {L : Type} {actL : L → LockOp P → Option L} {f : Lock P → L}
    (hf : ∀ l op, l.Admits op → actL (f l) op = (l.act op).map f) {l : Lock P}
    {ops : List (LockOp P)} (h : l.AdmitsAll ops) :
    ops.foldlM actL (f l) = (ops.foldlM act l).map f := by
  induction ops generalizing l with
  | nil => rfl
  | cons op ops ih =>
    obtain ⟨hop, hops⟩ := h
    rw [List.foldlM_cons, List.foldlM_cons, hf l op hop]
    cases hl : l.act op with
    | none => rfl
    | some l' => exact ih (hops l' hl)

end Lock

namespace Semaphore

/-- `semop` with SEM_UNDO; there is no result while the process has to wait. -/
def semop (s : Semaphore P) (p : P) (n : Int) : Option (Semaphore P) :=
  if s.value + n < 0 then none
  else some ⟨(s.value + n).toNat, update s.undo p (s.undo p - n)⟩

/-- A process ends. -/
def exit (s : Semaphore P) (p : P) : Semaphore P :=
  ⟨(s.value + s.undo p).toNat, update s.undo p 0⟩

/-- `semctl` with SETVAL. -/
def setval (n : Nat) : Semaphore P := ⟨n, fun _ => 0⟩

end Semaphore

namespace Lock

/-- What each process has to give back. -/
def undo (holder : Option P) : P → Int := fun p => if holder = some p then 1 else 0

theorem undo_of_ne {holder : Option P} {p : P} (h : holder ≠ some p) : undo holder p = 0 :=
  if_neg h

theorem undo_get (p : P) : update (undo none) p 1 = undo (some p) := by
  funext q
  by_cases hq : q = p
  · simp [undo, hq]
  · simp [undo, update_of_ne _ _ hq, Ne.symm hq]

theorem undo_release (p : P) : update (undo (some p)) p 0 = undo none := by
  funext q
  by_cases hq : q = p
  · simp [undo, hq]
  · simp [undo, update_of_ne _ _ hq, Ne.symm hq]

/-- The semaphore of a lock: 1 if nobody has it. -/
def semaphore (l : Lock P) : Semaphore P := ⟨if l.holder = none then 1 else 0, undo l.holder⟩

/-- A process gets the lock by taking 1, and has 1 to give back. -/
theorem semop_get (l : Lock P) (p : P) :
    l.semaphore.semop p (-1) = (l.act (.get p)).map semaphore := by
  obtain ⟨holder, removed⟩ := l
  cases holder with
  | none =>
    have hundo := undo_get p
    simp [semaphore, Semaphore.semop, act, undo_of_ne, hundo]
  | some q => simp [semaphore, Semaphore.semop, act]

theorem semop_release {l : Lock P} {p : P} (hp : l.holder = some p) :
    l.semaphore.semop p 1 = (l.act (.release p)).map semaphore := by
  have hone : undo (some p) p = 1 := if_pos rfl
  simp [semaphore, Semaphore.semop, act, hp, hone, undo_release]

/-- What a process has is given back when it ends. -/
theorem act_exit (l : Lock P) (p : P) :
    (l.act (.exit p)).map semaphore = some (l.semaphore.exit p) := by
  by_cases hp : l.holder = some p
  · have hone : undo (some p) p = 1 := if_pos rfl
    simp [semaphore, Semaphore.exit, act, hp, hone, undo_release]
  · have hzero : l.semaphore.undo p = 0 := undo_of_ne hp
    have hexit : l.semaphore.exit p = l.semaphore := by
      rw [Semaphore.exit, hzero, Int.add_zero, Int.toNat_natCast, update_eq_of_eq hzero]
    rw [hexit, act, if_neg hp, Option.map_some]

end Lock

end

namespace Machine
variable {S A P : Type} [DecidableEq P]

/-- A machine and its lock. -/
def guarded {L : Type} (m : Machine S A) (act : L → LockOp P → Option L)
    (ops : S → A → S → List (LockOp P)) : Machine (S × L) A :=
  ⟨fun s a => (m.step s.1 a).bind fun t => ((ops s.1 a t).foldlM act s.2).map (t, ·)⟩

variable {m : Machine S A} {ops : S → A → S → List (LockOp P)} {s t : S × Lock P} {a : A}

theorem guarded_cases (h : (m.guarded Lock.act ops).step s a = some t) :
    m.step s.1 a = some t.1 ∧ (ops s.1 a t.1).foldlM Lock.act s.2 = some t.2 := by
  obtain ⟨u, hu, h⟩ := Option.bind_eq_some_iff.mp h
  obtain ⟨l, hl, rfl⟩ := Option.map_eq_some_iff.mp h
  exact ⟨hu, hl⟩

/-- **An implementation of the lock does for the machine what the lock does**, as long as its
steps are admitted. -/
theorem guarded_run {L : Type} {actL : L → LockOp P → Option L} {f : Lock P → L}
    (hf : ∀ l op, l.Admits op → actL (f l) op = (l.act op).map f) {I : S × Lock P → Prop}
    (hstep : ∀ s a t, I s → (m.guarded Lock.act ops).step s a = some t → I t)
    (hadmits : ∀ s a t, I s → m.step s.1 a = some t → s.2.AdmitsAll (ops s.1 a t))
    (hs : I s) (as : List A) :
    (m.guarded actL ops).run (s.1, f s.2) as =
      ((m.guarded Lock.act ops).run s as).map fun t => (t.1, f t.2) := by
  induction as generalizing s with
  | nil => rfl
  | cons a as ih =>
    have h : (m.guarded actL ops).step (s.1, f s.2) a =
        ((m.guarded Lock.act ops).step s a).map fun t => (t.1, f t.2) := by
      simp only [guarded]
      cases hu : m.step s.1 a with
      | none => rfl
      | some u =>
        simp only [Option.bind_some, Lock.foldlM_act hf (hadmits s a u hs hu), Option.map_map]
        rfl
    cases ht : (m.guarded Lock.act ops).step s a with
    | none => simp [run, h, ht]
    | some t =>
      rw [run_cons_of_step ht, ← ih (hstep s a t hs ht)]
      rw [ht] at h
      exact run_cons_of_step h as

end Machine
end Library
