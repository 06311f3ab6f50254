import Mathlib.Data.Finset.Card
import Mathlib.Data.Finset.Basic
import Mathlib.Data.List.Nodup
import Mathlib.Data.List.Perm.Basic
import Mhftp.Library.Machine

/-! # Work pools

What a pool of workers that share a set of tasks is for, with no table, lock or
process in sight.  A task is on offer, taken by one worker, or done.  A worker
claims a task on offer, completes it, or fails and goes, which puts the task back
on offer; it leaves when it finds nothing on offer, quits when it is told to, and
may die, which leaves its task taken for ever.

* `claims_length`: each claim beyond the tasks on offer at the start is paid for by
  a failure, and each worker fails at most once (`fails_nodup`);
* `claims_nodup`: without failures every task is claimed at most once;
* `done_of_all_left`: without failures, deaths and quits the pool is finished when
  everybody has left;
* `done_iff_failover`: with failures it is finished exactly when every failure is
  recorded while a worker that will leave unharmed is still there.
-/

namespace Library

/-- Where a worker of the pool is. -/
inductive Presence
  | active | left | failed | dead
  deriving DecidableEq

/-- The tasks on offer, the task each worker has taken, the tasks done, and where
the workers are. -/
structure Pool (ι ω : Type) where
  offered : Finset ι
  taken : ω → Option ι
  done : Finset ι
  presence : ω → Presence

namespace Pool

/-- The actions of worker `w`, on task `i` where there is one. -/
inductive Act (ι ω : Type)
  | claim (w : ω) (i : ι)
  | complete (w : ω) (i : ι)
  | fail (w : ω) (i : ι)
  | leave (w : ω)
  | quit (w : ω)
  | die (w : ω) (i : ι)

variable {ι ω : Type}

namespace Act

/-- The worker that acts. -/
def worker : Act ι ω → ω
  | claim w _ | complete w _ | fail w _ | leave w | quit w | die w _ => w

/-- The task an action claims. -/
def claimed : Act ι ω → Option ι
  | claim _ i => some i
  | _ => none

/-- The worker an action makes fail. -/
def failure : Act ι ω → Option ω
  | fail w _ => some w
  | _ => none

/-- A worker goes although there may be tasks on offer, because it was told to. -/
def IsQuit : Act ι ω → Prop
  | quit _ => True
  | _ => False

end Act

variable [DecidableEq ι] [DecidableEq ω]

/-- Worker `w` takes task `i`. -/
def take (p : Pool ι ω) (w : ω) (i : ι) : Pool ι ω :=
  { p with offered := p.offered.erase i, taken := update p.taken w (some i) }

/-- Worker `w` is done with task `i`. -/
def finish (p : Pool ι ω) (w : ω) (i : ι) : Pool ι ω :=
  { p with taken := update p.taken w none, done := insert i p.done }

/-- Worker `w` puts task `i` back on offer. -/
def putBack (p : Pool ι ω) (w : ω) (i : ι) : Pool ι ω :=
  { p with offered := insert i p.offered, taken := update p.taken w none }

/-- Worker `w` is now somewhere else. -/
def move (p : Pool ι ω) (w : ω) (x : Presence) : Pool ι ω :=
  { p with presence := update p.presence w x }

/-- One action of the pool. -/
def step (p : Pool ι ω) : Act ι ω → Option (Pool ι ω)
  | .claim w i =>
    if p.presence w = .active ∧ p.taken w = none ∧ i ∈ p.offered then some (p.take w i) else none
  | .complete w i =>
    if p.presence w = .active ∧ p.taken w = some i then some (p.finish w i) else none
  | .fail w i =>
    if p.presence w = .active ∧ p.taken w = some i then
      some ((p.putBack w i).move w .failed)
    else none
  | .leave w =>
    if p.presence w = .active ∧ p.taken w = none ∧ p.offered = ∅ then some (p.move w .left)
    else none
  | .quit w => if p.presence w = .active ∧ p.taken w = none then some (p.move w .left) else none
  | .die w i => if p.presence w = .active ∧ p.taken w = some i then some (p.move w .dead) else none

/-- The pool as a machine. -/
def machine : Machine (Pool ι ω) (Act ι ω) := ⟨step⟩

/-- What an action needs and what it does. -/
theorem step_cases {p p' : Pool ι ω} {a : Act ι ω} (hs : machine.step p a = some p') :
    p.presence a.worker = .active ∧
    ((∃ w i, a = .claim w i ∧ p.taken w = none ∧ i ∈ p.offered ∧ p' = p.take w i) ∨
      (∃ w i, a = .complete w i ∧ p.taken w = some i ∧ p' = p.finish w i) ∨
      (∃ w i, a = .fail w i ∧ p.taken w = some i ∧ p' = (p.putBack w i).move w .failed) ∨
      (∃ w, a = .leave w ∧ p.taken w = none ∧ p.offered = ∅ ∧ p' = p.move w .left) ∨
      (∃ w, a = .quit w ∧ p.taken w = none ∧ p' = p.move w .left) ∨
      (∃ w i, a = .die w i ∧ p.taken w = some i ∧ p' = p.move w .dead)) := by
  cases a <;> simp only [machine, step, Option.ite_none_right_eq_some, Option.some.injEq] at hs <;>
    simp [Act.worker, hs, eq_comm]

/-- The tasks claimed by a list of actions, in order. -/
def claims (as : List (Act ι ω)) : List ι := as.filterMap Act.claimed

/-- The workers a list of actions makes fail, in order. -/
def fails (as : List (Act ι ω)) : List ω := as.filterMap Act.failure

/-- Nobody has taken anything, nothing is done and everybody is there. -/
structure Fresh (p : Pool ι ω) : Prop where
  taken : ∀ w, p.taken w = none
  done : p.done = ∅
  presence : ∀ w, p.presence w = .active

/-! ### Every task is in one place -/

/-- The pool of the tasks `A`: each of them is on offer, taken by one worker or
done, and only workers that are there or dead hold one. -/
structure Valid (A : Finset ι) (p : Pool ι ω) : Prop where
  cover : ∀ i, i ∈ A ↔ i ∈ p.offered ∨ i ∈ p.done ∨ ∃ w, p.taken w = some i
  offered_done : ∀ i ∈ p.offered, i ∉ p.done
  taken_free : ∀ w i, p.taken w = some i → i ∉ p.offered ∧ i ∉ p.done
  taken_unique : ∀ w v i, p.taken w = some i → p.taken v = some i → w = v
  holder : ∀ w i, p.taken w = some i → p.presence w = .active ∨ p.presence w = .dead

omit [DecidableEq ι] [DecidableEq ω] in
theorem Fresh.valid {p : Pool ι ω} (h : p.Fresh) : Valid p.offered p where
  cover := fun i => by simp [h.taken, h.done]
  offered_done := fun i _ => by simp [h.done]
  taken_free := fun w i hw => by simp [h.taken] at hw
  taken_unique := fun w v i hw _ => by simp [h.taken] at hw
  holder := fun w i hw => by simp [h.taken] at hw

section Moves
variable {A : Finset ι} {p : Pool ι ω} {w : ω} {i : ι}

theorem take_taken {v : ω} {j : ι} :
    (p.take w i).taken v = some j ↔ (v = w ∧ j = i) ∨ (v ≠ w ∧ p.taken v = some j) := by
  by_cases hv : v = w
  · subst v; simp [take, eq_comm]
  · simp [take, update_of_ne _ _ hv, hv]

theorem finish_taken {v : ω} {j : ι} :
    (p.finish w i).taken v = some j ↔ v ≠ w ∧ p.taken v = some j := by
  by_cases hv : v = w
  · subst v; simp [finish]
  · simp [finish, update_of_ne _ _ hv, hv]

theorem putBack_taken {v : ω} {j : ι} :
    (p.putBack w i).taken v = some j ↔ v ≠ w ∧ p.taken v = some j :=
  finish_taken (i := i)

theorem Valid.take (hp : Valid A p) (hact : p.presence w = .active) (hnone : p.taken w = none)
    (hi : i ∈ p.offered) : Valid A (p.take w i) := by
  have hfree : ∀ v, p.taken v ≠ some i := fun v hv => (hp.taken_free v i hv).1 hi
  refine ⟨fun j => ?_, fun j hj => hp.offered_done j (Finset.mem_of_mem_erase hj), ?_, ?_, ?_⟩
  · rw [hp.cover j]
    constructor
    · rintro (h | h | ⟨v, h⟩)
      · by_cases hj : j = i
        · exact Or.inr (Or.inr ⟨w, take_taken.mpr (Or.inl ⟨rfl, hj⟩)⟩)
        · exact Or.inl (Finset.mem_erase.mpr ⟨hj, h⟩)
      · exact Or.inr (Or.inl h)
      · have hv : v ≠ w := fun he => by rw [he, hnone] at h; cases h
        exact Or.inr (Or.inr ⟨v, take_taken.mpr (Or.inr ⟨hv, h⟩)⟩)
    · rintro (h | h | ⟨v, h⟩)
      · exact Or.inl (Finset.mem_of_mem_erase h)
      · exact Or.inr (Or.inl h)
      · rcases take_taken.mp h with ⟨-, rfl⟩ | ⟨-, h⟩
        · exact Or.inl hi
        · exact Or.inr (Or.inr ⟨v, h⟩)
  · intro v j h
    rcases take_taken.mp h with ⟨-, rfl⟩ | ⟨-, h⟩
    · exact ⟨Finset.notMem_erase j _, hp.offered_done j hi⟩
    · exact ⟨fun hj => (hp.taken_free v j h).1 (Finset.mem_of_mem_erase hj),
        (hp.taken_free v j h).2⟩
  · intro v u j hv hu
    rcases take_taken.mp hv with ⟨rfl, rfl⟩ | ⟨-, hv'⟩ <;>
      rcases take_taken.mp hu with ⟨rfl, he⟩ | ⟨-, hu'⟩
    · rfl
    · exact absurd hu' (hfree u)
    · exact absurd (he ▸ hv') (hfree v)
    · exact hp.taken_unique v u j hv' hu'
  · intro v j h
    rcases take_taken.mp h with ⟨rfl, -⟩ | ⟨-, h⟩
    · exact Or.inl hact
    · exact hp.holder v j h

theorem Valid.finish (hp : Valid A p) (hw : p.taken w = some i) : Valid A (p.finish w i) := by
  refine ⟨fun j => ?_, fun j hj h => ?_, fun v j h => ?_, fun v u j hv hu => ?_, fun v j h => ?_⟩
  · rw [hp.cover j]
    constructor
    · rintro (h | h | ⟨v, h⟩)
      · exact Or.inl h
      · exact Or.inr (Or.inl (Finset.mem_insert_of_mem h))
      · by_cases hv : v = w
        · have hij : i = j := Option.some.inj (hw.symm.trans (hv ▸ h))
          exact Or.inr (Or.inl (hij ▸ Finset.mem_insert_self i _))
        · exact Or.inr (Or.inr ⟨v, finish_taken.mpr ⟨hv, h⟩⟩)
    · rintro (h | h | ⟨v, h⟩)
      · exact Or.inl h
      · rcases Finset.mem_insert.mp h with rfl | h
        · exact Or.inr (Or.inr ⟨w, hw⟩)
        · exact Or.inr (Or.inl h)
      · exact Or.inr (Or.inr ⟨v, (finish_taken.mp h).2⟩)
  · rcases Finset.mem_insert.mp h with rfl | h
    · exact (hp.taken_free w j hw).1 hj
    · exact hp.offered_done j hj h
  · obtain ⟨hv, hvj⟩ := finish_taken.mp h
    refine ⟨(hp.taken_free v j hvj).1, fun hj => ?_⟩
    rcases Finset.mem_insert.mp hj with rfl | hj
    · exact hv (hp.taken_unique v w j hvj hw)
    · exact (hp.taken_free v j hvj).2 hj
  · exact hp.taken_unique v u j (finish_taken.mp hv).2 (finish_taken.mp hu).2
  · exact hp.holder v j (finish_taken.mp h).2

theorem Valid.putBack (hp : Valid A p) (hw : p.taken w = some i) : Valid A (p.putBack w i) := by
  refine ⟨fun j => ?_, fun j hj h => ?_, fun v j h => ?_, fun v u j hv hu => ?_, fun v j h => ?_⟩
  · rw [hp.cover j]
    constructor
    · rintro (h | h | ⟨v, h⟩)
      · exact Or.inl (Finset.mem_insert_of_mem h)
      · exact Or.inr (Or.inl h)
      · by_cases hv : v = w
        · have hij : i = j := Option.some.inj (hw.symm.trans (hv ▸ h))
          exact Or.inl (hij ▸ Finset.mem_insert_self i _)
        · exact Or.inr (Or.inr ⟨v, putBack_taken.mpr ⟨hv, h⟩⟩)
    · rintro (h | h | ⟨v, h⟩)
      · rcases Finset.mem_insert.mp h with rfl | h
        · exact Or.inr (Or.inr ⟨w, hw⟩)
        · exact Or.inl h
      · exact Or.inr (Or.inl h)
      · exact Or.inr (Or.inr ⟨v, (putBack_taken.mp h).2⟩)
  · rcases Finset.mem_insert.mp hj with rfl | hj
    · exact (hp.taken_free w j hw).2 h
    · exact hp.offered_done j hj h
  · obtain ⟨hv, hvj⟩ := putBack_taken.mp h
    refine ⟨fun hj => ?_, (hp.taken_free v j hvj).2⟩
    rcases Finset.mem_insert.mp hj with rfl | hj
    · exact hv (hp.taken_unique v w j hvj hw)
    · exact (hp.taken_free v j hvj).1 hj
  · exact hp.taken_unique v u j (putBack_taken.mp hv).2 (putBack_taken.mp hu).2
  · exact hp.holder v j (putBack_taken.mp h).2

omit [DecidableEq ι] in
/-- A worker may go when it holds nothing, and die at any time. -/
theorem Valid.move (hp : Valid A p) {x : Presence} (h : p.taken w = none ∨ x = .dead) :
    Valid A (p.move w x) := by
  refine ⟨hp.cover, hp.offered_done, hp.taken_free, hp.taken_unique, fun v j hv => ?_⟩
  show update p.presence w x v = _ ∨ update p.presence w x v = _
  by_cases he : v = w
  · subst v
    rcases h with h | rfl
    · change p.taken w = some j at hv
      rw [h] at hv; cases hv
    · exact Or.inr (update_self _ _ _)
  · rw [update_of_ne _ _ he]; exact hp.holder v j hv

end Moves

theorem valid_step {A : Finset ι} {p p' : Pool ι ω} {a : Act ι ω} (hp : Valid A p)
    (hs : machine.step p a = some p') : Valid A p' := by
  obtain ⟨hact, hs⟩ := step_cases hs
  rcases hs with ⟨w, i, rfl, hnone, hi, rfl⟩ | ⟨w, i, rfl, hw, rfl⟩ | ⟨w, i, rfl, hw, rfl⟩ |
    ⟨w, rfl, hnone, -, rfl⟩ | ⟨w, rfl, hnone, rfl⟩ | ⟨w, i, rfl, -, rfl⟩
  · exact hp.take hact hnone hi
  · exact hp.finish hw
  · exact (hp.putBack hw).move (Or.inl (by simp [Pool.putBack]))
  · exact hp.move (Or.inl hnone)
  · exact hp.move (Or.inl hnone)
  · exact hp.move (Or.inr rfl)

theorem valid_run {A : Finset ι} {p p' : Pool ι ω} {as : List (Act ι ω)} (hp : Valid A p)
    (hr : machine.run p as = some p') : Valid A p' :=
  Machine.run_invariant_of_step (fun _ _ _ h hs => valid_step h hs) hp hr

/-! ### Counting claims and failures -/

/-- **Claims and failures balance.**  A claim takes a task off offer and a failure
puts one back. -/
theorem claims_add_card {p p' : Pool ι ω} {as : List (Act ι ω)} {A : Finset ι}
    (hp : Valid A p) (hr : machine.run p as = some p') :
    (claims as).length + p'.offered.card = p.offered.card + (fails as).length := by
  induction as generalizing p with
  | nil => obtain rfl := Option.some.inj hr; simp [claims, fails]
  | cons a as ih =>
    obtain ⟨q, hq, hqr⟩ := Machine.run_cons hr
    have hrest := ih (valid_step hp hq) hqr
    obtain ⟨-, hs⟩ := step_cases hq
    rcases hs with ⟨w, i, rfl, hnone, hi, rfl⟩ | ⟨w, i, rfl, hw, rfl⟩ | ⟨w, i, rfl, hw, rfl⟩ |
      ⟨w, rfl, hnone, -, rfl⟩ | ⟨w, rfl, hnone, rfl⟩ | ⟨w, i, rfl, -, rfl⟩
    · have hcard : (p.take w i).offered.card + 1 = p.offered.card := Finset.card_erase_add_one hi
      simp only [claims, fails, List.filterMap_cons, Act.claimed, Act.failure,
        List.length_cons] at hrest ⊢
      omega
    · exact hrest
    · have hcard : ((p.putBack w i).move w .failed).offered.card = p.offered.card + 1 :=
        Finset.card_insert_of_notMem (hp.taken_free w i hw).1
      simp only [claims, fails, List.filterMap_cons, Act.claimed, Act.failure,
        List.length_cons] at hrest ⊢
      omega
    all_goals exact hrest

/-- Who is gone stays gone. -/
theorem presence_step {p p' : Pool ι ω} {a : Act ι ω} (hs : machine.step p a = some p') {v : ω}
    (hv : p.presence v ≠ .active) : p'.presence v = p.presence v := by
  obtain ⟨hact, hs⟩ := step_cases hs
  have hne : v ≠ a.worker := fun he => hv (he ▸ hact)
  rcases hs with ⟨w, i, rfl, -, -, rfl⟩ | ⟨w, i, rfl, -, rfl⟩ | ⟨w, i, rfl, -, rfl⟩ |
    ⟨w, rfl, -, -, rfl⟩ | ⟨w, rfl, -, rfl⟩ | ⟨w, i, rfl, -, rfl⟩
  · rfl
  · rfl
  all_goals exact update_of_ne _ _ hne

theorem presence_run {p p' : Pool ι ω} {as : List (Act ι ω)} (hr : machine.run p as = some p')
    {v : ω} (hv : p.presence v ≠ .active) : p'.presence v = p.presence v :=
  Machine.run_invariant_of_step (I := fun q => q.presence v = p.presence v)
    (fun _ _ _ h hs => (presence_step hs (h ▸ hv)).trans h) rfl hr

/-- Who acts was there. -/
theorem active_of_mem {p p' : Pool ι ω} {as : List (Act ι ω)} (hr : machine.run p as = some p')
    {a : Act ι ω} (ha : a ∈ as) : p.presence a.worker = .active := by
  induction as generalizing p with
  | nil => cases ha
  | cons b as ih =>
    obtain ⟨q, hq, hqr⟩ := Machine.run_cons hr
    rcases List.mem_cons.mp ha with rfl | ha
    · exact (step_cases hq).1
    · refine Classical.byContradiction fun hne => hne ?_
      rw [← presence_step hq hne]
      exact ih hqr ha

theorem presence_fail {p p' : Pool ι ω} {w : ω} {i : ι}
    (hs : machine.step p (.fail w i) = some p') : p'.presence w = .failed := by
  simp only [machine, step, Option.ite_none_right_eq_some, Option.some.injEq] at hs
  obtain ⟨-, rfl⟩ := hs
  exact update_self _ _ _

/-- **A worker fails at most once**, and is then seen to have failed. -/
theorem fails_nodup {p p' : Pool ι ω} {as : List (Act ι ω)} (hr : machine.run p as = some p') :
    (fails as).Nodup ∧ ∀ w ∈ fails as, p'.presence w = .failed := by
  induction as generalizing p with
  | nil => simp [fails]
  | cons a as ih =>
    obtain ⟨q, hq, hqr⟩ := Machine.run_cons hr
    obtain ⟨hnodup, hfailed⟩ := ih hqr
    cases a with
    | fail w i =>
      have hgone : q.presence w = .failed := presence_fail hq
      have hnot : w ∉ fails as := by
        intro hw
        obtain ⟨b, hb, he⟩ := List.mem_filterMap.mp hw
        have hbw : b.worker = w := by cases b <;> simp [Act.failure, Act.worker] at he ⊢; exact he
        have hact := active_of_mem hqr hb
        rw [hbw, hgone] at hact
        cases hact
      refine ⟨List.nodup_cons.mpr ⟨hnot, hnodup⟩, fun v hv => ?_⟩
      rcases List.mem_cons.mp hv with rfl | hv
      · rw [presence_run hqr (by rw [hgone]; decide), hgone]
      · exact hfailed v hv
    | _ => exact ⟨hnodup, hfailed⟩

/-- **Bounded work.**  However the workers interleave and fail, they make at most
one claim for each task on offer at the start and one for each worker that fails. -/
theorem claims_length {p p' : Pool ι ω} {as : List (Act ι ω)} {A : Finset ι} (hp : Valid A p)
    (hr : machine.run p as = some p') {ws : Finset ω}
    (hws : ∀ w, p'.presence w = .failed → w ∈ ws) :
    (claims as).length ≤ p.offered.card + (ws.filter (p'.presence · = .failed)).card := by
  obtain ⟨hnodup, hfailed⟩ := fails_nodup hr
  have hcard : (fails as).length ≤ (ws.filter (p'.presence · = .failed)).card := by
    rw [← List.toFinset_card_of_nodup hnodup]
    refine Finset.card_le_card fun w hw => Finset.mem_filter.mpr ?_
    have hw := hfailed w (List.mem_toFinset.mp hw)
    exact ⟨hws w hw, hw⟩
  have hbalance := claims_add_card hp hr
  omega

/-- Without failures nothing comes back on offer. -/
theorem offered_subset {p p' : Pool ι ω} {as : List (Act ι ω)} (hr : machine.run p as = some p')
    (hfail : fails as = []) : p'.offered ⊆ p.offered := by
  induction as generalizing p with
  | nil => obtain rfl := Option.some.inj hr; exact Finset.Subset.refl _
  | cons a as ih =>
    obtain ⟨q, hq, hqr⟩ := Machine.run_cons hr
    have hfail' : fails as = [] := by
      cases a <;> simp [fails, Act.failure] at hfail ⊢ <;> exact hfail
    refine (ih hqr hfail').trans ?_
    obtain ⟨-, hs⟩ := step_cases hq
    rcases hs with ⟨w, i, rfl, hnone, hi, rfl⟩ | ⟨w, i, rfl, hw, rfl⟩ | ⟨w, i, rfl, hw, rfl⟩ |
      ⟨w, rfl, hnone, -, rfl⟩ | ⟨w, rfl, hnone, rfl⟩ | ⟨w, i, rfl, -, rfl⟩
    · exact Finset.erase_subset _ _
    · exact Finset.Subset.refl _
    · simp [fails, Act.failure] at hfail
    all_goals exact Finset.Subset.refl _

/-- **Without failures a task is claimed at most once**: the tasks claimed are the
tasks that went off offer, each of them once. -/
theorem claims_nodup {p p' : Pool ι ω} {as : List (Act ι ω)} (hr : machine.run p as = some p')
    (hfail : fails as = []) :
    (claims as).Nodup ∧ ∀ i, i ∈ claims as ↔ i ∈ p.offered ∧ i ∉ p'.offered := by
  induction as generalizing p with
  | nil => obtain rfl := Option.some.inj hr; simp [claims]
  | cons a as ih =>
    obtain ⟨q, hq, hqr⟩ := Machine.run_cons hr
    have hfail' : fails as = [] := by
      cases a <;> simp [fails, Act.failure] at hfail ⊢ <;> exact hfail
    obtain ⟨hnodup, hmem⟩ := ih hqr hfail'
    obtain ⟨-, hs⟩ := step_cases hq
    rcases hs with ⟨w, i, rfl, hnone, hi, rfl⟩ | ⟨w, i, rfl, hw, rfl⟩ | ⟨w, i, rfl, hw, rfl⟩ |
      ⟨w, rfl, hnone, -, rfl⟩ | ⟨w, rfl, hnone, rfl⟩ | ⟨w, i, rfl, -, rfl⟩
    · have hoff : ∀ j, j ∈ (p.take w i).offered ↔ j ≠ i ∧ j ∈ p.offered :=
        fun j => Finset.mem_erase
      have hi' : i ∉ p'.offered := by
        intro hmem'
        have hsub : p'.offered ⊆ (p.take w i).offered := offered_subset hqr hfail'
        exact ((hoff i).mp (hsub hmem')).1 rfl
      refine ⟨List.nodup_cons.mpr ⟨fun h => ((hoff i).mp ((hmem i).mp h).1).1 rfl, hnodup⟩,
        fun j => ?_⟩
      show j ∈ i :: claims as ↔ _
      rw [List.mem_cons, hmem, hoff]
      constructor
      · rintro (rfl | ⟨⟨-, hj⟩, hj'⟩)
        · exact ⟨hi, hi'⟩
        · exact ⟨hj, hj'⟩
      · rintro ⟨hj, hj'⟩
        by_cases he : j = i
        · exact Or.inl he
        · exact Or.inr ⟨⟨he, hj⟩, hj'⟩
    · exact ⟨hnodup, hmem⟩
    · simp [fails, Act.failure] at hfail
    all_goals exact ⟨hnodup, hmem⟩

/-! ### When the pool is finished -/

section Finish
variable {p p' : Pool ι ω} {as : List (Act ι ω)} {ws : Finset ω}

theorem taken_mem (hr : machine.run p as = some p') (hact : ∀ a ∈ as, a.worker ∈ ws)
    (hp : ∀ w i, p.taken w = some i → w ∈ ws) : ∀ w i, p'.taken w = some i → w ∈ ws := by
  induction as generalizing p with
  | nil => obtain rfl := Option.some.inj hr; exact hp
  | cons a as ih =>
    obtain ⟨q, hq, hqr⟩ := Machine.run_cons hr
    refine ih hqr (fun b hb => hact b (List.mem_cons_of_mem _ hb)) fun v j hv => ?_
    obtain ⟨-, hs⟩ := step_cases hq
    rcases hs with ⟨w, i, rfl, -, -, rfl⟩ | ⟨w, i, rfl, -, rfl⟩ | ⟨w, i, rfl, -, rfl⟩ |
      ⟨w, rfl, -, -, rfl⟩ | ⟨w, rfl, -, rfl⟩ | ⟨w, i, rfl, -, rfl⟩
    · rcases take_taken.mp hv with ⟨rfl, -⟩ | ⟨-, hv⟩
      · exact hact _ List.mem_cons_self
      · exact hp v j hv
    · exact hp v j (finish_taken.mp hv).2
    · exact hp v j ((putBack_taken (i := i)).mp hv).2
    all_goals exact hp v j hv

/-- A dead worker still holds its task. -/
theorem dead_holds {A : Finset ι} (hp : Valid A p) (hr : machine.run p as = some p')
    (hd : ∀ w, p.presence w = .dead → ∃ i, p.taken w = some i) :
    ∀ w, p'.presence w = .dead → ∃ i, p'.taken w = some i := by
  induction as generalizing p with
  | nil => obtain rfl := Option.some.inj hr; exact hd
  | cons a as ih =>
    obtain ⟨q, hq, hqr⟩ := Machine.run_cons hr
    refine ih (valid_step hp hq) hqr fun v hv => ?_
    obtain ⟨hact, hs⟩ := step_cases hq
    have holds : ∀ w : ω, p.presence w = .active → p.presence v = .dead → v ≠ w := by
      intro w hw hv he
      rw [he, hw] at hv
      cases hv
    rcases hs with ⟨w, i, rfl, -, -, rfl⟩ | ⟨w, i, rfl, -, rfl⟩ | ⟨w, i, rfl, -, rfl⟩ |
      ⟨w, rfl, -, -, rfl⟩ | ⟨w, rfl, -, rfl⟩ | ⟨w, i, rfl, hw, rfl⟩
    · obtain ⟨j, hj⟩ := hd v hv
      exact ⟨j, take_taken.mpr (Or.inr ⟨holds w hact hv, hj⟩)⟩
    · obtain ⟨j, hj⟩ := hd v hv
      exact ⟨j, finish_taken.mpr ⟨holds w hact hv, hj⟩⟩
    · by_cases hvw : v = w
      · subst v; exact absurd hv (by simp [move])
      · have hv' : p.presence v = .dead := by simpa [move, putBack, update, hvw] using hv
        obtain ⟨j, hj⟩ := hd v hv'
        exact ⟨j, (putBack_taken (i := i)).mpr ⟨hvw, hj⟩⟩
    · by_cases hvw : v = w
      · subst v; exact absurd hv (by simp [move])
      · exact hd v (by simpa [move, update, hvw] using hv)
    · by_cases hvw : v = w
      · subst v; exact absurd hv (by simp [move])
      · exact hd v (by simpa [move, update, hvw] using hv)
    · by_cases hvw : v = w
      · exact ⟨i, hvw ▸ hw⟩
      · exact hd v (by simpa [move, update, hvw] using hv)

/-- Nothing stays on offer if each failure is recorded while a worker that will
leave unharmed is still there: that worker leaves only once nothing is on offer. -/
theorem offered_empty_of_failover (hr : machine.run p as = some p')
    (hact : ∀ a ∈ as, a.worker ∈ ws ∧ ¬ a.IsQuit)
    (hgone : ∀ w ∈ ws, p'.presence w ≠ .active) (hdead : ∀ w ∈ ws, p'.presence w ≠ .dead)
    (halong : machine.Along (fun q a _ => ∀ w i, a = .fail w i →
      ∃ h ∈ ws, p'.presence h = .left ∧ q.presence h = .active) p as)
    (hp : (∃ h ∈ ws, p'.presence h = .left ∧ p.presence h = .active) ∨ p.offered = ∅) :
    p'.offered = ∅ := by
  induction as generalizing p with
  | nil =>
    obtain rfl := Option.some.inj hr
    rcases hp with ⟨h, hh, -, ha⟩ | hp
    · exact absurd ha (hgone h hh)
    · exact hp
  | cons a as ih =>
    obtain ⟨q, hq, hqr⟩ := Machine.run_cons hr
    obtain ⟨hfail, halong⟩ := halong q hq
    obtain ⟨hw, hquit⟩ := hact a List.mem_cons_self
    refine ih hqr (fun b hb => hact b (List.mem_cons_of_mem _ hb)) halong ?_
    obtain ⟨-, hs⟩ := step_cases hq
    rcases hs with ⟨w, i, rfl, -, hi, rfl⟩ | ⟨w, i, rfl, -, rfl⟩ | ⟨w, i, rfl, -, rfl⟩ |
      ⟨w, rfl, -, hoff, rfl⟩ | ⟨w, rfl, -, rfl⟩ | ⟨w, i, rfl, -, rfl⟩
    · rcases hp with hp | hp
      · exact Or.inl hp
      · rw [hp] at hi; exact absurd hi (Finset.notMem_empty i)
    · exact hp
    · -- the worker that makes up for the failure is another one
      obtain ⟨h, hh, hleft, hactive⟩ := hfail w i rfl
      refine Or.inl ⟨h, hh, hleft, ?_⟩
      have hne : h ≠ w := by
        rintro rfl
        have hfailed := presence_run hqr (v := h) (by simp [move])
        rw [hleft] at hfailed
        simp [move] at hfailed
      rw [← hactive]
      exact update_of_ne _ _ hne
    · exact Or.inr hoff
    · exact absurd trivial hquit
    · refine absurd ?_ (hdead w hw)
      rw [presence_run hqr (v := w) (by simp [move])]
      exact update_self _ _ _

/-- Once every worker that will leave unharmed is gone, a task on offer, or a worker
that has yet to fail, leaves something unfinished for good. -/
theorem unfinished_of_none_healthy (hr : machine.run p as = some p')
    (hact : ∀ a ∈ as, a.worker ∈ ws) (hgone : ∀ w ∈ ws, p'.presence w ≠ .active)
    (hnone : ∀ h ∈ ws, p'.presence h = .left → p.presence h ≠ .active)
    (hp : p.offered.Nonempty ∨ ∃ w ∈ ws, p.presence w = .active) :
    p'.offered.Nonempty ∨ ∃ w ∈ ws, p'.presence w = .dead := by
  induction as generalizing p with
  | nil =>
    obtain rfl := Option.some.inj hr
    rcases hp with hp | ⟨w, hw, ha⟩
    · exact Or.inl hp
    · exact absurd ha (hgone w hw)
  | cons a as ih =>
    obtain ⟨q, hq, hqr⟩ := Machine.run_cons hr
    have hw := hact a List.mem_cons_self
    obtain ⟨hactive, hs⟩ := step_cases hq
    have hnotleft : p'.presence a.worker ≠ .left := fun h => hnone _ hw h hactive
    have hact' : ∀ b ∈ as, b.worker ∈ ws := fun b hb => hact b (List.mem_cons_of_mem _ hb)
    have hnone' : ∀ h ∈ ws, p'.presence h = .left → q.presence h ≠ .active := fun h hh hleft => by
      rw [presence_step hq (hnone h hh hleft)]
      exact hnone h hh hleft
    rcases hs with ⟨w, i, rfl, -, -, rfl⟩ | ⟨w, i, rfl, -, rfl⟩ | ⟨w, i, rfl, -, rfl⟩ |
      ⟨w, rfl, -, -, rfl⟩ | ⟨w, rfl, -, rfl⟩ | ⟨w, i, rfl, -, rfl⟩
    · exact ih hqr hact' hnone' (Or.inr ⟨w, hw, hactive⟩)
    · exact ih hqr hact' hnone' (Or.inr ⟨w, hw, hactive⟩)
    · exact ih hqr hact' hnone' (Or.inl ⟨i, Finset.mem_insert_self i _⟩)
    · exact absurd ((presence_run hqr (v := w) (by simp [move])).trans (update_self _ _ _)) hnotleft
    · exact absurd ((presence_run hqr (v := w) (by simp [move])).trans (update_self _ _ _)) hnotleft
    · exact Or.inr ⟨w, hw, (presence_run hqr (v := w) (by simp [move])).trans (update_self _ _ _)⟩

omit [DecidableEq ι] [DecidableEq ω] in
/-- A pool that has done all of its tasks offers none, and nobody holds one. -/
theorem Valid.finished {A : Finset ι} (hp : Valid A p) (hdone : p.done = A) :
    p.offered = ∅ ∧ ∀ w, p.taken w = none := by
  constructor
  · refine Finset.eq_empty_iff_forall_notMem.mpr fun i hi => hp.offered_done i hi ?_
    rw [hdone, hp.cover]
    exact Or.inl hi
  · intro w
    refine Option.eq_none_iff_forall_ne_some.mpr fun i hi => (hp.taken_free w i hi).2 ?_
    rw [hdone, hp.cover]
    exact Or.inr (Or.inr ⟨w, hi⟩)

/-- Where nothing is left over in the end, each failure was recorded while a worker that
leaves unharmed was still there. -/
theorem failover_of_finished (hr : machine.run p as = some p') (hact : ∀ a ∈ as, a.worker ∈ ws)
    (hgone : ∀ w ∈ ws, p'.presence w ≠ .active) (hdead : ∀ w ∈ ws, p'.presence w ≠ .dead)
    (hoffered : p'.offered = ∅) :
    machine.Along (fun q a _ => ∀ w i, a = .fail w i →
      ∃ h ∈ ws, p'.presence h = .left ∧ q.presence h = .active) p as := by
  refine Machine.along_of_at_step fun bs a cs q r he hq hr' w i ha => ?_
  subst he
  rw [Machine.run_append_of_run hq, Machine.run_cons_of_step hr'] at hr
  refine Classical.byContradiction fun hno => ?_
  have hworker : ∀ b ∈ cs, b.worker ∈ ws := fun b hb => hact b (by simp [hb])
  have hnone : ∀ h ∈ ws, p'.presence h = .left → r.presence h ≠ .active := by
    intro h hh hleft hactive
    by_cases hq' : q.presence h = .active
    · exact hno ⟨h, hh, hleft, hq'⟩
    · rw [presence_step hr' hq'] at hactive
      exact hq' hactive
  -- the failure puts its task back, and nobody will take it
  have hput : r.offered.Nonempty := by
    subst ha
    simp only [machine, step, Option.ite_none_right_eq_some, Option.some.injEq] at hr'
    obtain ⟨-, rfl⟩ := hr'
    exact ⟨i, Finset.mem_insert_self i _⟩
  rcases unfinished_of_none_healthy hr hworker hgone hnone (Or.inl hput) with h | ⟨v, hv, hd⟩
  · exact h.ne_empty hoffered
  · exact hdead v hv hd

/-- **When failover works.**  Suppose everybody is gone, nobody was told to quit and
at least one worker left unharmed.  Then all tasks are done if and only if nobody
died and every failure was recorded while a worker that left unharmed was still
there. -/
theorem done_iff_failover (hp : p.Fresh) (hr : machine.run p as = some p')
    (hact : ∀ a ∈ as, a.worker ∈ ws ∧ ¬ a.IsQuit)
    (hgone : ∀ w ∈ ws, p'.presence w ≠ .active)
    (hhealthy : ∃ h ∈ ws, p'.presence h = .left) :
    p'.done = p.offered ↔ (∀ w ∈ ws, p'.presence w ≠ .dead) ∧
      machine.Along (fun q a _ => ∀ w i, a = .fail w i →
        ∃ h ∈ ws, p'.presence h = .left ∧ q.presence h = .active) p as := by
  have hvalid := valid_run hp.valid hr
  constructor
  · intro hdone
    obtain ⟨hoffered, hfree⟩ := hvalid.finished hdone
    have hdead : ∀ w ∈ ws, p'.presence w ≠ .dead := by
      intro w _ hw
      obtain ⟨i, hi⟩ := dead_holds hp.valid hr
        (fun v hv => by rw [hp.presence v] at hv; cases hv) w hw
      rw [hfree w] at hi
      cases hi
    exact ⟨hdead, failover_of_finished hr (fun a ha => (hact a ha).1) hgone hdead hoffered⟩
  · rintro ⟨hdead, halong⟩
    have hoffered := offered_empty_of_failover hr hact hgone hdead halong
      (Or.inl (hhealthy.imp fun h hh => ⟨hh.1, hh.2, hp.presence h⟩))
    ext i
    rw [hvalid.cover i, hoffered]
    constructor
    · exact fun h => Or.inr (Or.inl h)
    · rintro (h | h | ⟨w, h⟩)
      · exact absurd h (Finset.notMem_empty i)
      · exact h
      · have hw : w ∈ ws := taken_mem hr (fun a ha => (hact a ha).1)
          (fun v j hv => by rw [hp.taken v] at hv; cases hv) w i h
        rcases hvalid.holder w i h with h | h
        · exact absurd h (hgone w hw)
        · exact absurd h (hdead w hw)

/-- **A run without failures and deaths finishes the pool**, whatever the order. -/
theorem done_of_all_left (hp : p.Fresh) (hr : machine.run p as = some p')
    (hact : ∀ a ∈ as, a.worker ∈ ws ∧ ¬ a.IsQuit) (hne : ws.Nonempty)
    (hleft : ∀ w ∈ ws, p'.presence w = .left) : p'.done = p.offered := by
  have hgone : ∀ w ∈ ws, p'.presence w ≠ .active := fun w hw => by rw [hleft w hw]; decide
  obtain ⟨h, hh⟩ := hne
  refine (done_iff_failover hp hr hact hgone ⟨h, hh, hleft h hh⟩).mpr
    ⟨fun w hw => by rw [hleft w hw]; decide, ?_⟩
  refine Machine.along_of_at_step fun bs a cs q r he hq hr' w i ha => ?_
  subst he ha
  -- a worker that failed would be seen to have failed
  have hw : w ∈ ws := (hact (.fail w i) (by simp)).1
  obtain ⟨-, hfailed⟩ := fails_nodup hr
  have := hfailed w (by simp [fails, Act.failure])
  rw [hleft w hw] at this
  cases this

end Finish
end Pool
end Library
