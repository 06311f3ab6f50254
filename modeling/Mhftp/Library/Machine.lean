import Mathlib.Algebra.Order.Group.Multiset
import Mathlib.Data.List.Basic

/-! # Machines and their runs

A `Machine` is a partial step function: an action either applies to a state or
does not.  Nondeterminism is in the choice of actions, so a run is a list of
actions and the states it passes are determined by it.

* `run`: the state a list of actions leads to;
* `Along P`: every step of a run satisfies `P`, which sees the state before the
  step, the action and the state after it;
* `events f`: what an observer `f` of single steps records along a run;
* `run_invariant`: the induction rule for invariants, under a condition on the
  steps;
* `Simulation`: a state function and a labelling of steps under which one
  machine does what another one does, with the rule that lifts this to runs.
-/

namespace Library

/-- Point update of a function: `p` gets `v`. -/
def update {P α : Type} [DecidableEq P] (f : P → α) (p : P) (v : α) : P → α :=
  fun q => if q = p then v else f q

section Update
variable {P α : Type} [DecidableEq P]

@[simp] theorem update_self (f : P → α) (p : P) (v : α) : update f p v p = v := by
  simp [update]

theorem update_of_ne (f : P → α) {p q : P} (v : α) (h : q ≠ p) : update f p v q = f q := by
  simp [update, h]

/-- What holds of the new value and of all old ones holds after an update. -/
theorem forall_update {Q : α → Prop} {f : P → α} {p : P} {v : α} (hv : Q v) (hf : ∀ q, Q (f q))
    (q : P) : Q (update f p v q) := by
  by_cases hq : q = p
  · rw [hq, update_self]
    exact hv
  · rw [update_of_ne _ _ hq]
    exact hf q

/-- An update that `g` does not see. -/
theorem apply_update_of_eq {β : Type} {g : α → β} {f : P → α} {p : P} {v : α}
    (h : g v = g (f p)) (q : P) : g (update f p v q) = g (f q) := by
  by_cases hq : q = p
  · rw [hq, update_self, h]
  · rw [update_of_ne _ _ hq]

theorem update_eq_of_eq {f : P → α} {p : P} {v : α} (h : f p = v) : update f p v = f := by
  funext q
  by_cases hq : q = p
  · rw [hq, update_self, h]
  · exact update_of_ne f v hq

theorem comp_update {β : Type} (g : α → β) (f : P → α) (p : P) (v : α) :
    (fun q => g (update f p v q)) = update (fun q => g (f q)) p (g v) := by
  funext q
  by_cases hq : q = p
  · simp [hq]
  · simp [update_of_ne _ _ hq]

end Update

/-- A machine: `step s a` is the state after action `a`, if `a` applies to `s`. -/
structure Machine (S A : Type) where
  step : S → A → Option S

namespace Machine
variable {S A : Type} (m : Machine S A)

/-- The state a list of actions leads to, if every one of them applies. -/
def run : S → List A → Option S
  | s, [] => some s
  | s, a :: as => (m.step s a).bind fun s' => run s' as

/-- Every step of the run satisfies `P`. -/
def Along (P : S → A → S → Prop) : S → List A → Prop
  | _, [] => True
  | s, a :: as => ∀ s', m.step s a = some s' → P s a s' ∧ Along P s' as

/-- What the observer `f` records along the run. -/
def events {B : Type} (f : S → A → Option B) : S → List A → List B
  | _, [] => []
  | s, a :: as =>
    match m.step s a with
    | none => []
    | some s' => (f s a).toList ++ events f s' as

variable {m}

theorem run_cons {s s' : S} {a : A} {as : List A} (h : m.run s (a :: as) = some s') :
    ∃ t, m.step s a = some t ∧ m.run t as = some s' :=
  Option.bind_eq_some_iff.mp h

theorem run_cons_of_step {s t : S} {a : A} (h : m.step s a = some t) (as : List A) :
    m.run s (a :: as) = m.run t as := by
  simp [run, h]

theorem run_singleton {s t : S} {a : A} (h : m.step s a = some t) : m.run s [a] = some t :=
  run_cons_of_step h []

theorem run_append (s : S) (as bs : List A) :
    m.run s (as ++ bs) = (m.run s as).bind fun t => m.run t bs := by
  induction as generalizing s with
  | nil => rfl
  | cons a as ih =>
    simp only [List.cons_append, run, Option.bind_assoc]
    exact congrArg _ (funext ih)

theorem run_append_of_run {s t : S} {as : List A} (h : m.run s as = some t) (bs : List A) :
    m.run s (as ++ bs) = m.run t bs := by
  rw [run_append, h]; rfl

/-- A run to a state that meets a decidable condition, by computing it. -/
theorem exists_run {P : S → Prop} [DecidablePred P] {s : S} {as : List A}
    (h : (m.run s as).any (fun s' => P s') = true) : ∃ s', m.run s as = some s' ∧ P s' := by
  obtain ⟨s', hs', hP⟩ := (Option.any_eq_true _ _).mp h
  exact ⟨s', hs', of_decide_eq_true hP⟩

theorem Along.imp {P Q : S → A → S → Prop} (hPQ : ∀ s a s', P s a s' → Q s a s') {s : S}
    {as : List A} (h : m.Along P s as) : m.Along Q s as := by
  induction as generalizing s with
  | nil => trivial
  | cons a as ih => exact fun t ht => ⟨hPQ _ _ _ (h t ht).1, ih (h t ht).2⟩

theorem Along.and {P Q : S → A → S → Prop} {s : S} {as : List A} (hP : m.Along P s as)
    (hQ : m.Along Q s as) : m.Along (fun s a s' => P s a s' ∧ Q s a s') s as := by
  induction as generalizing s with
  | nil => trivial
  | cons a as ih =>
    exact fun t ht => ⟨⟨(hP t ht).1, (hQ t ht).1⟩, ih (hP t ht).2 (hQ t ht).2⟩

/-- A condition that holds at every step whatever the state holds along every run. -/
theorem along_of_forall {P : S → A → S → Prop} (h : ∀ s a s', m.step s a = some s' → P s a s')
    (s : S) (as : List A) : m.Along P s as := by
  induction as generalizing s with
  | nil => trivial
  | cons a as ih => exact fun t ht => ⟨h s a t ht, ih t⟩

/-- The run determines its states, so a condition on them can be computed. -/
instance decidableAlong (P : S → A → S → Prop) [∀ s a s', Decidable (P s a s')] :
    (s : S) → (as : List A) → Decidable (m.Along P s as)
  | _, [] => isTrue trivial
  | s, a :: as =>
    match hs : m.step s a with
    | none => isTrue fun _ ht => nomatch hs.symm.trans ht
    | some t =>
      have := decidableAlong P t as
      decidable_of_iff (P s a t ∧ m.Along P t as)
        ⟨fun h _ ht' => Option.some.inj (hs.symm.trans ht') ▸ h, fun h => h t hs⟩

/-- A condition that holds at every step reached along the run. -/
theorem along_of_at_step {P : S → A → S → Prop} {s : S} {as : List A}
    (h : ∀ bs a cs t u, as = bs ++ a :: cs → m.run s bs = some t → m.step t a = some u → P t a u) :
    m.Along P s as := by
  induction as generalizing s with
  | nil => trivial
  | cons a as ih =>
    intro t ht
    refine ⟨h [] a as s t rfl rfl ht, ih fun bs b cs v u he hv hu => ?_⟩
    exact h (a :: bs) b cs v u (by rw [he]; rfl) (by rw [run_cons_of_step ht, hv]) hu

/-- A condition along a run holds along what follows a part of it. -/
theorem Along.of_append {P : S → A → S → Prop} {s t : S} {as bs : List A}
    (h : m.Along P s (as ++ bs)) (hr : m.run s as = some t) : m.Along P t bs := by
  induction as generalizing s with
  | nil => exact Option.some.inj hr ▸ h
  | cons a as ih =>
    obtain ⟨u, hu, hr'⟩ := run_cons hr
    exact ih (h u hu).2 hr'

/-- The parts of a run one after the other. -/
theorem Along.append {P : S → A → S → Prop} {s t : S} {as bs : List A} (h : m.Along P s as)
    (hr : m.run s as = some t) (hbs : m.Along P t bs) : m.Along P s (as ++ bs) := by
  induction as generalizing s with
  | nil => exact Option.some.inj hr ▸ hbs
  | cons a as ih =>
    intro u hu
    rw [run_cons_of_step hu] at hr
    exact ⟨(h u hu).1, ih (h u hu).2 hr⟩

theorem Along.append_left {P : S → A → S → Prop} {s : S} {as bs : List A}
    (h : m.Along P s (as ++ bs)) : m.Along P s as := by
  induction as generalizing s with
  | nil => trivial
  | cons a as ih => exact fun t ht => ⟨(h t ht).1, ih (h t ht).2⟩

theorem Along.snoc {P : S → A → S → Prop} {s t u : S} {as : List A} {a : A} (h : m.Along P s as)
    (hr : m.run s as = some t) (ht : m.step t a = some u) (hP : P t a u) :
    m.Along P s (as ++ [a]) := by
  induction as generalizing s with
  | nil =>
    obtain rfl := Option.some.inj hr
    intro v hv
    obtain rfl := Option.some.inj (ht.symm.trans hv)
    exact ⟨hP, trivial⟩
  | cons b as ih =>
    obtain ⟨v, hv, hr'⟩ := run_cons hr
    intro x hx
    obtain rfl := Option.some.inj (hv.symm.trans hx)
    exact ⟨(h v hv).1, ih (h v hv).2 hr'⟩

theorem run_snoc {s t u : S} {as : List A} {a : A} (hr : m.run s as = some t)
    (ht : m.step t a = some u) : m.run s (as ++ [a]) = some u := by
  rw [run_append_of_run hr, run_cons_of_step ht]
  rfl

/-- Every step of a run is on the way to its end. -/
theorem along_reaches {s s' : S} {as : List A} (hr : m.run s as = some s') :
    m.Along (fun _ _ u => ∃ cs, m.run u cs = some s') s as := by
  induction as generalizing s with
  | nil => trivial
  | cons a as ih =>
    intro t ht
    rw [run_cons_of_step ht] at hr
    exact ⟨⟨as, hr⟩, ih hr⟩

/-- **The invariant rule.**  A property that every admitted step preserves holds
at the end of every admitted run. -/
theorem run_invariant {I : S → Prop} {P : S → A → S → Prop}
    (hstep : ∀ s a s', I s → P s a s' → m.step s a = some s' → I s') {s s' : S} {as : List A}
    (hI : I s) (hP : m.Along P s as) (hr : m.run s as = some s') : I s' := by
  induction as generalizing s with
  | nil => obtain rfl := Option.some.inj hr; exact hI
  | cons a as ih =>
    obtain ⟨t, ht, hr'⟩ := run_cons hr
    obtain ⟨hPa, hPas⟩ := hP t ht
    exact ih (hstep s a t hI hPa ht) hPas hr'

/-- An invariant may speak of the actions that have led to the state. -/
theorem run_invariant_actions {I : List A → S → Prop} {P : S → A → S → Prop}
    (hstep : ∀ as s a s', I as s → P s a s' → m.step s a = some s' → I (as ++ [a]) s')
    {s s' : S} {as : List A} (hI : I [] s) (hP : m.Along P s as) (hr : m.run s as = some s') :
    I as s' := by
  induction as generalizing s I with
  | nil => obtain rfl := Option.some.inj hr; exact hI
  | cons a as ih =>
    obtain ⟨t, ht, hr'⟩ := run_cons hr
    obtain ⟨hPa, hPas⟩ := hP t ht
    exact ih (I := fun bs u => I (a :: bs) u)
      (fun bs u b u' hu hb h => hstep (a :: bs) u b u' hu hb h) (hstep [] s a t hI hPa ht) hPas hr'

/-- The invariant rule with no condition on the steps. -/
theorem run_invariant_of_step {I : S → Prop}
    (hstep : ∀ s a s', I s → m.step s a = some s' → I s') {s s' : S} {as : List A}
    (hI : I s) (hr : m.run s as = some s') : I s' :=
  run_invariant (P := fun _ _ _ => True) (fun s a s' h _ => hstep s a s' h) hI
    (along_of_forall (fun _ _ _ _ => trivial) s as) hr

/-- A property of steps that follows from an invariant of their first states holds
along every admitted run. -/
theorem along_of_invariant {I : S → Prop} {P Q : S → A → S → Prop}
    (hstep : ∀ s a s', I s → P s a s' → m.step s a = some s' → I s' ∧ Q s a s') {s : S}
    {as : List A} (hI : I s) (hP : m.Along P s as) : m.Along Q s as := by
  induction as generalizing s with
  | nil => trivial
  | cons a as ih =>
    intro t ht
    obtain ⟨hPa, hPas⟩ := hP t ht
    obtain ⟨hIt, hQ⟩ := hstep s a t hI hPa ht
    exact ⟨hQ, ih hIt hPas⟩

/-- An invariant at the end of a run, and what follows from it at every step. -/
theorem run_and_along {I : S → Prop} {P Q : S → A → S → Prop}
    (hstep : ∀ s a s', I s → P s a s' → m.step s a = some s' → I s' ∧ Q s a s') {s s' : S}
    {as : List A} (hI : I s) (hP : m.Along P s as) (hr : m.run s as = some s') :
    I s' ∧ m.Along Q s as :=
  ⟨run_invariant (fun s a s' hI hP h => (hstep s a s' hI hP h).1) hI hP hr,
    along_of_invariant hstep hI hP⟩

/-- Two conditions on steps that agree while an invariant holds, which each of them
preserves, agree on runs. -/
theorem along_iff_of_invariant {I : S → Prop} {P Q : S → A → S → Prop} {as : List A}
    (hstep : ∀ s, ∀ a ∈ as, ∀ s', I s → m.step s a = some s' →
      (P s a s' ↔ Q s a s') ∧ (Q s a s' → I s'))
    {s : S} (hI : I s) : m.Along P s as ↔ m.Along Q s as := by
  induction as generalizing s with
  | nil => exact Iff.rfl
  | cons a as ih =>
    have hrest := fun s b (hb : b ∈ as) => hstep s b (List.mem_cons_of_mem _ hb)
    refine forall₂_congr fun t ht => ?_
    obtain ⟨hPQ, hIt⟩ := hstep s a List.mem_cons_self t hI ht
    rw [hPQ]
    exact and_congr_right fun hQ => ih hrest (hIt hQ)

section Events
variable {B : Type} {f : S → A → Option B}

theorem events_cons_of_step {s t : S} {a : A} (h : m.step s a = some t) (as : List A) :
    m.events f s (a :: as) = (f s a).toList ++ m.events f t as := by
  simp [events, h]

/-- What is recorded was observed at some step of the run. -/
theorem mem_events {b : B} {s : S} {as : List A} (h : b ∈ m.events f s as) :
    ∃ bs a cs t u, as = bs ++ a :: cs ∧ m.run s bs = some t ∧ m.step t a = some u ∧
      f t a = some b := by
  induction as generalizing s with
  | nil => cases h
  | cons a as ih =>
    cases hs : m.step s a with
    | none => simp [events, hs] at h
    | some u =>
      rw [events_cons_of_step hs, List.mem_append, Option.mem_toList] at h
      rcases h with h | h
      · exact ⟨[], a, as, s, u, rfl, rfl, hs, h⟩
      · obtain ⟨bs, a', cs, t, v, rfl, ht, hv, hb⟩ := ih h
        exact ⟨a :: bs, a', cs, t, v, rfl, by rw [run_cons_of_step hs, ht], hv, hb⟩

/-- What a step shows is recorded. -/
theorem along_events (s : S) (as : List A) :
    m.Along (fun t a _ => ∀ b, f t a = some b → b ∈ m.events f s as) s as := by
  induction as generalizing s with
  | nil => trivial
  | cons a as ih =>
    intro t ht
    rw [events_cons_of_step ht]
    refine ⟨fun b hb => ?_, (ih t).imp fun _ _ _ hP b hb => List.mem_append_right _ (hP b hb)⟩
    rw [hb]
    exact List.mem_append_left _ List.mem_cons_self

/-- What holds of all that a step may show holds of all that is recorded. -/
theorem forall_events_of_along {Q : B → Prop} {s : S} {as : List A}
    (h : m.Along (fun t a _ => ∀ b, f t a = some b → Q b) s as) : ∀ b ∈ m.events f s as, Q b := by
  induction as generalizing s with
  | nil => exact fun b hb => nomatch hb
  | cons a as ih =>
    intro b hb
    cases hs : m.step s a with
    | none => simp [events, hs] at hb
    | some u =>
      obtain ⟨hQ, hrest⟩ := h u hs
      rw [events_cons_of_step hs, List.mem_append, Option.mem_toList] at hb
      exact hb.elim (hQ b) (ih hrest b)

/-- An observer that is a function of another one, as long as `I` holds. -/
theorem events_eq_filterMap {C : Type} {g : S → A → Option C} {k : B → Option C} {I : S → Prop}
    (hstep : ∀ s a s', I s → m.step s a = some s' → I s' ∧ g s a = (f s a).bind k) {s : S}
    (hI : I s) (as : List A) : m.events g s as = (m.events f s as).filterMap k := by
  induction as generalizing s with
  | nil => rfl
  | cons a as ih =>
    cases hs : m.step s a with
    | none => simp [events, hs]
    | some u =>
      obtain ⟨hIu, hg⟩ := hstep s a u hI hs
      rw [events_cons_of_step hs, events_cons_of_step hs, ih hIu, hg, List.filterMap_append]
      cases f s a with
      | none => rfl
      | some b => cases hb : k b <;> simp [hb]

/-- What comes in at a step goes out at another one, or is still inside at the end. -/
theorem events_balance {g : S → A → Option B} {inside : S → Multiset B} {I : S → Prop}
    {P : S → A → S → Prop} (hstep : ∀ s a s', I s → P s a s' → m.step s a = some s' →
      I s' ∧ inside s + ↑(f s a).toList = ↑(g s a).toList + inside s')
    {s s' : S} {as : List A} (hI : I s) (hP : m.Along P s as) (hr : m.run s as = some s') :
    inside s + ↑(m.events f s as) = ↑(m.events g s as) + inside s' := by
  induction as generalizing s with
  | nil =>
    obtain rfl := Option.some.inj hr
    exact add_comm _ _
  | cons a as ih =>
    obtain ⟨t, ht, hr'⟩ := run_cons hr
    obtain ⟨hPa, hPas⟩ := hP t ht
    obtain ⟨hIt, hbalance⟩ := hstep s a t hI hPa ht
    rw [events_cons_of_step ht, events_cons_of_step ht, ← Multiset.coe_add, ← Multiset.coe_add,
      ← add_assoc, hbalance, add_assoc, ih hIt hPas hr', add_assoc]

end Events

/-! ### Simulation -/

/-- The machine goes from `s` to `s'` by the action, or stays where it is if there is
none. -/
def Follows (m : Machine S A) (s s' : S) : Option A → Prop
  | none => s' = s
  | some a => m.step s a = some s'

/-- What every step that is taken preserves. -/
theorem Follows.preserves {m : Machine S A} {I : S → Prop} {s s' : S} {o : Option A}
    (h : m.Follows s s' o) (hI : I s)
    (hstep : ∀ a, o = some a → m.step s a = some s' → I s') : I s' := by
  cases o with
  | none =>
    have hs : s' = s := h
    exact hs ▸ hI
  | some a => exact hstep a rfl h

/-- `m` does what `n` does, seen through `view`: on states that satisfy `inv`, a
step that meets `guard` preserves `inv` and is a step of `n` on the views, under
its `label`, or leaves the view as it is when it has none. -/
structure Simulation (m : Machine S A) {T B : Type} (n : Machine T B) where
  view : S → T
  inv : S → Prop
  guard : S → A → S → Prop
  label : S → A → Option B
  preserves : ∀ s a s', inv s → guard s a s' → m.step s a = some s' → inv s'
  simulates : ∀ s a s', inv s → guard s a s' → m.step s a = some s' →
    n.Follows (view s) (view s') (label s a)

namespace Simulation
variable {T B : Type} {n : Machine T B} (sim : Simulation m n)

/-- **A simulation lifts to runs**: the labels recorded along a run of `m` are a
run of `n` between the views of its ends. -/
theorem run {s s' : S} {as : List A} (hI : sim.inv s) (hG : m.Along sim.guard s as)
    (hr : m.run s as = some s') :
    n.run (sim.view s) (m.events sim.label s as) = some (sim.view s') := by
  induction as generalizing s with
  | nil => obtain rfl := Option.some.inj hr; rfl
  | cons a as ih =>
    obtain ⟨t, ht, hr'⟩ := run_cons hr
    obtain ⟨hGa, hGas⟩ := hG t ht
    have hnext := ih (sim.preserves s a t hI hGa ht) hGas hr'
    have hsim := sim.simulates s a t hI hGa ht
    rw [events_cons_of_step ht]
    cases hl : sim.label s a with
    | none =>
      rw [hl] at hsim
      change sim.view t = sim.view s at hsim
      rw [← hsim]
      exact hnext
    | some b =>
      rw [hl] at hsim
      exact (run_cons_of_step hsim _).trans hnext

/-- A condition on the steps of `n` that follows from one on the steps of `m` holds
along the simulated run. -/
theorem along {P : S → A → S → Prop} {Q : T → B → T → Prop}
    (hPQ : ∀ s a s' b, sim.inv s → sim.guard s a s' → P s a s' → m.step s a = some s' →
      sim.label s a = some b → Q (sim.view s) b (sim.view s'))
    {s s' : S} {as : List A} (hI : sim.inv s) (hG : m.Along sim.guard s as) (hP : m.Along P s as)
    (hr : m.run s as = some s') : n.Along Q (sim.view s) (m.events sim.label s as) := by
  induction as generalizing s with
  | nil => trivial
  | cons a as ih =>
    obtain ⟨t, ht, hr'⟩ := run_cons hr
    obtain ⟨hGa, hGas⟩ := hG t ht
    obtain ⟨hPa, hPas⟩ := hP t ht
    have hnext := ih (sim.preserves s a t hI hGa ht) hGas hPas hr'
    have hsim := sim.simulates s a t hI hGa ht
    rw [events_cons_of_step ht]
    cases hl : sim.label s a with
    | none =>
      rw [hl] at hsim
      change sim.view t = sim.view s at hsim
      rw [← hsim]
      exact hnext
    | some b =>
      rw [hl] at hsim
      intro u hu
      obtain rfl := Option.some.inj (hsim.symm.trans hu)
      exact ⟨hPQ s a t b hI hGa hPa ht hl, hnext⟩

/-- The converse: a condition along the simulated run gives one along the run. -/
theorem along_of_along {P : S → A → S → Prop} {Q : T → B → T → Prop}
    (hnone : ∀ s a s', sim.inv s → m.step s a = some s' → sim.label s a = none → P s a s')
    (hQP : ∀ s a s' b, sim.inv s → sim.guard s a s' → Q (sim.view s) b (sim.view s') →
      m.step s a = some s' → sim.label s a = some b → P s a s')
    {s : S} {as : List A} (hI : sim.inv s) (hG : m.Along sim.guard s as)
    (hQ : n.Along Q (sim.view s) (m.events sim.label s as)) : m.Along P s as := by
  induction as generalizing s with
  | nil => trivial
  | cons a as ih =>
    intro t ht
    obtain ⟨hGa, hGas⟩ := hG t ht
    have hsim := sim.simulates s a t hI hGa ht
    have hIt := sim.preserves s a t hI hGa ht
    rw [events_cons_of_step ht] at hQ
    cases hl : sim.label s a with
    | none =>
      rw [hl] at hsim hQ
      change sim.view t = sim.view s at hsim
      rw [← hsim] at hQ
      exact ⟨hnone s a t hI ht hl, ih hIt hGas hQ⟩
    | some b =>
      rw [hl] at hsim hQ
      obtain ⟨hQb, hQas⟩ := hQ _ hsim
      exact ⟨hQP s a t b hI hGa hQb ht hl, ih hIt hGas hQas⟩

end Simulation

end Machine
end Library
