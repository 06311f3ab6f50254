import Mathlib.Data.List.Basic
import Mhftp.Library.Machine

/-! # A shared table updated from private copies under a lock

Workers share a table of tasks.  To claim a task a worker takes the lock, reads the
whole table into a private copy, picks the first free entry of the copy, marks it and
writes the whole copy back; to settle its task it does the same again.  Nothing else
of a worker matters here.  `overwrite` is a writer that does not take the lock.

The danger of this scheme is the copy: a worker that writes back an old one undoes
what the others wrote.  As long as the writer outside the lock changes nothing
(`Harmless`), a copy is the table while it is held (`Valid.fresh`), so every write
changes the writer's own entry only (`table_step`), a task is held by one worker at a
time (`Valid.unique`), and every entry that was marked on the way is held
(`Since.entry`).
-/

namespace Library

/-- What the entries of a table are to the workers: which may be claimed, which are
marked as claimed, which are settled, how claiming and settling show them, and
which outcomes are failures. -/
structure ClaimRules (E O : Type) where
  free : E → Bool
  held : E → Bool
  settled : E → Bool
  mark : E → E
  settle : O → E → E
  failed : O → Bool
  free_of_held : ∀ e, held e = true → free e = false
  free_of_settled : ∀ e, settled e = true → free e = false
  held_of_settled : ∀ e, settled e = true → held e = false
  held_mark : ∀ e, held (mark e) = true
  free_settle : ∀ o e, free (settle o e) = failed o
  settled_settle : ∀ o e, settled (settle o e) = !failed o

namespace ClaimTable

/-- Where a worker is. -/
inductive Phase (E : Type)
  | absent
  /-- at the top of its loop -/
  | idle
  /-- holds the lock to claim, has read nothing -/
  | entering
  /-- holds the lock to claim, has read the table -/
  | loaded (copy : List E)
  /-- has written its claim of task `i`, still holds the lock -/
  | claimed (i : Nat)
  /-- works on task `i` -/
  | holding (i : Nat)
  /-- holds the lock to settle, has read nothing -/
  | returning (i : Nat)
  /-- holds the lock to settle, has read the table -/
  | reloaded (i : Nat) (copy : List E)
  /-- has settled, still holds the lock -/
  | returned (failed : Bool)
  | left (failed : Bool)
  /-- died at work on task `i` -/
  | dead (i : Nat)

namespace Phase
variable {E : Type}

/-- The worker is between taking the lock and releasing it. -/
def critical : Phase E → Bool
  | entering | loaded _ | claimed _ | returning _ | reloaded _ _ | returned _ => true
  | _ => false

/-- The private copy the worker will write back. -/
def copy : Phase E → Option (List E)
  | loaded t | reloaded _ t => some t
  | _ => none

/-- The task the worker has claimed and not settled. -/
def holds : Phase E → Option Nat
  | claimed i | holding i | returning i | reloaded i _ | dead i => some i
  | _ => none

end Phase

/-- The table, who holds the lock, and where the workers are. -/
structure State (E ω : Type) where
  table : List E
  lock : Option ω
  phase : ω → Phase E

/-- The actions of worker `w`, and the writer outside the lock. -/
inductive Act (E O ω : Type)
  | start (w : ω)
  | lock (w : ω)
  | load (w : ω)
  | claim (w : ω)
  | giveUp (w : ω)
  | release (w : ω)
  | quit (w : ω)
  | settle (w : ω) (o : O)
  | die (w : ω)
  | overwrite (t : List E)

variable {E O ω : Type} (R : ClaimRules E O) [DecidableEq ω]

/-- The phase of a worker who has released the lock after settling. -/
def Phase.resume (failed : Bool) : Phase E := if failed then .left true else .idle

/-- One action. -/
def step (s : State E ω) : Act E O ω → Option (State E ω)
  | .start w =>
    match s.phase w with
    | .absent => some { s with phase := update s.phase w .idle }
    | _ => none
  | .lock w =>
    match s.lock, s.phase w with
    | none, .idle => some { s with lock := some w, phase := update s.phase w .entering }
    | none, .holding i => some { s with lock := some w, phase := update s.phase w (.returning i) }
    | _, _ => none
  | .load w =>
    match s.phase w with
    | .entering => some { s with phase := update s.phase w (.loaded s.table) }
    | .returning i => some { s with phase := update s.phase w (.reloaded i s.table) }
    | _ => none
  | .claim w =>
    match s.phase w with
    | .loaded t =>
      match t.findIdx? R.free with
      | some i => some { s with table := t.modify i R.mark, phase := update s.phase w (.claimed i) }
      | none => none
    | _ => none
  | .giveUp w =>
    match s.phase w with
    | .loaded t =>
      match t.findIdx? R.free with
      | some _ => none
      | none => some { s with lock := none, phase := update s.phase w (.left false) }
    | _ => none
  | .release w =>
    match s.phase w with
    | .claimed i => some { s with lock := none, phase := update s.phase w (.holding i) }
    | .returned f => some { s with lock := none, phase := update s.phase w (.resume f) }
    | _ => none
  | .quit w =>
    match s.phase w with
    | .idle => some { s with phase := update s.phase w (.left false) }
    | _ => none
  | .settle w o =>
    match s.phase w with
    | .reloaded i t =>
      some { s with
        table := t.modify i (R.settle o)
        phase := update s.phase w (.returned (R.failed o)) }
    | _ => none
  | .die w =>
    match s.phase w with
    | .holding i => some { s with phase := update s.phase w (.dead i) }
    | _ => none
  | .overwrite t => some { s with table := t }

/-- The table and its workers as a machine. -/
def machine : Machine (State E ω) (Act E O ω) := ⟨step R⟩

/-- The steps one by one: what each needs and what it does. -/
inductive Step : State E ω → Act E O ω → State E ω → Prop
  | start {s w} : s.phase w = .absent →
      Step s (.start w) { s with phase := update s.phase w .idle }
  | lockClaim {s w} : s.lock = none → s.phase w = .idle →
      Step s (.lock w) { s with lock := some w, phase := update s.phase w .entering }
  | lockSettle {s w i} : s.lock = none → s.phase w = .holding i →
      Step s (.lock w) { s with lock := some w, phase := update s.phase w (.returning i) }
  | loadClaim {s w} : s.phase w = .entering →
      Step s (.load w) { s with phase := update s.phase w (.loaded s.table) }
  | loadSettle {s w i} : s.phase w = .returning i →
      Step s (.load w) { s with phase := update s.phase w (.reloaded i s.table) }
  | claim {s w t i} : s.phase w = .loaded t → t.findIdx? R.free = some i →
      Step s (.claim w)
        { s with table := t.modify i R.mark, phase := update s.phase w (.claimed i) }
  | giveUp {s w t} : s.phase w = .loaded t → t.findIdx? R.free = none →
      Step s (.giveUp w) { s with lock := none, phase := update s.phase w (.left false) }
  | releaseClaim {s w i} : s.phase w = .claimed i →
      Step s (.release w) { s with lock := none, phase := update s.phase w (.holding i) }
  | releaseSettle {s w f} : s.phase w = .returned f →
      Step s (.release w) { s with lock := none, phase := update s.phase w (.resume f) }
  | quit {s w} : s.phase w = .idle →
      Step s (.quit w) { s with phase := update s.phase w (.left false) }
  | settle {s w i t o} : s.phase w = .reloaded i t →
      Step s (.settle w o) { s with
        table := t.modify i (R.settle o)
        phase := update s.phase w (.returned (R.failed o)) }
  | die {s w i} : s.phase w = .holding i →
      Step s (.die w) { s with phase := update s.phase w (.dead i) }
  | overwrite {s t} : Step s (.overwrite t) { s with table := t }

variable {R}

theorem step_cases {s s' : State E ω} {a : Act E O ω} (h : (machine R).step s a = some s') :
    Step R s a s' := by
  cases a <;> simp only [machine, step] at h
  case overwrite t => cases h; exact .overwrite
  case lock w =>
    split at h <;> cases h
    · exact .lockClaim ‹_› ‹_›
    · exact .lockSettle ‹_› ‹_›
  case claim w =>
    split at h
    · split at h <;> cases h
      exact .claim ‹_› ‹_›
    · cases h
  case giveUp w =>
    split at h
    · split at h <;> cases h
      exact .giveUp ‹_› ‹_›
    · cases h
  case load w =>
    split at h <;> cases h
    · exact .loadClaim ‹_›
    · exact .loadSettle ‹_›
  case release w =>
    split at h <;> cases h
    · exact .releaseClaim ‹_›
    · exact .releaseSettle ‹_›
  all_goals
    split at h <;> cases h
    constructor; assumption

/-- The machine takes each of these steps. -/
theorem Step.step {s s' : State E ω} {a : Act E O ω} (h : Step R s a s') :
    (machine R).step s a = some s' := by
  cases h <;> simp [machine, ClaimTable.step, *]

section Follows
variable {κ : Type} {phase : κ → Phase E} {workers workers' : ω → κ} {w : ω} {wk : κ}
  {t t' : List E} {l l' : Option ω}

/-- A system with workers that are seen as phases makes a step of the table when it moves
one worker, if the table's step does the same to that worker's phase. -/
theorem Step.follows {a : Act E O ω} {x : Phase E}
    (h : Step R ⟨t, l, fun v => phase (workers v)⟩ a
      ⟨t', l', update (fun v => phase (workers v)) w x⟩)
    (hworkers : workers' = update workers w wk) (hx : phase wk = x) :
    (machine R).Follows ⟨t, l, fun v => phase (workers v)⟩
      ⟨t', l', fun v => phase (workers' v)⟩ (some a) := by
  rw [hworkers, comp_update phase, hx]
  exact h.step

/-- A move of a worker that stays in its phase is not seen. -/
theorem follows_silent (hworkers : workers' = update workers w wk)
    (hx : phase (workers w) = phase wk) :
    (machine R).Follows ⟨t, l, fun v => phase (workers v)⟩
      ⟨t, l, fun v => phase (workers' v)⟩ none := by
  rw [hworkers, comp_update phase, update_eq_of_eq (f := fun v => phase (workers v)) hx]
  rfl

end Follows

/-! ### The lock, the copies and the writes, whoever else writes -/

/-- The lock is held by the worker in its critical section. -/
def Owned (s : State E ω) : Prop := ∀ w, (s.phase w).critical = true ↔ s.lock = some w

section Owned
variable {s s' : State E ω}

omit [DecidableEq ω] in
theorem Owned.eq_of_critical (hs : Owned s) {w v : ω} (hw : (s.phase w).critical = true)
    (hv : (s.phase v).critical = true) : w = v :=
  Option.some.inj (((hs w).mp hw).symm.trans ((hs v).mp hv))

theorem Phase.critical_of_copy {x : Phase E} {t : List E} (h : x.copy = some t) :
    x.critical = true := by
  cases x <;> first | rfl | cases h

theorem Owned.move (hs : Owned s) {t : List E} {w : ω} {x : Phase E} {l : Option ω}
    (hown : x.critical = true ↔ l = some w)
    (hothers : ∀ v, v ≠ w → (s.lock = some v ↔ l = some v)) :
    Owned ⟨t, l, update s.phase w x⟩ := by
  intro v
  show (update s.phase w x v).critical = true ↔ l = some v
  by_cases hv : v = w
  · subst v; rw [update_self]; exact hown
  · rw [update_of_ne _ _ hv, hs v]; exact hothers v hv

/-- The lock discipline needs nothing but the lock. -/
theorem owned_step {a : Act E O ω} (hs : Owned s) (h : (machine R).step s a = some s') :
    Owned s' := by
  have locked : ∀ {w : ω}, (s.phase w).critical = false → s.lock ≠ some w := by
    intro w hw hl
    rw [(hs w).mpr hl] at hw
    cases hw
  have released : ∀ {w : ω}, (s.phase w).critical = true →
      ∀ v, v ≠ w → (s.lock = some v ↔ none = some v) := by
    intro w hw v hv
    rw [(hs w).mp hw]
    simp [Ne.symm hv]
  cases step_cases h with
  | @start w hw | @quit w hw | @die w _ hw =>
    exact hs.move (by simp [Phase.critical, locked (w := w) (by rw [hw]; rfl)]) fun _ _ => Iff.rfl
  | @lockClaim w hl hw | @lockSettle w _ hl hw =>
    exact hs.move (by simp [Phase.critical]) fun v hv => by simp [hl, Ne.symm hv]
  | @loadClaim w hw | @loadSettle w _ hw | @claim w _ _ hw _ | @settle w _ _ _ hw =>
    exact hs.move (by simpa [hw, Phase.critical] using hs w) fun _ _ => Iff.rfl
  | @giveUp w _ hw _ | @releaseClaim w _ hw =>
    exact hs.move (by simp [Phase.critical]) (released (by rw [hw]; rfl))
  | @releaseSettle w f hw =>
    cases f <;> exact hs.move (by simp [Phase.resume, Phase.critical]) (released (by rw [hw]; rfl))
  | overwrite => exact hs

/-- What an action writes: nothing, a claim or a settlement in the writer's own copy,
or whatever the writer outside the lock has. -/
theorem table_cases {a : Act E O ω} (h : (machine R).step s a = some s') :
    ((∀ w o, a ≠ .settle w o) ∧ (∀ t, a ≠ .overwrite t) ∧ s'.table = s.table) ∨
      (∃ w t i, a = .claim w ∧ s.phase w = .loaded t ∧ t.findIdx? R.free = some i ∧
        s'.phase w = .claimed i ∧ s'.table = t.modify i R.mark) ∨
      (∃ w t i o, a = .settle w o ∧ s.phase w = .reloaded i t ∧
        s'.phase w = .returned (R.failed o) ∧ s'.table = t.modify i (R.settle o)) ∨
      (∃ t, a = .overwrite t ∧ s'.table = t ∧ s'.phase = s.phase) := by
  cases step_cases h with
  | @claim w t i hw ht =>
    exact Or.inr (Or.inl ⟨w, t, i, rfl, hw, ht, update_self _ _ _, rfl⟩)
  | @settle w i t o hw =>
    exact Or.inr (Or.inr (Or.inl ⟨w, t, i, o, rfl, hw, update_self _ _ _, rfl⟩))
  | overwrite => exact Or.inr (Or.inr (Or.inr ⟨_, rfl, rfl, rfl⟩))
  | _ => exact Or.inl ⟨fun _ _ h => by (cases h), fun _ h => by (cases h), rfl⟩

/-- A private copy was there before, or it is the table. -/
theorem copy_step {a : Act E O ω} (h : (machine R).step s a = some s') {w : ω} {t : List E}
    (hc : (s'.phase w).copy = some t) : (s.phase w).copy = some t ∨ t = s.table := by
  have moved : ∀ (v : ω) (x : Phase E), (update s.phase v x w).copy = some t →
      x.copy = some t ∨ (s.phase w).copy = some t := by
    intro v x hx
    by_cases he : w = v
    · subst w; rw [update_self] at hx; exact Or.inl hx
    · rw [update_of_ne _ _ he] at hx; exact Or.inr hx
  cases step_cases h with
  | @loadClaim v _ | @loadSettle v _ _ =>
    rcases moved v _ hc with hx | hc
    · exact Or.inr (Option.some.inj hx).symm
    · exact Or.inl hc
  | @releaseSettle v f _ =>
    rcases moved v _ hc with hx | hc
    · cases f <;> cases hx
    · exact Or.inl hc
  | overwrite => exact Or.inl hc
  | @start v _ | @lockClaim v _ _ | @lockSettle v _ _ _ | @claim v _ _ _ _ | @giveUp v _ _ _
  | @releaseClaim v _ _ | @quit v _ | @settle v _ _ _ _ | @die v _ _ =>
    rcases moved v _ hc with hx | hc
    · cases hx
    · exact Or.inl hc

/-- What a worker holds after a step it held before, or it is what the step claims. -/
theorem holds_step {a : Act E O ω} (h : (machine R).step s a = some s') {w : ω} {i : Nat}
    (hw : (s'.phase w).holds = some i) : (s.phase w).holds = some i ∨
      (a = .claim w ∧ ∃ t, s.phase w = .loaded t ∧ t.findIdx? R.free = some i) := by
  -- the acting worker `v` moves to phase `x`, the others stay where they are
  have moved : ∀ (v : ω) (x : Phase E), (update s.phase v x w).holds = some i →
      (w = v ∧ x.holds = some i) ∨ (s.phase w).holds = some i := by
    intro v x hx
    by_cases he : w = v
    · subst w; rw [update_self] at hx; exact Or.inl ⟨rfl, hx⟩
    · rw [update_of_ne _ _ he] at hx; exact Or.inr hx
  cases step_cases h with
  | @claim v t j hv ht =>
    rcases moved v _ hw with ⟨rfl, hx⟩ | hw
    · obtain rfl := Option.some.inj hx
      exact Or.inr ⟨rfl, t, hv, ht⟩
    · exact Or.inl hw
  | @lockSettle v j _ hv | @loadSettle v j hv | @releaseClaim v j hv | @die v j hv =>
    rcases moved v _ hw with ⟨rfl, hx⟩ | hw
    · rw [hv]; exact Or.inl hx
    · exact Or.inl hw
  | @releaseSettle v f hv =>
    rcases moved v _ hw with ⟨rfl, hx⟩ | hw
    · cases f <;> cases hx
    · exact Or.inl hw
  | @start v _ | @lockClaim v _ _ | @loadClaim v _ | @giveUp v _ _ _ | @quit v _
  | @settle v _ _ _ _ =>
    rcases moved v _ hw with ⟨rfl, hx⟩ | hw
    · cases hx
    · exact Or.inl hw
  | overwrite => exact Or.inl hw

/-- What a worker holds it still holds after a step, unless the step settles it. -/
theorem holds_of_step {a : Act E O ω} (h : (machine R).step s a = some s') {w : ω} {i : Nat}
    (hw : (s.phase w).holds = some i) :
    (s'.phase w).holds = some i ∨ ∃ o, a = .settle w o := by
  have moved : ∀ (v : ω) (x : Phase E), (w = v → x.holds = some i) →
      (update s.phase v x w).holds = some i := by
    intro v x hx
    by_cases he : w = v
    · subst w; rw [update_self]; exact hx rfl
    · rw [update_of_ne _ _ he]; exact hw
  cases step_cases h with
  | @settle v _ _ o hv =>
    by_cases he : w = v
    · subst w; exact Or.inr ⟨o, rfl⟩
    · exact Or.inl (moved v _ fun h => absurd h he)
  | @lockSettle v j _ hv | @loadSettle v j hv | @releaseClaim v j hv | @die v j hv =>
    refine Or.inl (moved v _ fun he => ?_)
    subst w
    rw [hv] at hw
    exact hw
  | @releaseSettle v f hv | @quit v hv | @start v hv | @lockClaim v _ hv | @loadClaim v hv
  | @giveUp v t hv _ | @claim v t _ hv _ =>
    refine Or.inl (moved v _ fun he => ?_)
    subst w
    rw [hv] at hw
    cases hw
  | overwrite => exact Or.inl hw

/-! ### Sizes -/

/-- The table and the private copies have `n` entries, and tasks are numbered by them. -/
structure Sized (n : Nat) (s : State E ω) : Prop where
  table : s.table.length = n
  copy : ∀ w t, (s.phase w).copy = some t → t.length = n
  holds : ∀ w i, (s.phase w).holds = some i → i < n

/-- Sizes last as long as the writer outside the lock keeps to them. -/
theorem sized_step {n : Nat} {a : Act E O ω} (hs : Sized n s)
    (ha : ∀ t, a = .overwrite t → t.length = n) (h : (machine R).step s a = some s') :
    Sized n s' where
  table := by
    rcases table_cases h with ⟨-, -, ht⟩ | ⟨w, t, i, -, hw, -, -, ht⟩ |
      ⟨w, t, i, o, -, hw, -, ht⟩ | ⟨t, rfl, ht, -⟩
    · rw [ht, hs.table]
    · rw [ht, List.length_modify]; exact hs.copy w t (by rw [hw]; rfl)
    · rw [ht, List.length_modify]; exact hs.copy w t (by rw [hw]; rfl)
    · rw [ht]; exact ha t rfl
  copy := by
    intro w t hc
    rcases copy_step h hc with hc | rfl
    · exact hs.copy w t hc
    · exact hs.table
  holds := by
    intro w i hw
    rcases holds_step h hw with hw | ⟨-, t, ht, hi⟩
    · exact hs.holds w i hw
    · rw [← hs.copy w t (by rw [ht]; rfl)]
      exact (List.findIdx?_eq_some_iff_getElem.mp hi).1

/-! ### What holds of every entry -/

/-- `G` holds of every entry of the table and of the private copies. -/
structure Entries (G : Nat → E → Prop) (s : State E ω) : Prop where
  table : ∀ i e, s.table[i]? = some e → G i e
  copy : ∀ w t i e, (s.phase w).copy = some t → t[i]? = some e → G i e

/-- An entry that has been written to, or not. -/
theorem entry_modify {G : Nat → E → Prop} {t : List E} {i j : Nat} {f : E → E} {e : E}
    (ht : ∀ j e, t[j]? = some e → G j e) (hf : ∀ e, t[i]? = some e → G i e → G i (f e))
    (he : (t.modify i f)[j]? = some e) : G j e := by
  rw [List.getElem?_modify] at he
  obtain ⟨e₀, he₀, rfl⟩ := Option.map_eq_some_iff.mp he
  by_cases hij : i = j
  · subst hij
    rw [if_pos rfl]
    exact hf e₀ he₀ (ht i e₀ he₀)
  · rw [if_neg hij]
    exact ht j e₀ he₀

/-- It holds of them after a step, if it holds of what the step marks or settles and of what
is written outside the lock. -/
theorem entries_step {G : Nat → E → Prop} {a : Act E O ω} (hs : Entries G s)
    (hmark : ∀ w t i e, a = .claim w → s.phase w = .loaded t → t.findIdx? R.free = some i →
      t[i]? = some e → G i e → G i (R.mark e))
    (hsettle : ∀ w o i e, a = .settle w o → (s.phase w).holds = some i → G i e →
      G i (R.settle o e))
    (hover : ∀ t i e, a = .overwrite t → t[i]? = some e → G i e)
    (h : (machine R).step s a = some s') : Entries G s' where
  table := by
    intro j e he
    rcases table_cases h with ⟨-, -, ht⟩ | ⟨w, t, i, rfl, hw, hi, -, ht⟩ |
      ⟨w, t, i, o, rfl, hw, -, ht⟩ | ⟨t, rfl, ht, -⟩
    · exact hs.table j e (ht ▸ he)
    · rw [ht] at he
      exact entry_modify (fun j e => hs.copy w t j e (by rw [hw]; rfl))
        (fun e => hmark w t i e rfl hw hi) he
    · rw [ht] at he
      exact entry_modify (fun j e => hs.copy w t j e (by rw [hw]; rfl))
        (fun e _ => hsettle w o i e rfl (by rw [hw]; rfl)) he
    · exact hover t j e rfl (ht ▸ he)
  copy := by
    intro w t j e hc he
    rcases copy_step h hc with hc | rfl
    · exact hs.copy w t j e hc he
    · exact hs.table j e he

/-! ### What stands behind the settled entries -/

variable (R) in
/-- `P` holds of every task that the table or a private copy shows as settled. -/
structure Backed (P : Nat → Prop) (s : State E ω) : Prop where
  table : ∀ i e, s.table[i]? = some e → R.settled e = true → P i
  copy : ∀ w t i e, (s.phase w).copy = some t → t[i]? = some e → R.settled e = true → P i

omit [DecidableEq ω] in
theorem Backed.imp {P Q : Nat → Prop} (hs : Backed R P s) (hPQ : ∀ i, P i → Q i) :
    Backed R Q s where
  table := fun i e he hsettled => hPQ i (hs.table i e he hsettled)
  copy := fun w t i e hc he hsettled => hPQ i (hs.copy w t i e hc he hsettled)

/-- It stands behind them after a step, if it does behind the task that the step settles and
behind what is written outside the lock. -/
theorem backed_step {P : Nat → Prop} {a : Act E O ω} (hs : Backed R P s)
    (hsettle : ∀ w o i, a = .settle w o → (s.phase w).holds = some i → P i)
    (hover : ∀ t i e, a = .overwrite t → t[i]? = some e → R.settled e = true → P i)
    (h : (machine R).step s a = some s') : Backed R P s' := by
  have hentries : Entries (fun i e => R.settled e = true → P i) s := ⟨hs.table, hs.copy⟩
  have hmark : ∀ i e, (R.settled e = true → P i) → R.settled (R.mark e) = true → P i := by
    intro i e _ hsettled
    have hheld := R.held_of_settled _ hsettled
    rw [R.held_mark] at hheld
    cases hheld
  obtain ⟨htable, hcopy⟩ := entries_step hentries (fun _ _ i e _ _ _ _ => hmark i e)
    (fun w o i _ ha hw _ _ => hsettle w o i ha hw) hover h
  exact ⟨htable, hcopy⟩

end Owned

/-! ### A harmless writer outside the lock -/

/-- The writer outside the lock writes back what is there. -/
def Harmless (s : State E ω) : Act E O ω → Prop
  | .overwrite t => t = s.table
  | _ => True

variable (R)

/-- The lock has one owner, a private copy is the table, and a claimed task is marked
and claimed by one worker. -/
structure Valid (s : State E ω) : Prop where
  owner : Owned s
  fresh : ∀ w t, (s.phase w).copy = some t → t = s.table
  marked : ∀ w i, (s.phase w).holds = some i → ∃ e, s.table[i]? = some e ∧ R.held e = true
  unique : ∀ w v i, (s.phase w).holds = some i → (s.phase v).holds = some i → w = v

/-- Nobody has started. -/
def initial (t : List E) : State E ω := ⟨t, none, fun _ => .absent⟩

omit [DecidableEq ω] in
theorem sized_initial (t : List E) : Sized t.length (initial t : State E ω) where
  table := rfl
  copy := fun w u h => by cases h
  holds := fun w i h => by cases h

omit [DecidableEq ω] in
theorem entries_initial {G : Nat → E → Prop} {t : List E} (h : ∀ i e, t[i]? = some e → G i e) :
    Entries G (initial t : State E ω) where
  table := h
  copy := fun w u i e hc => by cases hc

omit [DecidableEq ω] in
theorem valid_initial (t : List E) : Valid R (initial t : State E ω) := by
  constructor <;> simp [Owned, initial, Phase.critical, Phase.copy, Phase.holds]

variable {R}

section Entries
variable {t : List E} {i j : Nat} {f : E → E}

theorem getElem?_modify_self (h : i < t.length) : (t.modify i f)[i]? = some (f t[i]) := by
  simp [h]

theorem getElem?_modify_ne (h : j ≠ i) : (t.modify i f)[j]? = t[j]? := by
  simp [Ne.symm h]

theorem findIdx?_some {p : E → Bool} (h : t.findIdx? p = some i) :
    ∃ hi : i < t.length, p t[i] = true := by
  obtain ⟨hi, hp, -⟩ := List.findIdx?_eq_some_iff_getElem.mp h
  exact ⟨hi, hp⟩

end Entries

section Valid
variable {s s' : State E ω}

omit [DecidableEq ω] in
/-- Only the owner of the lock has a private copy. -/
theorem Owned.copy_unique (hs : Owned s) {w v : ω} (hw : (s.phase w).critical = true)
    (hv : v ≠ w) : (s.phase v).copy = none := by
  cases hc : (s.phase v).copy with
  | none => rfl
  | some t => exact absurd (hs.eq_of_critical (Phase.critical_of_copy hc) hw) hv

/-- A step of `w` that leaves the table alone. -/
theorem Valid.phase_step (hs : Valid R s) {w : ω} {x : Phase E} {l : Option ω}
    (howner : Owned { s with lock := l, phase := update s.phase w x })
    (hcopy : ∀ t, x.copy = some t → t = s.table)
    (hholds : ∀ i, x.holds = some i → (s.phase w).holds = some i) :
    Valid R { s with lock := l, phase := update s.phase w x } := by
  have holds : ∀ v i, (update s.phase w x v).holds = some i → (s.phase v).holds = some i := by
    intro v i h
    by_cases hv : v = w
    · subst v; rw [update_self] at h; exact hholds i h
    · rwa [update_of_ne _ _ hv] at h
  refine ⟨howner, fun v t h => ?_, fun v i h => hs.marked v i (holds v i h),
    fun v u i hv hu => hs.unique v u i (holds v i hv) (holds u i hu)⟩
  change (update s.phase w x v).copy = some t at h
  by_cases hv : v = w
  · subst v; rw [update_self] at h; exact hcopy t h
  · rw [update_of_ne _ _ hv] at h; exact hs.fresh v t h

/-- A step of the owner of the lock that writes entry `i`, which nobody else holds. -/
theorem Valid.write (hs : Valid R s) {w : ω} {x : Phase E} {i : Nat} {f : E → E}
    (howner : Owned { s with table := s.table.modify i f, phase := update s.phase w x })
    (hw : (s.phase w).critical = true) (hcopy : x.copy = none)
    (hi : i < s.table.length) (hothers : ∀ v, v ≠ w → (s.phase v).holds ≠ some i)
    (hholds : ∀ j, x.holds = some j → j = i ∧ ∀ e, R.held (f e) = true) :
    Valid R { s with table := s.table.modify i f, phase := update s.phase w x } := by
  refine ⟨howner, fun v t h => ?_, fun v j h => ?_, fun v u j hv hu => ?_⟩
  · change (update s.phase w x v).copy = some t at h
    by_cases hv : v = w
    · subst v; rw [update_self, hcopy] at h; cases h
    · rw [update_of_ne _ _ hv, hs.owner.copy_unique hw hv] at h; cases h
  · change (update s.phase w x v).holds = some j at h
    show ∃ e, (s.table.modify i f)[j]? = some e ∧ _
    by_cases hv : v = w
    · subst v
      rw [update_self] at h
      obtain ⟨rfl, hf⟩ := hholds j h
      exact ⟨_, getElem?_modify_self hi, hf _⟩
    · rw [update_of_ne _ _ hv] at h
      have hji : j ≠ i := fun he => hothers v hv (he ▸ h)
      rw [getElem?_modify_ne hji]
      exact hs.marked v j h
  · change (update s.phase w x v).holds = some j at hv
    change (update s.phase w x u).holds = some j at hu
    by_cases hvw : v = w <;> by_cases huw : u = w
    · rw [hvw, huw]
    · subst v
      rw [update_self] at hv
      rw [update_of_ne _ _ huw] at hu
      exact absurd ((hholds j hv).1 ▸ hu) (hothers u huw)
    · subst u
      rw [update_self] at hu
      rw [update_of_ne _ _ hvw] at hv
      exact absurd ((hholds j hu).1 ▸ hv) (hothers v hvw)
    · rw [update_of_ne _ _ hvw] at hv
      rw [update_of_ne _ _ huw] at hu
      exact hs.unique v u j hv hu

/-- **The step lemma.**  With a harmless writer outside the lock every action keeps
the discipline. -/
theorem valid_step {a : Act E O ω} (hs : Valid R s) (ha : Harmless s a)
    (h : (machine R).step s a = some s') : Valid R s' := by
  have howner := owned_step hs.owner h
  cases step_cases h with
  | start | lockClaim | giveUp | quit =>
    exact hs.phase_step howner (by simp [Phase.copy]) (by simp [Phase.holds])
  | lockSettle _ hw | releaseClaim hw | die hw =>
    exact hs.phase_step howner (by simp [Phase.copy]) (by simp [hw, Phase.holds])
  | loadClaim =>
    exact hs.phase_step howner (by simp [Phase.copy, eq_comm]) (by simp [Phase.holds])
  | loadSettle hw =>
    exact hs.phase_step howner (by simp [Phase.copy, eq_comm]) (by simp [hw, Phase.holds])
  | @releaseSettle w f hw =>
    cases f <;> exact hs.phase_step howner (by simp [Phase.resume, Phase.copy])
      (by simp [Phase.resume, Phase.holds])
  | @claim w t i hw ht =>
    obtain rfl := hs.fresh w t (by rw [hw]; rfl)
    obtain ⟨hi, hfree⟩ := findIdx?_some ht
    refine hs.write howner (by rw [hw]; rfl) rfl hi (fun v _ hv => ?_)
      (by simp [Phase.holds, R.held_mark, eq_comm])
    obtain ⟨e, he, hheld⟩ := hs.marked v i hv
    rw [List.getElem?_eq_getElem hi] at he
    obtain rfl := Option.some.inj he
    rw [R.free_of_held _ hheld] at hfree
    cases hfree
  | @settle w i t o hw =>
    obtain rfl := hs.fresh w t (by rw [hw]; rfl)
    have hholds : (s.phase w).holds = some i := by rw [hw]; rfl
    obtain ⟨e, he, -⟩ := hs.marked w i hholds
    obtain ⟨hi, -⟩ := List.getElem?_eq_some_iff.mp he
    exact hs.write howner (by rw [hw]; rfl) rfl hi
      (fun v hv hvi => hv (hs.unique v w i hvi hholds)) (by simp [Phase.holds])
  | overwrite =>
    obtain rfl : _ = s.table := ha
    exact hs

/-- **What one action does to the table**: nothing, or it marks the free entry the
acting worker found, or it settles the entry the acting worker holds. -/
theorem table_step {a : Act E O ω} (hs : Valid R s) (ha : Harmless s a)
    (h : (machine R).step s a = some s') :
    ((∀ w o, a ≠ .settle w o) ∧ s'.table = s.table) ∨
      (∃ w i, a = .claim w ∧ s.table.findIdx? R.free = some i ∧
        (s'.phase w).holds = some i ∧ s'.table = s.table.modify i R.mark) ∨
      (∃ w i o, a = .settle w o ∧ (s.phase w).holds = some i ∧
        s'.table = s.table.modify i (R.settle o)) := by
  rcases table_cases h with ⟨hns, -, ht⟩ | ⟨w, t, i, rfl, hw, hi, hw', ht⟩ |
    ⟨w, t, i, o, rfl, hw, -, ht⟩ | ⟨t, rfl, ht, -⟩
  · exact Or.inl ⟨hns, ht⟩
  · obtain rfl := hs.fresh w t (by rw [hw]; rfl)
    exact Or.inr (Or.inl ⟨w, i, rfl, hi, by rw [hw']; rfl, ht⟩)
  · obtain rfl := hs.fresh w t (by rw [hw]; rfl)
    exact Or.inr (Or.inr ⟨w, i, o, rfl, by rw [hw]; rfl, ht⟩)
  · exact Or.inl ⟨fun _ _ h => by (cases h), ht.trans ha⟩

/-- **What one action does to an entry**: nothing, or a worker claims it, which was on
offer, or a worker settles it, which was marked and held by that worker. -/
theorem entry_step {a : Act E O ω} (hs : Valid R s) (ha : Harmless s a)
    (h : (machine R).step s a = some s') {i : Nat} {e e' : E} (he : s.table[i]? = some e)
    (he' : s'.table[i]? = some e') : e' = e ∨
      (∃ w, a = .claim w ∧ R.free e = true ∧ (s'.phase w).holds = some i ∧ e' = R.mark e) ∨
      (∃ w o, a = .settle w o ∧ (s.phase w).holds = some i ∧ R.held e = true ∧
        e' = R.settle o e) := by
  obtain ⟨hi, rfl⟩ := List.getElem?_eq_some_iff.mp he
  have other : ∀ j f, i ≠ j → s'.table = s.table.modify j f → e' = s.table[i] := by
    intro j f hij ht
    rw [ht, getElem?_modify_ne hij, he] at he'
    exact (Option.some.inj he').symm
  rcases table_step hs ha h with ⟨-, ht⟩ | ⟨w, j, rfl, hj, hholds, ht⟩ | ⟨w, j, o, rfl, hholds, ht⟩
  · rw [ht, he] at he'
    exact Or.inl (Option.some.inj he').symm
  · by_cases hij : i = j
    · subst j
      obtain ⟨_, hfree⟩ := findIdx?_some hj
      rw [ht, getElem?_modify_self hi] at he'
      exact Or.inr (Or.inl ⟨w, rfl, hfree, hholds, (Option.some.inj he').symm⟩)
    · exact Or.inl (other j _ hij ht)
  · by_cases hij : i = j
    · subst j
      obtain ⟨e₁, he₁, hheld⟩ := hs.marked w i hholds
      obtain rfl := Option.some.inj (he.symm.trans he₁)
      rw [ht, getElem?_modify_self hi] at he'
      exact Or.inr (Or.inr ⟨w, o, rfl, hholds, hheld, (Option.some.inj he').symm⟩)
    · exact Or.inl (other j _ hij ht)

end Valid

/-! ### What has happened to the entries since the start -/

variable (R)

/-- Entry `i`, which was free at the start, is still on its way or settled. -/
def Touched (s : State E ω) (i : Nat) (e : E) : Prop :=
  (R.free e = true ∧ ∃ o, R.failed o = true) ∨ R.settled e = true ∨
    R.held e = true ∧ ∃ w, (s.phase w).holds = some i

/-- Compared with the table `t₀` of the start: an entry is as it was, or it was free
and has been claimed; and only free entries were claimed. -/
structure Since (t₀ : List E) (s : State E ω) : Prop where
  length : s.table.length = t₀.length
  entry : ∀ i e, s.table[i]? = some e → ∃ e₀, t₀[i]? = some e₀ ∧
    (e = e₀ ∨ R.free e₀ = true ∧ Touched R s i e)
  claimed : ∀ w i, (s.phase w).holds = some i → ∃ e₀, t₀[i]? = some e₀ ∧ R.free e₀ = true

omit [DecidableEq ω] in
theorem since_initial (t : List E) : Since R t (initial t : State E ω) where
  length := rfl
  entry := fun _ e he => ⟨e, he, Or.inl rfl⟩
  claimed := fun _ _ h => by cases h

variable {R}
section Since
variable {t₀ : List E} {s s' : State E ω}

omit [DecidableEq ω] in
theorem Since.free_of_free (hs : Since R t₀ s) {i : Nat} {e : E} (he : s.table[i]? = some e)
    (hfree : R.free e = true) : ∃ e₀, t₀[i]? = some e₀ ∧ R.free e₀ = true := by
  obtain ⟨e₀, he₀, h⟩ := hs.entry i e he
  rcases h with rfl | ⟨h, -⟩
  · exact ⟨e, he₀, hfree⟩
  · exact ⟨e₀, he₀, h⟩

/-- A claimed entry stays claimed by the same worker or is not marked any more. -/
theorem Touched.step {a : Act E O ω} (h : (machine R).step s a = some s') {i : Nat} {e : E}
    (hsettle : ∀ w o, a = .settle w o → (s.phase w).holds ≠ some i) (ht : Touched R s i e) :
    Touched R s' i e := by
  rcases ht with hfree | hsettled | ⟨hheld, w, hw⟩
  · exact Or.inl hfree
  · exact Or.inr (Or.inl hsettled)
  · refine Or.inr (Or.inr ⟨hheld, w, (holds_of_step h hw).resolve_right ?_⟩)
    rintro ⟨o, ho⟩
    exact hsettle w o ho hw

/-- The claims of a valid step are claims of entries that were free at the start, and
a marked entry keeps its holder until it is settled. -/
theorem since_step {a : Act E O ω} (hv : Valid R s) (hs : Since R t₀ s) (ha : Harmless s a)
    (h : (machine R).step s a = some s') : Since R t₀ s' := by
  have claimed : ∀ w i, (s'.phase w).holds = some i →
      ∃ e₀, t₀[i]? = some e₀ ∧ R.free e₀ = true := by
    intro w i hw
    rcases holds_step h hw with hw | ⟨-, t, ht, hi⟩
    · exact hs.claimed w i hw
    · obtain rfl := hv.fresh w t (by rw [ht]; rfl)
      obtain ⟨hlt, hfree⟩ := findIdx?_some hi
      exact hs.free_of_free (List.getElem?_eq_getElem hlt) hfree
  -- an entry that the step does not settle is accounted for as before
  have kept : ∀ i e, (∀ w o, a = .settle w o → (s.phase w).holds ≠ some i) →
      s.table[i]? = some e → ∃ e₀, t₀[i]? = some e₀ ∧
        (e = e₀ ∨ R.free e₀ = true ∧ Touched R s' i e) := by
    intro i e hne he
    obtain ⟨e₀, he₀, hcase⟩ := hs.entry i e he
    exact ⟨e₀, he₀, hcase.imp_right fun ⟨hfree, ht⟩ => ⟨hfree, ht.step h hne⟩⟩
  rcases table_step hv ha h with
    ⟨hns, ht⟩ | ⟨w, i, rfl, hi, hholds, ht⟩ | ⟨w, i, o, rfl, hholds, ht⟩
  · refine ⟨by rw [ht]; exact hs.length, fun i e he => ?_, claimed⟩
    exact kept i e (fun w o ho => absurd ho (hns w o)) (ht ▸ he)
  · obtain ⟨hlt, hfree⟩ := findIdx?_some hi
    refine ⟨by rw [ht, List.length_modify]; exact hs.length, fun j e he => ?_, claimed⟩
    rw [ht] at he
    by_cases hj : j = i
    · subst j
      rw [getElem?_modify_self hlt] at he
      obtain rfl := Option.some.inj he
      obtain ⟨e₀, he₀, hfree₀⟩ := hs.free_of_free (List.getElem?_eq_getElem hlt) hfree
      exact ⟨e₀, he₀, Or.inr ⟨hfree₀, Or.inr (Or.inr ⟨R.held_mark _, w, hholds⟩)⟩⟩
    · rw [getElem?_modify_ne hj] at he
      exact kept j e (fun v o ho => by cases ho) he
  · refine ⟨by rw [ht, List.length_modify]; exact hs.length, fun j e he => ?_, claimed⟩
    obtain ⟨e₁, he₁, -⟩ := hv.marked w i hholds
    obtain ⟨hlt, -⟩ := List.getElem?_eq_some_iff.mp he₁
    rw [ht] at he
    by_cases hj : j = i
    · subst j
      rw [getElem?_modify_self hlt] at he
      obtain rfl := Option.some.inj he
      obtain ⟨e₀, he₀, hfree₀⟩ := hs.claimed w _ hholds
      refine ⟨e₀, he₀, Or.inr ⟨hfree₀, ?_⟩⟩
      cases hf : R.failed o with
      | true => exact Or.inl ⟨by rw [R.free_settle, hf], o, hf⟩
      | false => exact Or.inr (Or.inl (by rw [R.settled_settle, hf]; rfl))
    · rw [getElem?_modify_ne hj] at he
      refine kept j e (fun v o' ho hv => hj ?_) he
      obtain ⟨rfl, -⟩ : w = v ∧ o = o' := by simpa using ho
      exact Option.some.inj (hv.symm.trans hholds)

end Since
end ClaimTable
end Library
