import Mathlib.Data.Finset.Card
import Mhftp.Library.ClaimTable
import Mhftp.Library.WorkPool

/-! # What the shared table is for

The workers of a `ClaimTable` are a work pool.  The tasks on offer are the free
entries, a worker has taken the entry it holds, and an entry that was free at the
start is done once it is settled.  `simulation` says that the table with its lock,
private copies and whole-table writes does what the pool does, so what the pool
guarantees over its runs holds for the table.
-/

namespace Library
namespace ClaimTable

variable {E O ω : Type} (R : ClaimRules E O) (t₀ : List E)

/-- Where the pool sees a worker. -/
def Phase.presence : Phase E → Presence
  | .left false => .left
  | .left true | .returned true => .failed
  | .dead _ => .dead
  | _ => .active

/-- The free entries of a table. -/
def offered (t : List E) : Finset Nat :=
  (Finset.range t₀.length).filter fun i => (t[i]?).any R.free = true

/-- The settled entries among those that were free at the start. -/
def done (t : List E) : Finset Nat :=
  (Finset.range t₀.length).filter fun i =>
    (t₀[i]?).any R.free = true ∧ (t[i]?).any R.settled = true

/-- The table seen as a pool. -/
def poolView (s : State E ω) : Pool Nat ω where
  offered := offered R t₀ s.table
  taken := fun w => (s.phase w).holds
  done := done R t₀ s.table
  presence := fun w => (s.phase w).presence

variable [DecidableEq ω]

/-- What an action of a worker is to the pool. -/
def poolLabel (s : State E ω) : Act E O ω → Option (Pool.Act Nat ω)
  | .claim w =>
    match s.phase w with
    | .loaded t => (t.findIdx? R.free).map (.claim w)
    | _ => none
  | .giveUp w => some (.leave w)
  | .quit w => some (.quit w)
  | .settle w o =>
    (s.phase w).holds.map fun i => if R.failed o then .fail w i else .complete w i
  | .die w => (s.phase w).holds.map (.die w)
  | _ => none

section Tables
variable {R} {t₀} {t : List E} {i j : Nat} {e : E} {f : E → E}

theorem any_modify {p : E → Bool} (he : t[i]? = some e) :
    ((t.modify i f)[j]?).any p = if j = i then p (f e) else (t[j]?).any p := by
  obtain ⟨hi, rfl⟩ := List.getElem?_eq_some_iff.mp he
  by_cases hj : j = i
  · subst j; rw [getElem?_modify_self hi, if_pos rfl]; rfl
  · rw [getElem?_modify_ne hj, if_neg hj]

theorem mem_offered : i ∈ offered R t₀ t ↔ i < t₀.length ∧ (t[i]?).any R.free = true := by
  simp [offered]

theorem mem_done : i ∈ done R t₀ t ↔
    i < t₀.length ∧ (t₀[i]?).any R.free = true ∧ (t[i]?).any R.settled = true := by
  simp [done]

theorem offered_modify_of_not_free (he : t[i]? = some e) (hi : i < t₀.length)
    (hf : R.free (f e) = false) :
    offered R t₀ (t.modify i f) = (offered R t₀ t).erase i := by
  ext j
  rw [Finset.mem_erase, mem_offered, mem_offered, any_modify he]
  by_cases hj : j = i <;> simp [hj, hf, hi]

theorem offered_modify_of_free (he : t[i]? = some e) (hi : i < t₀.length)
    (hf : R.free (f e) = true) :
    offered R t₀ (t.modify i f) = insert i (offered R t₀ t) := by
  ext j
  rw [Finset.mem_insert, mem_offered, mem_offered, any_modify he]
  by_cases hj : j = i <;> simp [hj, hf, hi]

theorem done_modify_of_not_settled (he : t[i]? = some e) (hnot : R.settled e = false)
    (hf : R.settled (f e) = false) : done R t₀ (t.modify i f) = done R t₀ t := by
  ext j
  rw [mem_done, mem_done, any_modify he]
  by_cases hj : j = i <;> simp [hj, hf, he, hnot]

theorem done_modify_of_settled {e₀ : E} (he : t[i]? = some e) (he₀ : t₀[i]? = some e₀)
    (hfree : R.free e₀ = true) (hf : R.settled (f e) = true) :
    done R t₀ (t.modify i f) = insert i (done R t₀ t) := by
  obtain ⟨hi, -⟩ := List.getElem?_eq_some_iff.mp he₀
  ext j
  rw [Finset.mem_insert, mem_done, mem_done, any_modify he]
  by_cases hj : j = i
  · subst j; rw [if_pos rfl, he₀, Option.any_some]; simp [hi, hfree, hf]
  · simp [hj]

end Tables

variable {R} {t₀}
section Simulation
variable {s s' : State E ω}

/-- The view after a step of `w`: the tables as they are now, and one worker moved. -/
theorem poolView_update {t : List E} {l : Option ω} {w : ω} {x : Phase E} :
    poolView R t₀ ⟨t, l, update s.phase w x⟩ =
      { offered := offered R t₀ t
        taken := update (fun v => (s.phase v).holds) w x.holds
        done := done R t₀ t
        presence := update (fun v => (s.phase v).presence) w x.presence } := by
  simp only [poolView, comp_update (fun p : Phase E => p.holds),
    comp_update (fun p : Phase E => p.presence)]

/-- A step that the pool does not see. -/
theorem poolView_silent {l : Option ω} {w : ω} {x : Phase E}
    (hholds : (s.phase w).holds = x.holds) (hpresence : (s.phase w).presence = x.presence) :
    poolView R t₀ ⟨s.table, l, update s.phase w x⟩ = poolView R t₀ s := by
  rw [poolView_update, update_eq_of_eq (f := fun v => (s.phase v).holds) hholds,
    update_eq_of_eq (f := fun v => (s.phase v).presence) hpresence]
  rfl

omit [DecidableEq ω] in
theorem settled_of_held {e : E} (h : R.held e = true) : R.settled e = false := by
  refine Bool.eq_false_iff.mpr fun hs => ?_
  rw [R.held_of_settled e hs] at h
  cases h

omit [DecidableEq ω] in
theorem settled_of_free {e : E} (h : R.free e = true) : R.settled e = false := by
  refine Bool.eq_false_iff.mpr fun hs => ?_
  rw [R.free_of_settled e hs] at h
  cases h

/-- **Each step of the table is a step of the pool**, or the pool does not see it. -/
theorem poolView_step {a : Act E O ω} (hv : Valid R s) (hs : Since R t₀ s) (ha : Harmless s a)
    (h : (machine R).step s a = some s') :
    Pool.machine.Follows (poolView R t₀ s) (poolView R t₀ s') (poolLabel R s a) := by
  cases step_cases h with
  | @start w hw | @lockClaim w _ hw | @lockSettle w _ _ hw | @loadClaim w hw | @loadSettle w _ hw
  | @releaseClaim w _ hw =>
    exact poolView_silent (by rw [hw]; rfl) (by rw [hw]; rfl)
  | @releaseSettle w f hw =>
    cases f <;> exact poolView_silent (by rw [hw]; rfl) (by rw [hw]; rfl)
  | overwrite =>
    rw [show _ = s.table from ha]; rfl
  | @claim w t i hw ht =>
    -- the copy that the worker has looked through is the table
    obtain rfl := hv.fresh w t (by rw [hw]; rfl)
    obtain ⟨hi, hfree⟩ := findIdx?_some ht
    have he := List.getElem?_eq_getElem hi
    have hi₀ : i < t₀.length := hs.length ▸ hi
    simp only [poolLabel, hw, ht, Option.map_some]
    have hguard : (poolView R t₀ s).presence w = .active ∧ (poolView R t₀ s).taken w = none ∧
        i ∈ (poolView R t₀ s).offered := by
      refine ⟨?_, ?_, mem_offered.mpr ⟨hi₀, ?_⟩⟩
      · exact congrArg Phase.presence hw
      · exact congrArg Phase.holds hw
      · rw [he]; exact hfree
    refine (if_pos hguard : Pool.machine.step _ (.claim w i) = _).trans (congrArg some ?_)
    have hheld := R.held_mark s.table[i]
    rw [poolView_update, offered_modify_of_not_free he hi₀ (R.free_of_held _ hheld),
      done_modify_of_not_settled he (settled_of_free hfree) (settled_of_held hheld),
      update_eq_of_eq (f := fun v => (s.phase v).presence) (by rw [hw]; rfl)]
    rfl
  | @giveUp w t hw ht =>
    obtain rfl := hv.fresh w t (by rw [hw]; rfl)
    have hguard : (poolView R t₀ s).presence w = .active ∧ (poolView R t₀ s).taken w = none ∧
        (poolView R t₀ s).offered = ∅ := by
      refine ⟨?_, ?_, Finset.eq_empty_iff_forall_notMem.mpr fun i hi => ?_⟩
      · exact congrArg Phase.presence hw
      · exact congrArg Phase.holds hw
      · obtain ⟨-, hany⟩ := mem_offered.mp hi
        obtain ⟨e, he, hfree⟩ := (Option.any_eq_true _ _).mp hany
        rw [List.findIdx?_eq_none_iff.mp ht e (List.mem_of_getElem? he)] at hfree
        cases hfree
    refine (if_pos hguard : Pool.machine.step _ (.leave w) = _).trans (congrArg some ?_)
    rw [poolView_update, update_eq_of_eq (f := fun v => (s.phase v).holds) (by rw [hw]; rfl)]
    rfl
  | @quit w hw =>
    have hguard : (poolView R t₀ s).presence w = .active ∧ (poolView R t₀ s).taken w = none := by
      constructor
      · exact congrArg Phase.presence hw
      · exact congrArg Phase.holds hw
    refine (if_pos hguard : Pool.machine.step _ (.quit w) = _).trans (congrArg some ?_)
    rw [poolView_update, update_eq_of_eq (f := fun v => (s.phase v).holds) (by rw [hw]; rfl)]
    rfl
  | @settle w i t o hw =>
    obtain rfl := hv.fresh w t (by rw [hw]; rfl)
    have hholds : (s.phase w).holds = some i := by rw [hw]; rfl
    obtain ⟨e, he, hheld⟩ := hv.marked w i hholds
    obtain ⟨e₀, he₀, hfree₀⟩ := hs.claimed w i hholds
    have hi₀ : i < t₀.length := (List.getElem?_eq_some_iff.mp he₀).1
    have hguard : (poolView R t₀ s).presence w = .active ∧
        (poolView R t₀ s).taken w = some i :=
      ⟨congrArg Phase.presence hw, hholds⟩
    have hoff : i ∉ offered R t₀ s.table := by
      rw [mem_offered, he]
      simp [R.free_of_held e hheld]
    simp only [poolLabel, hholds, Option.map_some]
    cases ho : R.failed o with
    | true =>
      rw [if_pos rfl]
      refine (if_pos hguard : Pool.machine.step _ (.fail w i) = _).trans (congrArg some ?_)
      rw [poolView_update, offered_modify_of_free he hi₀ (by rw [R.free_settle, ho]),
        done_modify_of_not_settled he (settled_of_held hheld) (by rw [R.settled_settle, ho]; rfl)]
      rfl
    | false =>
      rw [if_neg (by decide)]
      refine (if_pos hguard : Pool.machine.step _ (.complete w i) = _).trans (congrArg some ?_)
      rw [poolView_update, offered_modify_of_not_free he hi₀ (by rw [R.free_settle, ho]),
        Finset.erase_eq_of_notMem hoff,
        done_modify_of_settled he he₀ hfree₀ (by rw [R.settled_settle, ho]; rfl),
        update_eq_of_eq (f := fun v => (s.phase v).presence) (by rw [hw]; rfl)]
      rfl
  | @die w i hw =>
    have hholds : (s.phase w).holds = some i := by rw [hw]; rfl
    have hguard : (poolView R t₀ s).presence w = .active ∧
        (poolView R t₀ s).taken w = some i :=
      ⟨congrArg Phase.presence hw, hholds⟩
    simp only [poolLabel, hholds, Option.map_some]
    refine (if_pos hguard : Pool.machine.step _ (.die w i) = _).trans (congrArg some ?_)
    rw [poolView_update, update_eq_of_eq (f := fun v => (s.phase v).holds) (by rw [hw]; rfl)]
    rfl

variable (R t₀)

/-- The table with its workers simulates the pool, as long as the writer outside the
lock is harmless. -/
def simulation : Machine.Simulation (machine R : Machine (State E ω) (Act E O ω))
    (Pool.machine : Machine (Pool Nat ω) (Pool.Act Nat ω)) where
  view := poolView R t₀
  inv := fun s => Valid R s ∧ Since R t₀ s
  guard := fun s a _ => Harmless s a
  label := poolLabel R
  preserves := fun _ _ _ h ha hs => ⟨valid_step h.1 ha hs, since_step h.1 h.2 ha hs⟩
  simulates := fun _ _ _ h ha hs => poolView_step h.1 h.2 ha hs

variable {R t₀}

omit [DecidableEq ω] in
theorem fresh_initial : (poolView R t₀ (initial t₀ : State E ω)).Fresh := by
  refine ⟨fun w => rfl, ?_, fun w => rfl⟩
  refine Finset.eq_empty_iff_forall_notMem.mpr fun i hi => ?_
  obtain ⟨-, hfree, hsettled⟩ := mem_done.mp hi
  obtain ⟨e, he, hfree⟩ := (Option.any_eq_true _ _).mp hfree
  rw [show (initial t₀ : State E ω).table = t₀ from rfl, he, Option.any_some,
    settled_of_free hfree] at hsettled
  cases hsettled

end Simulation
end ClaimTable
end Library
