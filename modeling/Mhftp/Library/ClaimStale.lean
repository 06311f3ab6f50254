import Mhftp.Library.ClaimTable

/-! # A stale writer outside the lock

Here the writer outside the lock does harm: it keeps putting back the table `t₀` of
the start, whatever the workers have done since.  Claims and settlements are undone,
a task may be worked on by several workers at once, and still nothing is lost for
good: `t₀` only puts tasks back on offer.  Every free entry of `t₀` is at any time, in
the table and in the private copy of the owner of the lock, on offer, settled, or
marked and held by somebody (`Covered`).  A worker that starts after the last such
write leaves only when nothing is on offer (`Late`), and then everything that was on
offer is or will be settled (`StaleValid.settled_of_late`).
-/

namespace Library
namespace ClaimTable

variable {E O ω : Type} (R : ClaimRules E O) (t₀ : List E)

/-- The writer outside the lock puts back the table of the start, no task fails, and
nobody is told to quit. -/
def Stale : Act E O ω → Prop
  | .overwrite t => t = t₀
  | .settle _ o => R.failed o = false
  | .quit _ => False
  | _ => True

/-- Each task on offer at the start is, according to `t`, on offer, settled, or marked
and held by somebody. -/
structure Covered (s : State E ω) (t : List E) : Prop where
  length : t.length = t₀.length
  entry : ∀ i e e₀, t[i]? = some e → t₀[i]? = some e₀ → R.free e₀ = true →
    R.free e = true ∨ R.settled e = true ∨ R.held e = true ∧ ∃ w, (s.phase w).holds = some i

/-- The lock has one owner, tasks held are tasks of the table, and table and private
copies are covered. -/
structure StaleValid (s : State E ω) : Prop where
  owner : ∀ w, (s.phase w).critical = true ↔ s.lock = some w
  holds : ∀ w i, (s.phase w).holds = some i → i < t₀.length
  table : Covered R t₀ s s.table
  copy : ∀ w t, (s.phase w).copy = some t → Covered R t₀ s t

/-- No entry is on offer. -/
def Exhausted (t : List E) : Prop := ∀ e ∈ t, R.free e = false

variable {R t₀}

theorem covered_self (s : State E ω) : Covered R t₀ s t₀ where
  length := rfl
  entry := fun i e e₀ he he₀ hfree => by
    obtain rfl := Option.some.inj (he.symm.trans he₀)
    exact Or.inl hfree

theorem staleValid_initial : StaleValid R t₀ (initial t₀ : State E ω) where
  owner := fun w => by simp [initial, Phase.critical]
  holds := fun w i h => by cases h
  table := covered_self _
  copy := fun w t h => by cases h

/-- Covering survives a step after which every task is still held that was held. -/
theorem Covered.imp {s s' : State E ω} {t : List E} (h : Covered R t₀ s t)
    (hholds : ∀ w i, (s.phase w).holds = some i → ∃ v, (s'.phase v).holds = some i) :
    Covered R t₀ s' t where
  length := h.length
  entry := fun i e e₀ he he₀ hfree =>
    (h.entry i e e₀ he he₀ hfree).imp_right fun hr =>
      hr.imp_right fun ⟨hheld, w, hw⟩ => ⟨hheld, hholds w i hw⟩

/-- Covering survives a write of entry `i` that leaves it settled, or marked and held,
as long as the other tasks are held as before. -/
theorem Covered.modify {s s' : State E ω} {t : List E} {i : Nat} {f : E → E}
    (h : Covered R t₀ s t)
    (hholds : ∀ w j, j ≠ i → (s.phase w).holds = some j → ∃ v, (s'.phase v).holds = some j)
    (hf : ∀ e, R.settled (f e) = true ∨ R.held (f e) = true ∧ ∃ w, (s'.phase w).holds = some i) :
    Covered R t₀ s' (t.modify i f) where
  length := by rw [List.length_modify, h.length]
  entry := fun j e e₀ he he₀ hfree => by
    by_cases hj : j = i
    · subst j
      have hi : i < t.length := by
        rw [h.length]; exact (List.getElem?_eq_some_iff.mp he₀).1
      rw [getElem?_modify_self hi] at he
      obtain rfl := Option.some.inj he
      exact Or.inr (hf _)
    · rw [getElem?_modify_ne hj] at he
      exact (h.entry j e e₀ he he₀ hfree).imp_right fun hr =>
        hr.imp_right fun ⟨hheld, w, hw⟩ => ⟨hheld, hholds w j hj hw⟩

variable [DecidableEq ω]
section Step
variable {s s' : State E ω} {a : Act E O ω}

/-- After a write by the owner of the lock there is no private copy. -/
theorem copy_none_of_write (hs : Owned s') {w : ω} (hw : (s'.phase w).critical = true)
    (hcopy : (s'.phase w).copy = none) (v : ω) : (s'.phase v).copy = none := by
  by_cases hv : v = w
  · rw [hv, hcopy]
  · exact hs.copy_unique hw hv

/-- **The step lemma.**  Whatever the stale writer undoes, no task is lost. -/
theorem staleValid_step (hs : StaleValid R t₀ s) (ha : Stale R t₀ a)
    (h : (machine R).step s a = some s') : StaleValid R t₀ s' := by
  have howner : Owned s' := owned_step hs.owner h
  have holds : ∀ w i, (s'.phase w).holds = some i → i < t₀.length := by
    intro w i hw
    rcases holds_step h hw with hw | ⟨-, t, ht, hi⟩
    · exact hs.holds w i hw
    · obtain ⟨hlt, -⟩ := findIdx?_some hi
      rw [← (hs.copy w t (by rw [ht]; rfl)).length]
      exact hlt
  rcases table_cases h with ⟨hns, -, ht⟩ | ⟨w, t, i, rfl, hw, hi, hw', ht⟩ |
    ⟨w, t, i, o, rfl, hw, hw', ht⟩ | ⟨t, rfl, ht, hphase⟩
  · -- no write
    have keep : ∀ w i, (s.phase w).holds = some i → ∃ v, (s'.phase v).holds = some i :=
      fun w i hw => ⟨w, (holds_of_step h hw).resolve_right fun ⟨o, ho⟩ => hns w o ho⟩
    refine ⟨howner, holds, ht ▸ hs.table.imp keep, fun w t hc => ?_⟩
    rcases copy_step h hc with hc | rfl
    · exact (hs.copy w t hc).imp keep
    · exact hs.table.imp keep
  · -- a claim marks its entry, and the claimant holds it
    have hcopy := copy_none_of_write howner (w := w) (by rw [hw']; rfl) (by rw [hw']; rfl)
    refine ⟨howner, holds, ?_, fun v t hc => by rw [hcopy v] at hc; cases hc⟩
    rw [ht]
    refine (hs.copy w t (by rw [hw]; rfl)).modify (fun v j _ hv => ⟨v, ?_⟩)
      fun e => Or.inr ⟨R.held_mark e, w, by rw [hw']; rfl⟩
    exact (holds_of_step h hv).resolve_right fun ⟨o, ho⟩ => by cases ho
  · -- the settled entry is the only one that its worker lets go
    have hcopy := copy_none_of_write howner (w := w) (by rw [hw']; rfl) (by rw [hw']; rfl)
    refine ⟨howner, holds, ?_, fun v t hc => by rw [hcopy v] at hc; cases hc⟩
    rw [ht]
    refine (hs.copy w t (by rw [hw]; rfl)).modify (fun v j hj hv => ⟨v, ?_⟩)
      fun e => Or.inl (by rw [R.settled_settle, show R.failed o = false from ha]; rfl)
    refine (holds_of_step h hv).resolve_right fun ⟨o', ho⟩ => hj ?_
    obtain ⟨rfl, -⟩ : w = v ∧ o = o' := by simpa using ho
    rw [hw] at hv
    exact (Option.some.inj hv).symm
  · -- the table of the start covers itself, whoever holds what
    obtain rfl : t = t₀ := ha
    have keep : ∀ w i, (s.phase w).holds = some i → ∃ v, (s'.phase v).holds = some i :=
      fun w i hw => ⟨w, by rw [hphase]; exact hw⟩
    refine ⟨howner, holds, ht ▸ covered_self _, fun w u hc => ?_⟩
    rw [hphase] at hc
    exact (hs.copy w u hc).imp keep

end Step

/-! ### What has been claimed -/

variable (R) in
/-- Task `i` is on offer in `t`. -/
def Offers (t : List E) (i : Nat) : Prop := ∃ e, t[i]? = some e ∧ R.free e = true

variable (R t₀) in
/-- An entry is as at the start, or its task was on offer then and is one of `C`; and so are
the tasks that workers hold. -/
structure Accounted (C : Nat → Prop) (s : State E ω) : Prop where
  entries : Entries (fun i e => t₀[i]? = some e ∨ Offers R t₀ i ∧ C i ∧ R.free e = false) s
  holds : ∀ w i, (s.phase w).holds = some i → Offers R t₀ i ∧ C i

omit [DecidableEq ω] in
theorem accounted_initial (C : Nat → Prop) : Accounted R t₀ C (initial t₀ : State E ω) where
  entries := ⟨fun _ _ he => Or.inl he, fun _ _ _ _ hc => by cases hc⟩
  holds := fun _ _ h => by cases h

section Accounted
variable {C : Nat → Prop} {s s' : State E ω} {a : Act E O ω}

omit [DecidableEq ω] in
/-- What is claimed was on offer at the start. -/
theorem Accounted.offers (hs : Accounted R t₀ C s) {w : ω} {t : List E} {i : Nat}
    (hw : s.phase w = .loaded t) (hi : t.findIdx? R.free = some i) : Offers R t₀ i := by
  obtain ⟨hlt, hfree⟩ := findIdx?_some hi
  have he := List.getElem?_eq_getElem hlt
  rcases hs.entries.copy w t i _ (by rw [hw]; rfl) he with hstart | ⟨hoffers, -⟩
  · exact ⟨_, hstart, hfree⟩
  · exact hoffers

/-- It stays so if what is claimed is one of `C`. -/
theorem accounted_step (hs : Accounted R t₀ C s) (ha : Stale R t₀ a)
    (hC : ∀ w t i, a = .claim w → s.phase w = .loaded t → t.findIdx? R.free = some i → C i)
    (h : (machine R).step s a = some s') : Accounted R t₀ C s' where
  entries := by
    refine entries_step hs.entries ?_ ?_ ?_ h
    · intro w t i e hclaim hw hi _ _
      exact Or.inr ⟨hs.offers hw hi, hC w t i hclaim hw hi, R.free_of_held _ (R.held_mark e)⟩
    · rintro w o i e rfl hw _
      obtain ⟨hoffers, hCi⟩ := hs.holds w i hw
      exact Or.inr ⟨hoffers, hCi, by rw [R.free_settle]; exact ha⟩
    · rintro t i e rfl he
      obtain rfl : t = t₀ := ha
      exact Or.inl he
  holds := by
    intro w i hw
    rcases holds_step h hw with hw | ⟨hclaim, t, ht, hi⟩
    · exact hs.holds w i hw
    · exact ⟨hs.offers ht hi, hC w t i hclaim ht hi⟩

end Accounted

/-! ### After the last stale write -/

variable (R) in
/-- From the last stale write on: what worker `z`, who starts after it, has read is what
is there, and once `z` has left nothing is on offer any more. -/
structure Late (z : ω) (s : State E ω) : Prop where
  fresh : ∀ t, (s.phase z).copy = some t → t = s.table
  exhausted : s.phase z = .left false →
    Exhausted R s.table ∧ ∀ w t, (s.phase w).copy = some t → Exhausted R t

section Late
variable {s s' : State E ω} {a : Act E O ω} {z : ω}

/-- A worker that has left did so before, or leaves now and has found nothing. -/
theorem left_step (ha : Stale R t₀ a) (h : (machine R).step s a = some s')
    (hz : s'.phase z = .left false) : s.phase z = .left false ∨
      (∃ t, s.phase z = .loaded t ∧ t.findIdx? R.free = none ∧ s'.table = s.table) := by
  have moved : ∀ (v : ω) (x : Phase E), update s.phase v x z = .left false →
      (z = v ∧ x = .left false) ∨ s.phase z = .left false := by
    intro v x hx
    by_cases he : z = v
    · subst z; rw [update_self] at hx; exact Or.inl ⟨rfl, hx⟩
    · rw [update_of_ne _ _ he] at hx; exact Or.inr hx
  cases step_cases h with
  | @giveUp w t hw ht =>
    rcases moved w _ hz with ⟨rfl, -⟩ | hz
    · exact Or.inr ⟨t, hw, ht, rfl⟩
    · exact Or.inl hz
  | quit => exact absurd ha id
  | overwrite => exact Or.inl hz
  | @releaseSettle w f _ =>
    rcases moved w _ hz with ⟨-, hx⟩ | hz
    · cases f <;> cases hx
    · exact Or.inl hz
  | @start w _ | @lockClaim w _ _ | @lockSettle w _ _ _ | @claim w _ _ _ _ | @loadClaim w _
  | @loadSettle w _ _ | @releaseClaim w _ _ | @settle w _ _ _ _ | @die w _ _ =>
    rcases moved w _ hz with ⟨-, hx⟩ | hz
    · cases hx
    · exact Or.inl hz

/-- Marking or settling an entry puts nothing on offer. -/
theorem Exhausted.modify {t : List E} (h : Exhausted R t) (i : Nat) {f : E → E}
    (hf : ∀ e, R.free (f e) = false) : Exhausted R (t.modify i f) := by
  intro e he
  obtain ⟨j, hj⟩ := List.getElem?_of_mem he
  rw [List.getElem?_modify] at hj
  obtain ⟨e', he', rfl⟩ := Option.map_eq_some_iff.mp hj
  by_cases hij : i = j
  · rw [if_pos hij]; exact hf e'
  · rw [if_neg hij]; exact h e' (List.mem_of_getElem? he')

theorem late_step (hs : Owned s) (hz : Late R z s) (ha : Stale R t₀ a)
    (hno : ∀ t, a ≠ .overwrite t) (h : (machine R).step s a = some s') : Late R z s' := by
  have howner : Owned s' := owned_step hs h
  constructor
  · intro t hc
    rcases table_cases h with ⟨-, -, ht⟩ | ⟨w, u, i, rfl, -, -, hw', -⟩ |
      ⟨w, u, i, o, rfl, -, hw', -⟩ | ⟨u, rfl, -⟩
    · rw [ht]
      rcases copy_step h hc with hc | rfl
      · exact hz.fresh t hc
      · rfl
    · rw [copy_none_of_write howner (w := w) (by rw [hw']; rfl) (by rw [hw']; rfl) z] at hc
      cases hc
    · rw [copy_none_of_write howner (w := w) (by rw [hw']; rfl) (by rw [hw']; rfl) z] at hc
      cases hc
    · exact absurd rfl (hno u)
  · intro hleft
    rcases left_step ha h hleft with hleft | ⟨t, ht, hnone, htable⟩
    · obtain ⟨htab, hcopies⟩ := hz.exhausted hleft
      have htab' : Exhausted R s'.table := by
        rcases table_cases h with ⟨-, -, ht⟩ | ⟨w, t, i, rfl, hw, -, -, ht⟩ |
          ⟨w, t, i, o, rfl, hw, -, ht⟩ | ⟨t, rfl, -⟩
        · rw [ht]; exact htab
        · rw [ht]
          exact (hcopies w t (by rw [hw]; rfl)).modify i
            fun e => R.free_of_held _ (R.held_mark e)
        · rw [ht]
          exact (hcopies w t (by rw [hw]; rfl)).modify i fun e => by rw [R.free_settle]; exact ha
        · exact absurd rfl (hno t)
      refine ⟨htab', fun w t hc => ?_⟩
      rcases copy_step h hc with hc | rfl
      · exact hcopies w t hc
      · exact htab
    · -- `z` leaves now: it owns the lock, so its copy is the only one
      have hcopy : (s.phase z).copy = some t := by rw [ht]; rfl
      obtain rfl := hz.fresh t hcopy
      have htab : Exhausted R s.table := fun e he => by
        simpa using List.findIdx?_eq_none_iff.mp hnone e he
      refine ⟨htable ▸ htab, fun w t hc => ?_⟩
      rcases copy_step h hc with hc | rfl
      · obtain rfl := hs.eq_of_critical (Phase.critical_of_copy hc) (Phase.critical_of_copy hcopy)
        rw [hcopy] at hc
        exact Option.some.inj hc ▸ htab
      · exact htab

end Late

omit [DecidableEq ω] in
/-- A worker that has not started has read nothing and has not left. -/
theorem late_of_absent {s : State E ω} {z : ω} (hz : s.phase z = .absent) : Late R z s where
  fresh := fun t hc => by rw [hz] at hc; cases hc
  exhausted := fun h => by rw [hz] at h; cases h

omit [DecidableEq ω] in
/-- **Nothing is lost for good.**  Once everybody is gone, with a worker among them that
started after the last stale write, every task on offer at the start is settled. -/
theorem StaleValid.settled_of_late {s : State E ω} {z : ω} (hs : StaleValid R t₀ s)
    (hlate : Late R z s) (hz : s.phase z = .left false)
    (hgone : ∀ w, (s.phase w).holds = none) {i : Nat} {e₀ : E} (he₀ : t₀[i]? = some e₀)
    (hfree : R.free e₀ = true) : ∃ e, s.table[i]? = some e ∧ R.settled e = true := by
  have hi : i < s.table.length := by
    rw [hs.table.length]; exact (List.getElem?_eq_some_iff.mp he₀).1
  have he := List.getElem?_eq_getElem hi
  refine ⟨_, he, ?_⟩
  rcases hs.table.entry i _ e₀ he he₀ hfree with h | h | ⟨-, w, hw⟩
  · have hnot := (hlate.exhausted hz).1 _ (List.getElem_mem hi)
    rw [hnot] at h
    cases h
  · exact h
  · rw [hgone w] at hw
    cases hw

/-! ### How much is on offer -/

/-- The number of tasks on offer. -/
def onOffer (R : ClaimRules E O) (t : List E) : Nat := t.countP R.free

/-- The writer outside the lock puts back the table of the start, and no task fails. -/
def Restores (R : ClaimRules E O) (t₀ : List E) : Act E O ω → Prop
  | .overwrite t => t = t₀
  | .settle _ o => R.failed o = false
  | _ => True

def Act.claims : Act E O ω → Bool
  | .claim _ => true
  | _ => false

omit [DecidableEq ω] in
/-- A write of an entry that is not on offer afterwards. -/
theorem onOffer_modify (t : List E) (i : Nat) {f : E → E} (hf : ∀ e, R.free (f e) = false) :
    onOffer R (t.modify i f) + (if t[i]?.any R.free then 1 else 0) = onOffer R t := by
  unfold onOffer
  induction t generalizing i with
  | nil => simp
  | cons e t ih =>
    cases i with
    | zero => simp [List.countP_cons, hf]
    | succ i =>
      rw [List.modify_succ_cons, List.countP_cons, List.countP_cons, ← ih i,
        List.getElem?_cons_succ]
      omega

variable (R t₀) in
/-- No private copy offers more than the table, and the table no more than at the start. -/
structure Waning (s : State E ω) : Prop where
  owner : Owned s
  table : onOffer R s.table ≤ onOffer R t₀
  copy : ∀ w t, (s.phase w).copy = some t → onOffer R t ≤ onOffer R s.table

omit [DecidableEq ω] in
theorem waning_initial : Waning R t₀ (initial t₀ : State E ω) where
  owner := fun w => by simp [initial, Phase.critical]
  table := le_rfl
  copy := fun w t h => by cases h

/-- **Each claim takes one task off**, and only the writer outside the lock puts tasks back. -/
theorem waning_step {s s' : State E ω} {a : Act E O ω} (hs : Waning R t₀ s)
    (ha : Restores R t₀ a) (h : (machine R).step s a = some s') :
    Waning R t₀ s' ∧ ((∀ t, a ≠ .overwrite t) →
      onOffer R s'.table + (if a.claims then 1 else 0) ≤ onOffer R s.table) := by
  have howner : Owned s' := owned_step hs.owner h
  -- a claim marks an entry of its copy that was on offer there
  have hmark : ∀ {w t i}, s.phase w = .loaded t → t.findIdx? R.free = some i →
      onOffer R (t.modify i R.mark) + 1 ≤ onOffer R s.table := by
    intro w t i hw hi
    obtain ⟨hlt, hfree⟩ := findIdx?_some hi
    have hmodify := onOffer_modify t i fun e => R.free_of_held _ (R.held_mark e)
    rw [List.getElem?_eq_getElem hlt, Option.any_some, hfree, if_pos rfl] at hmodify
    exact hmodify.trans_le (hs.copy w t (by rw [hw]; rfl))
  rcases table_cases h with ⟨-, -, ht⟩ | ⟨w, t, i, rfl, hw, hi, hw', ht⟩ |
    ⟨w, t, i, o, rfl, hw, hw', ht⟩ | ⟨t, rfl, ht, hphase⟩
  · -- no write
    refine ⟨⟨howner, ht ▸ hs.table, fun w t hc => ?_⟩, fun _ => ?_⟩
    · rw [ht]
      rcases copy_step h hc with hc | rfl
      · exact hs.copy w t hc
      · exact le_rfl
    · cases step_cases h with
      | claim hw hi => exact hmark hw hi
      | _ => exact ht ▸ le_rfl
  · have hcopy := copy_none_of_write howner (w := w) (by rw [hw']; rfl) (by rw [hw']; rfl)
    have hle := hmark hw hi
    rw [← ht] at hle
    have htable := hs.table
    exact ⟨⟨howner, by omega, fun v u hc => by rw [hcopy v] at hc; cases hc⟩, fun _ => hle⟩
  · -- a settled entry is not on offer
    have hcopy := copy_none_of_write howner (w := w) (by rw [hw']; rfl) (by rw [hw']; rfl)
    have hmodify := onOffer_modify t i (f := R.settle o) fun e => by rw [R.free_settle]; exact ha
    have hle := hs.copy w t (by rw [hw]; rfl)
    rw [← ht] at hmodify
    have htable := hs.table
    refine ⟨⟨howner, by omega, fun v u hc => by rw [hcopy v] at hc; cases hc⟩, fun _ => ?_⟩
    show _ + 0 ≤ _
    omega
  · obtain rfl : t = t₀ := ha
    refine ⟨⟨howner, ht ▸ le_rfl, fun w u hc => ?_⟩, fun hno => absurd rfl (hno t)⟩
    rw [hphase] at hc
    rw [ht]
    exact (hs.copy w u hc).trans hs.table

/-! ### Workers that are told to quit -/

section Quit
variable {s s' : State E ω} {a : Act E O ω}

/-- A worker that quits has no task and no copy. -/
theorem quit_step {w : ω} (h : (machine R).step s (.quit w) = some s') : s'.table = s.table ∧
    (∀ v, (s'.phase v).holds = (s.phase v).holds) ∧
      ∀ v, (s'.phase v).copy = (s.phase v).copy := by
  cases step_cases h with
  | quit hw =>
    refine ⟨rfl, ?_, ?_⟩
    · exact apply_update_of_eq (g := Phase.holds) (by rw [hw]; rfl)
    · exact apply_update_of_eq (g := Phase.copy) (by rw [hw]; rfl)

omit [DecidableEq ω] in
theorem stale_of_restores (ha : Restores R t₀ a) (hno : ∀ w, a ≠ .quit w) : Stale R t₀ a := by
  cases a with
  | quit w => exact absurd rfl (hno w)
  | overwrite | settle => exact ha
  | _ => trivial

/-- No task is lost either where workers quit. -/
theorem staleValid_restores (hs : StaleValid R t₀ s) (ha : Restores R t₀ a)
    (h : (machine R).step s a = some s') : StaleValid R t₀ s' := by
  by_cases hquit : ∃ w, a = .quit w
  · obtain ⟨w, rfl⟩ := hquit
    obtain ⟨htable, hholds, hcopy⟩ := quit_step h
    have keep : ∀ v i, (s.phase v).holds = some i → ∃ u, (s'.phase u).holds = some i :=
      fun v i hv => ⟨v, (hholds v).trans hv⟩
    refine ⟨owned_step hs.owner h, fun v i hv => hs.holds v i ((hholds v).symm.trans hv),
      htable ▸ hs.table.imp keep, fun v t hc => ?_⟩
    exact (hs.copy v t ((hcopy v).symm.trans hc)).imp keep
  · exact staleValid_step hs (stale_of_restores ha fun w hw => hquit ⟨w, hw⟩) h

theorem accounted_restores {C : Nat → Prop} (hs : Accounted R t₀ C s) (ha : Restores R t₀ a)
    (hC : ∀ w t i, a = .claim w → s.phase w = .loaded t → t.findIdx? R.free = some i → C i)
    (h : (machine R).step s a = some s') : Accounted R t₀ C s' := by
  by_cases hquit : ∃ w, a = .quit w
  · obtain ⟨w, rfl⟩ := hquit
    obtain ⟨htable, hholds, hcopy⟩ := quit_step h
    refine ⟨⟨fun i e he => hs.entries.table i e (htable ▸ he), fun v t i e hc he => ?_⟩,
      fun v i hv => hs.holds v i ((hholds v).symm.trans hv)⟩
    exact hs.entries.copy v t i e ((hcopy v).symm.trans hc) he
  · exact accounted_step hs (stale_of_restores ha fun w hw => hquit ⟨w, hw⟩) hC h

end Quit

end ClaimTable
end Library
