import Mhftp.Library.Machine

/-! # Components over a shared store

A `Component` takes steps that see and change a store and a state of its own.  Any number of
them over one store, in any order, are a `Machine` (`Component.machine`).

* `Contract`: an invariant that is split between the store and the components.  A step of one
  component keeps its own part and that of the store, and what it does to the store none of the
  other parts notices; that is enough for whole runs (`Contract.run`).
* `Footprint`: which places of the store the steps of a component see and write.  Components
  that do not write what other ones see do what each of them does by itself (`run_apart`).
-/

namespace Library

/-- What takes steps on a store. -/
structure Component (G L A : Type) where
  step : G → L → A → Option (G × L)

namespace Component
variable {G L A ι : Type} [DecidableEq ι]

/-- A store and the components over it. -/
structure System (G L ι : Type) where
  store : G
  own : ι → L

/-- Component `i` takes a step. -/
def systemStep (c : Component G L A) (s : System G L ι) (a : ι × A) : Option (System G L ι) :=
  (c.step s.store (s.own a.1) a.2).map fun r => ⟨r.1, update s.own a.1 r.2⟩

/-- The components in any order. -/
def machine (c : Component G L A) : Machine (System G L ι) (ι × A) := ⟨c.systemStep⟩

variable {c : Component G L A} {s s' : System G L ι} {i : ι} {a : A}

theorem step_cases (h : c.machine.step s (i, a) = some s') :
    ∃ store own, c.step s.store (s.own i) a = some (store, own) ∧
      s' = ⟨store, update s.own i own⟩ := by
  obtain ⟨r, hr, rfl⟩ := Option.map_eq_some_iff.mp h
  exact ⟨r.1, r.2, hr, rfl⟩

/-! ### Contracts -/

/-- An invariant of a store and the components over it.  `admits` says which steps count, by
the store and the state of the component before and after them. -/
structure Contract (c : Component G L A) where
  shared : G → Prop
  own : G → L → Prop
  leaves : G → G → Prop
  admits : G → L → A → G → L → Prop
  keeps : ∀ g l a g' l', shared g → own g l → admits g l a g' l' → c.step g l a = some (g', l') →
    shared g' ∧ own g' l' ∧ leaves g g'
  stable : ∀ g g' l, own g l → shared g' → leaves g g' → own g' l

namespace Contract
variable (k : Contract c)

/-- What holds of the store and of all components. -/
structure Holds (s : System G L ι) : Prop where
  shared : k.shared s.store
  own : ∀ i, k.own s.store (s.own i)

/-- The step counts. -/
def Admits (s : System G L ι) (a : ι × A) (s' : System G L ι) : Prop :=
  k.admits s.store (s.own a.1) a.2 s'.store (s'.own a.1)

variable {k}

theorem holds_step {b : ι × A} (hs : k.Holds s) (ha : k.Admits s b s')
    (h : c.machine.step s b = some s') : k.Holds s' := by
  obtain ⟨i, a⟩ := b
  obtain ⟨g, l, hstep, rfl⟩ := step_cases h
  replace ha : k.admits s.store (s.own i) a g (update s.own i l i) := ha
  rw [update_self] at ha
  obtain ⟨hshared, hown, hleaves⟩ := k.keeps _ _ _ _ _ hs.shared (hs.own i) ha hstep
  refine ⟨hshared, fun j => ?_⟩
  show k.own g (update s.own i l j)
  by_cases hj : j = i
  · subst j
    rw [update_self]
    exact hown
  · -- the other components do not notice
    rw [update_of_ne _ _ hj]
    exact k.stable _ _ _ (hs.own j) hshared hleaves

/-- **The contract holds along every run** of steps that count. -/
theorem run {as : List (ι × A)} (hs : k.Holds s) (ha : c.machine.Along k.Admits s as)
    (hr : c.machine.run s as = some s') : k.Holds s' :=
  Machine.run_invariant (fun _ _ _ => holds_step) hs ha hr

end Contract

/-! ### Components apart -/

/-- The component by itself. -/
def alone (c : Component G L A) : Machine (G × L) A := ⟨fun s => c.step s.1 s.2⟩

/-- The steps of component `i`. -/
def actsOf (i : ι) (as : List (ι × A)) : List A :=
  as.filterMap fun b => if b.1 = i then some b.2 else none

theorem actsOf_cons_self (as : List (ι × A)) : actsOf i ((i, a) :: as) = a :: actsOf i as := by
  simp [actsOf]

theorem actsOf_cons_of_ne {j : ι} (h : j ≠ i) (as : List (ι × A)) :
    actsOf i ((j, a) :: as) = actsOf i as := by
  simp [actsOf, h]

theorem mem_of_mem_actsOf {as : List (ι × A)} (h : a ∈ actsOf i as) : (i, a) ∈ as := by
  obtain ⟨⟨j, b⟩, hb, hsome⟩ := List.mem_filterMap.mp h
  by_cases hj : j = i
  · rw [if_pos hj] at hsome
    obtain rfl := Option.some.inj hsome
    exact hj ▸ hb
  · rw [if_neg hj] at hsome
    cases hsome

section Apart
variable {K X : Type}

/-- What the steps of a component look at in a store of many places, and what they write. -/
structure Footprint (c : Component (K → X) L A) where
  sees : L → A → K → Prop
  writes : L → A → K → Prop
  same : ∀ g h l a g' l', (∀ k, sees l a k → g k = h k) → c.step g l a = some (g', l') →
    ∃ h', c.step h l a = some (h', l') ∧ ∀ k, g k = h k → g' k = h' k
  unchanged : ∀ g l a g' l', c.step g l a = some (g', l') → ∀ k, ¬ writes l a k → g' k = g k

variable {c : Component (K → X) L A} (f : Footprint c)

/-- The component stays in its part of the store. -/
def Footprint.Within (V W : K → Prop) (s : (K → X) × L) (a : A) (_ : (K → X) × L) : Prop :=
  (∀ k, f.sees s.2 a k → V k) ∧ ∀ k, f.writes s.2 a k → W k

variable {f} {V W : ι → K → Prop} {s : System (K → X) L ι} {as : List (ι × A)}

/-- **Components apart do not notice each other.**  If each of them by itself sees no place but
those of `V i` and writes none but those of `W i`, and no other one writes to `V i`, then in
every interleaving each of them does what it does by itself. -/
theorem run_apart (hapart : ∀ i j, i ≠ j → ∀ k, V i k → ¬ W j k) {h : ι → K → X}
    {r : ι → (K → X) × L} (hagree : ∀ i k, V i k → h i k = s.store k)
    (hwithin : ∀ i, c.alone.Along (f.Within (V i) (W i)) (h i, s.own i) (actsOf i as))
    (hruns : ∀ i, c.alone.run (h i, s.own i) (actsOf i as) = some (r i)) :
    ∃ s', c.machine.run s as = some s' ∧
      (∀ i, s'.own i = (r i).2 ∧ ∀ k, V i k → (r i).1 k = s'.store k) ∧
      ∀ k, (∀ i, ¬ W i k) → s'.store k = s.store k := by
  induction as generalizing s h with
  | nil =>
    refine ⟨s, rfl, fun i => ?_, fun k _ => rfl⟩
    obtain hr : (h i, s.own i) = r i := Option.some.inj (hruns i)
    rw [← hr]
    exact ⟨rfl, hagree i⟩
  | cons b as ih =>
    obtain ⟨j, a⟩ := b
    have hwithinj := hwithin j
    have hrunj := hruns j
    rw [actsOf_cons_self] at hwithinj hrunj
    obtain ⟨⟨h', l'⟩, hstep, -⟩ := Machine.run_cons hrunj
    obtain ⟨⟨hsees, hwrites⟩, hrest⟩ := hwithinj _ hstep
    obtain ⟨g', hstep', hsame⟩ := f.same _ s.store _ _ _ _
      (fun k hk => hagree j k (hsees k hk)) hstep
    have hothers : ∀ k, ¬ W j k → g' k = s.store k :=
      fun k hk => f.unchanged _ _ _ _ _ hstep' k (mt (hwrites k) hk)
    let t : System (K → X) L ι := ⟨g', update s.own j l'⟩
    have ht : c.machine.step s (j, a) = some t := by
      show (c.step s.store (s.own j) a).map _ = _
      rw [hstep']
      rfl
    -- by itself component `j` has made its step, and the other ones are where they were
    have hstart : ∀ i, (update h j h' i, t.own i) = if i = j then (h', l') else (h i, s.own i) := by
      intro i
      by_cases hi : i = j
      · rw [hi, if_pos rfl, update_self]
        exact congrArg _ (update_self _ _ _)
      · rw [if_neg hi, update_of_ne _ _ hi]
        exact congrArg _ (update_of_ne _ _ hi)
    have hagree' : ∀ i k, V i k → update h j h' i k = t.store k := by
      intro i k hk
      by_cases hi : i = j
      · rw [hi, update_self]
        exact hsame k (hagree j k (hi ▸ hk))
      · rw [update_of_ne _ _ hi]
        exact (hagree i k hk).trans (hothers k (hapart i j hi k hk)).symm
    have hwithin' : ∀ i, c.alone.Along (f.Within (V i) (W i)) (update h j h' i, t.own i)
        (actsOf i as) := by
      intro i
      rw [hstart]
      by_cases hi : i = j
      · rw [if_pos hi, hi]
        exact hrest
      · have hi' := hwithin i
        rw [actsOf_cons_of_ne (Ne.symm hi)] at hi'
        rwa [if_neg hi]
    have hruns' : ∀ i, c.alone.run (update h j h' i, t.own i) (actsOf i as) = some (r i) := by
      intro i
      rw [hstart]
      by_cases hi : i = j
      · rw [if_pos hi, hi, ← hrunj, Machine.run_cons_of_step hstep]
      · have hi' := hruns i
        rw [actsOf_cons_of_ne (Ne.symm hi)] at hi'
        rwa [if_neg hi]
    obtain ⟨s', hrun, hown, hstore⟩ := ih hagree' hwithin' hruns'
    refine ⟨s', (Machine.run_cons_of_step ht as).trans hrun, hown, fun k hk => ?_⟩
    exact (hstore k hk).trans (hothers k (hk j))

end Apart
end Component
end Library
