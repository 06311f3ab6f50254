import Mathlib.Algebra.Group.Int.Defs
import Mathlib.Data.List.Basic
import Mhftp.Library.Machine

/-! # Loops over an int

`for (int i = 0 ; i < n ; i++)`, where `n` may be larger than an int: the turns go on with a
state, a turn may leave the loop with a result, and the loop is undefined once `i` is the
largest int and is counted on.

`intLoop_spec` is the invariant rule for loops with a bound that is an int, and
`intLoop_modify` is about those that change an entry of a table in each turn.
-/

namespace Library

/-- How a loop ends. -/
inductive LoopEnd (σ ρ : Type)
  | done (s : σ)
  | returned (r : ρ)
  | overflow (s : σ)
  deriving DecidableEq

variable {σ ρ : Type}

/-- The loop, from the turn of `i` on. -/
def intLoop (n : Int) (body : Int → σ → Except ρ σ) (i : Int) (s : σ) : LoopEnd σ ρ :=
  if i < n then
    match body i s with
    | .error r => .returned r
    | .ok s => if i + 1 < 2 ^ 31 then intLoop n body (i + 1) s else .overflow s
  else .done s
termination_by (n - i).toNat

/-- **The invariant rule.**  What every turn hands on to the next one holds in the end, and a
turn that leaves the loop does so with a result that it may have. -/
theorem intLoop_spec {n : Nat} (hn : n < 2 ^ 31) (body : Int → σ → Except ρ σ)
    {I : Nat → σ → Prop} {Q : Nat → ρ → Prop}
    (hstep : ∀ i s, i < n → I i s → (∃ s', body i s = .ok s' ∧ I (i + 1) s') ∨
      ∃ r, body i s = .error r ∧ Q i r)
    {i : Nat} (hi : i ≤ n) {s : σ} (hs : I i s) :
    (∃ s', intLoop n body i s = .done s' ∧ I n s') ∨
      ∃ j r, j < n ∧ intLoop n body i s = .returned r ∧ Q j r := by
  obtain ⟨k, hk⟩ : ∃ k, n - i = k := ⟨_, rfl⟩
  -- the turns that are left
  induction k generalizing i s with
  | zero =>
    obtain rfl : i = n := by omega
    rw [intLoop, if_neg (by omega)]
    exact Or.inl ⟨s, rfl, hs⟩
  | succ k ih =>
    rw [intLoop, if_pos (by omega)]
    rcases hstep i s (by omega) hs with ⟨s', hbody, hs'⟩ | ⟨r, hbody, hr⟩
    · rw [hbody]
      dsimp only
      rw [if_pos (by omega)]
      exact ih (i := i + 1) (by omega) hs' (by omega)
    · rw [hbody]
      exact Or.inr ⟨i, r, by omega, rfl, hr⟩

/-! ### Filling a table -/

variable {α : Type} {f : Nat → α → α} {old : Nat → α} {i n : Nat}

theorem modify_map_range (g : α → α) : ((List.range n).map old).modify i g =
    (List.range n).map (update old i (g (old i))) := by
  apply List.ext_getElem?
  intro j
  rw [List.getElem?_modify, List.getElem?_map, List.getElem?_map]
  by_cases hij : i = j
  · subst hij
    cases hr : (List.range n)[i]? with
    | none => rfl
    | some k =>
      obtain ⟨-, rfl⟩ := List.getElem?_eq_some_iff.mp hr
      simp
  · cases hr : (List.range n)[j]? with
    | none => rfl
    | some k =>
      obtain ⟨-, rfl⟩ := List.getElem?_eq_some_iff.mp hr
      simp [hij, update_of_ne _ _ (Ne.symm hij)]

/-- **A loop that fills a table**, entry `i` in turn `i`. -/
theorem intLoop_modify (hn : n < 2 ^ 31) {body : Int → List α → Except ρ (List α)}
    (hbody : ∀ (i : Nat) t, body i t = .ok (t.modify i (f i))) :
    intLoop n body 0 ((List.range n).map old) =
      .done ((List.range n).map fun j => f j (old j)) := by
  -- the entries in front of `i` are filled
  have hspec := intLoop_spec hn body (Q := fun _ _ => False)
    (I := fun i t => t = (List.range n).map fun j => if j < i then f j (old j) else old j)
    (fun i t _ ht => Or.inl ⟨_, hbody i t, ?_⟩) (Nat.zero_le n) (s := (List.range n).map old)
    (by simp)
  · rcases hspec with ⟨t, ht, rfl⟩ | ⟨_, _, _, _, hfalse⟩
    · rw [Int.natCast_zero] at ht
      rw [ht]
      refine congrArg LoopEnd.done (List.map_congr_left fun j hj => ?_)
      rw [if_pos (List.mem_range.mp hj)]
    · exact hfalse.elim
  · rw [ht, modify_map_range]
    refine List.map_congr_left fun j _ => ?_
    by_cases hj : j = i
    · simp [hj]
    · rw [update_of_ne _ _ hj]
      refine if_congr ?_ rfl rfl
      omega

end Library
