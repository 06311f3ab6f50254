import Mathlib.Algebra.BigOperators.Group.List.Basic
import Mathlib.Algebra.Order.Monoid.Defs
import Mathlib.Data.List.Pairwise

/-! # Tilings of an interval

Ranges, as places and sizes, that follow each other without gap or overlap from one end of
an interval to the other (`Tiles`).  They lie in the interval one behind the other
(`Tiles.pairwise`), cover it (`Tiles.cover`), and their sizes add up to its length
(`Tiles.sum`).
-/

namespace Library
variable {α : Type} [AddCommMonoid α] [LinearOrder α]

/-- The ranges make up the interval from `a` to `b`. -/
inductive Tiles : α → α → List (α × α) → Prop
  | nil (a : α) : Tiles a a []
  | cons {a b size : α} {rs : List (α × α)} :
      0 ≤ size → Tiles (a + size) b rs → Tiles a b ((a, size) :: rs)

namespace Tiles
variable {a b size : α} {rs : List (α × α)}

/-- One more range at the end. -/
theorem snoc (h : Tiles a b rs) (hsize : 0 ≤ size) : Tiles a (b + size) (rs ++ [(b, size)]) := by
  induction h with
  | nil a => exact .cons hsize (.nil _)
  | cons hfirst _ ih => exact .cons hfirst ih

/-- Places that follow each other at the distance of the sizes. -/
theorem of_range (start size : Nat → α) {n : Nat} (hsize : ∀ i < n, 0 ≤ size i)
    (hstep : ∀ i < n, start i + size i = start (i + 1)) :
    Tiles (start 0) (start n) ((List.range n).map fun i => (start i, size i)) := by
  induction n with
  | zero => exact .nil _
  | succ n ih =>
    have hfront := ih (fun i hi => hsize i (by omega)) fun i hi => hstep i (by omega)
    rw [List.range_succ, List.map_append, ← hstep n (by omega)]
    exact hfront.snoc (hsize n (by omega))

theorem sum (h : Tiles a b rs) : a + (rs.map Prod.snd).sum = b := by
  induction h with
  | nil => exact add_zero _
  | cons _ _ ih => rw [List.map_cons, List.sum_cons, ← add_assoc, ih]

section Ordered
variable [IsOrderedAddMonoid α]

theorem le (h : Tiles a b rs) : a ≤ b := by
  induction h with
  | nil => exact le_rfl
  | cons hsize _ ih => exact (le_add_of_nonneg_right hsize).trans ih

/-- A range lies in the interval. -/
theorem bounds (h : Tiles a b rs) {r : α × α} (hr : r ∈ rs) : a ≤ r.1 ∧ r.1 + r.2 ≤ b := by
  induction h with
  | nil => cases hr
  | cons hsize hrest ih =>
    rcases List.mem_cons.mp hr with rfl | hr
    · exact ⟨le_rfl, hrest.le⟩
    · obtain ⟨hlo, hhi⟩ := ih hr
      exact ⟨(le_add_of_nonneg_right hsize).trans hlo, hhi⟩

theorem pairwise (h : Tiles a b rs) : rs.Pairwise fun r r' => r.1 + r.2 ≤ r'.1 := by
  induction h with
  | nil => exact .nil
  | cons _ hrest ih => exact .cons (fun r hr => (hrest.bounds hr).1) ih

theorem cover (h : Tiles a b rs) {x : α} :
    (∃ r ∈ rs, r.1 ≤ x ∧ x < r.1 + r.2) ↔ a ≤ x ∧ x < b := by
  constructor
  · rintro ⟨r, hr, hlo, hhi⟩
    obtain ⟨ha, hb⟩ := h.bounds hr
    exact ⟨ha.trans hlo, hhi.trans_le hb⟩
  · rintro ⟨hlo, hhi⟩
    induction h with
    | nil => exact absurd hlo (not_le.mpr hhi)
    | @cons a b size rs _ _ ih =>
      by_cases hx : x < a + size
      · exact ⟨_, List.mem_cons_self, hlo, hx⟩
      · obtain ⟨r, hr, hin⟩ := ih (not_lt.mp hx) hhi
        exact ⟨r, List.mem_cons_of_mem _ hr, hin⟩

end Ordered
end Tiles
end Library
