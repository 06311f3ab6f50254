import Mathlib.Algebra.BigOperators.Group.Finset.Basic
import Mhftp.Library.Machine

/-! # Potentials

Steps that take something away from what there is at the start end some time.  Some other
steps may add to it, and then there are few steps of the first kind if there are few of these
(`countP_le_of_potential`).  Where the potential is a sum over processes and a step moves one
of them, it changes by what that process does (`sum_move`).
-/

namespace Library

/-- A sum of which one term changes. -/
theorem sum_move {P : Type} [DecidableEq P] {t : Finset P} {f g : P → Nat} {p : P} (hp : p ∈ t)
    (h : ∀ q, q ≠ p → g q = f q) : t.sum g + f p = t.sum f + g p := by
  have hf : f p + (t.erase p).sum f = t.sum f := Finset.add_sum_erase t f hp
  have hg : g p + (t.erase p).sum g = t.sum g := Finset.add_sum_erase t g hp
  have hrest : (t.erase p).sum g = (t.erase p).sum f :=
    Finset.sum_congr rfl fun q hq => h q (Finset.ne_of_mem_erase hq)
  omega

namespace Machine
variable {S A B : Type} {m : Machine S A}

/-- **A potential bounds how many steps of a kind there are.**  Each takes one from it, and
one that is recorded may add up to `c`. -/
theorem countP_le_of_potential {I : S → Prop} {P : S → A → S → Prop} {p : A → Bool}
    {f : S → A → Option B} {potential : S → Nat} {c : Nat}
    (hstep : ∀ s a s', I s → P s a s' → m.step s a = some s' →
      I s' ∧ potential s' + (if p a then 1 else 0) ≤ potential s + c * (f s a).toList.length)
    {s s' : S} {as : List A} (hI : I s) (hP : m.Along P s as) (hr : m.run s as = some s') :
    as.countP p + potential s' ≤ potential s + c * (m.events f s as).length := by
  induction as generalizing s with
  | nil =>
    obtain rfl := Option.some.inj hr
    simp
  | cons a as ih =>
    obtain ⟨t, ht, hr'⟩ := run_cons hr
    obtain ⟨hPa, hPas⟩ := hP t ht
    obtain ⟨hIt, hdrop⟩ := hstep s a t hI hPa ht
    have hrest := ih hIt hPas hr'
    rw [events_cons_of_step ht, List.length_append, List.countP_cons, Nat.mul_add]
    omega

/-- Where nothing adds to it, there are no more than it is at the start. -/
theorem countP_le_start {I : S → Prop} {p : A → Bool} {potential : S → Nat}
    (hstep : ∀ s a s', I s → m.step s a = some s' →
      I s' ∧ potential s' + (if p a then 1 else 0) ≤ potential s)
    {s s' : S} {as : List A} (hI : I s) (hr : m.run s as = some s') :
    as.countP p ≤ potential s := by
  have hle := countP_le_of_potential (P := fun _ _ _ => True) (c := 0)
    (f := fun _ _ => (none : Option Unit)) (fun s a s' hs _ h => by simpa using hstep s a s' hs h)
    hI (along_of_forall (fun _ _ _ _ => trivial) s as) hr
  omega

end Machine
end Library
