import Mathlib.Algebra.GroupWithZero.Nat
import Mhftp.Library.Machine

/-! # Commands on a stream

* `SelfDelimiting`: a code word can be told from what follows it; then so can the parts of a
  concatenation (`flatMap_inj`, `closed_inj`).
* `Service`: a machine that takes commands from a stream.  If it takes each command from one
  idle state to the next one, as an effect on what it serves, it takes any sequence of them
  (`Service.run`).
-/

namespace Library

section Code
variable {C B : Type}

/-- The words of the `ok` commands end where they end. -/
def SelfDelimiting (bytes : C → List B) (ok : C → Prop) : Prop :=
  ∀ c c' xs ys, ok c → ok c' → bytes c ++ xs = bytes c' ++ ys → c = c' ∧ xs = ys

namespace SelfDelimiting
variable {bytes : C → List B} {ok : C → Prop}

/-- Words up to a closing one, which none of them begins with. -/
theorem closed_inj (h : SelfDelimiting bytes ok) {close : List B}
    (hclose : ∀ c xs ys, ok c → bytes c ++ xs ≠ close ++ ys) {cs cs' : List C}
    (hcs : ∀ c ∈ cs, ok c) (hcs' : ∀ c ∈ cs', ok c) {xs ys : List B}
    (he : cs.flatMap bytes ++ (close ++ xs) = cs'.flatMap bytes ++ (close ++ ys)) :
    cs = cs' ∧ xs = ys := by
  induction cs generalizing cs' with
  | nil =>
    cases cs' with
    | nil => exact ⟨rfl, List.append_cancel_left he⟩
    | cons c cs' =>
      rw [List.flatMap_cons, List.append_assoc] at he
      exact absurd he.symm (hclose c _ _ (hcs' c List.mem_cons_self))
  | cons c cs ih =>
    rw [List.flatMap_cons, List.append_assoc] at he
    cases cs' with
    | nil => exact absurd he (hclose c _ _ (hcs c List.mem_cons_self))
    | cons c' cs' =>
      rw [List.flatMap_cons, List.append_assoc] at he
      obtain ⟨rfl, htail⟩ := h c c' _ _ (hcs c List.mem_cons_self) (hcs' c' List.mem_cons_self) he
      obtain ⟨rfl, hrest⟩ := ih (fun d hd => hcs d (List.mem_cons_of_mem _ hd))
        (fun d hd => hcs' d (List.mem_cons_of_mem _ hd)) htail
      exact ⟨rfl, hrest⟩

/-- **A stream has one reading.** -/
theorem flatMap_inj (h : SelfDelimiting bytes ok) (hne : ∀ c, ok c → bytes c ≠ [])
    {cs cs' : List C} (hcs : ∀ c ∈ cs, ok c) (hcs' : ∀ c ∈ cs', ok c)
    (he : cs.flatMap bytes = cs'.flatMap bytes) : cs = cs' := by
  induction cs generalizing cs' with
  | nil =>
    cases cs' with
    | nil => rfl
    | cons c cs' =>
      rw [List.flatMap_nil, List.flatMap_cons] at he
      have hnil := (List.append_eq_nil_iff.mp he.symm).1
      exact absurd hnil (hne c (hcs' c List.mem_cons_self))
  | cons c cs ih =>
    cases cs' with
    | nil =>
      rw [List.flatMap_nil, List.flatMap_cons] at he
      exact absurd (List.append_eq_nil_iff.mp he).1 (hne c (hcs c List.mem_cons_self))
    | cons c' cs' =>
      rw [List.flatMap_cons, List.flatMap_cons] at he
      obtain ⟨rfl, htail⟩ := h c c' _ _ (hcs c List.mem_cons_self) (hcs' c' List.mem_cons_self) he
      rw [ih (fun d hd => hcs d (List.mem_cons_of_mem _ hd))
        (fun d hd => hcs' d (List.mem_cons_of_mem _ hd)) htail]

end SelfDelimiting
end Code

/-- A machine that serves commands.  `idle s xs d`: it is between two commands, has `xs` to
read and serves `d`; `admits` and `effect` say what each command needs of `d` and makes of it. -/
structure Service {S A : Type} (m : Machine S A) (C B D : Type) where
  idle : S → List B → D → Prop
  fine : A → Prop
  bytes : C → List B
  turns : C → Nat
  admits : D → C → Prop
  effect : D → C → D → Prop
  serves : ∀ c xs s d as, idle s (bytes c ++ xs) d → admits d c → (∀ a ∈ as, fine a) →
    as.length = turns c → ∃ s' d', m.run s as = some s' ∧ idle s' xs d' ∧ effect d c d'

namespace Service
variable {S A C B D : Type} {m : Machine S A} (v : Service m C B D)

/-- Each command is admitted when its turn comes. -/
def AdmitsAll : D → List C → Prop
  | _, [] => True
  | d, c :: cs => v.admits d c ∧ ∀ d', v.effect d c d' → AdmitsAll d' cs

/-- The effects one after the other. -/
def Effects : D → List C → D → Prop
  | d, [], d' => d' = d
  | d, c :: cs, d' => ∃ e, v.effect d c e ∧ Effects e cs d'

theorem length_take_drop {as : List A} {n k : Nat} (h : as.length = n + k) :
    (as.take n).length = n ∧ (as.drop n).length = k := by
  refine ⟨List.length_take_of_le (h ▸ Nat.le_add_right _ _), ?_⟩
  rw [List.length_drop, h, Nat.add_sub_cancel_left]

/-- **A sequence of commands is served in its order**, and nothing is read behind it. -/
theorem run (cs : List C) {xs : List B} {s : S} {d : D} {as : List A}
    (hidle : v.idle s (cs.flatMap v.bytes ++ xs) d) (hadmits : v.AdmitsAll d cs)
    (hfine : ∀ a ∈ as, v.fine a) (hlength : as.length = (cs.map v.turns).sum) :
    ∃ s' d', m.run s as = some s' ∧ v.idle s' xs d' ∧ v.Effects d cs d' := by
  induction cs generalizing s d as with
  | nil =>
    obtain rfl := List.eq_nil_of_length_eq_zero hlength
    exact ⟨s, d, rfl, hidle, rfl⟩
  | cons c cs ih =>
    rw [List.flatMap_cons, List.append_assoc] at hidle
    rw [List.map_cons, List.sum_cons] at hlength
    obtain ⟨htake, hdrop⟩ := length_take_drop hlength
    obtain ⟨t, e, hrun, hidle, heffect⟩ := v.serves c _ s d (as.take (v.turns c)) hidle hadmits.1
      (fun a ha => hfine a (List.mem_of_mem_take ha)) htake
    obtain ⟨s', d', hrest, hidle, heffects⟩ := @ih _ _ (as.drop (v.turns c)) hidle
      (hadmits.2 e heffect) (fun a ha => hfine a (List.mem_of_mem_drop ha)) hdrop
    refine ⟨s', d', ?_, hidle, e, heffect, heffects⟩
    rw [← List.take_append_drop (v.turns c) as, Machine.run_append_of_run hrun]
    exact hrest

/-- What holds at the steps for each command holds at all steps. -/
theorem along {P : S → A → S → Prop}
    (hP : ∀ c xs s d as, v.idle s (v.bytes c ++ xs) d → v.admits d c → (∀ a ∈ as, v.fine a) →
      as.length = v.turns c → m.Along P s as) (cs : List C) {xs : List B} {s : S} {d : D}
    {as : List A} (hidle : v.idle s (cs.flatMap v.bytes ++ xs) d) (hadmits : v.AdmitsAll d cs)
    (hfine : ∀ a ∈ as, v.fine a) (hlength : as.length = (cs.map v.turns).sum) :
    m.Along P s as := by
  induction cs generalizing s d as with
  | nil =>
    obtain rfl := List.eq_nil_of_length_eq_zero hlength
    trivial
  | cons c cs ih =>
    rw [List.flatMap_cons, List.append_assoc] at hidle
    rw [List.map_cons, List.sum_cons] at hlength
    obtain ⟨htake, hdrop⟩ := length_take_drop hlength
    have hfirst : ∀ a ∈ as.take (v.turns c), v.fine a :=
      fun a ha => hfine a (List.mem_of_mem_take ha)
    obtain ⟨t, e, hrun, hidle', heffect⟩ := v.serves c _ s d _ hidle hadmits.1 hfirst htake
    have hrest := ih hidle' (hadmits.2 e heffect)
      (fun a ha => hfine a (List.mem_of_mem_drop ha)) hdrop
    rw [← List.take_append_drop (v.turns c) as]
    exact (hP c _ s d _ hidle hadmits.1 hfirst htake).append hrun hrest

/-- The service for the commands that meet one more condition. -/
def restrict (ok : D → C → Prop) : Service m C B D where
  idle := v.idle
  fine := v.fine
  bytes := v.bytes
  turns := v.turns
  admits d c := v.admits d c ∧ ok d c
  effect := v.effect
  serves c xs s d as hidle hadmits := v.serves c xs s d as hidle hadmits.1

theorem effects_restrict {ok : D → C → Prop} {d d' : D} {cs : List C} :
    (v.restrict ok).Effects d cs d' ↔ v.Effects d cs d' := by
  induction cs generalizing d with
  | nil => exact Iff.rfl
  | cons c cs ih => exact exists_congr fun e => and_congr_right fun _ => ih

end Service
end Library
