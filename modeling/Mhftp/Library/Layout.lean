import Mhftp.Library.Bytes

/-! # Files of fixed-size fields

A file is written field by field, each where the one before ends, and read back field by
field into memory that may hold something else already.

* `pwriteAll`: writes one after another, which are one write of all of it;
* `Buffer.readFront`, `readCleared`: a read into memory, where what the file is too short
  for stays;
* `records`: memory cut into records of one size;
* `keepFront`: what becomes of records of which only the first ones are moved.
-/

namespace Library

/-! ### Writing -/

/-- A file after writes of these fields, from `pos` on. -/
def pwriteAll (file : List UInt8) : Nat → List (List UInt8) → List UInt8
  | _, [] => file
  | pos, field :: fields => pwriteAll (pwrite file pos field) (pos + field.length) fields

section Write
variable {file data xs ys : List UInt8} {pos : Nat}

/-- A write at the front. -/
theorem pwrite_zero : pwrite file 0 data = data ++ file.drop data.length := by
  unfold pwrite
  split
  · next h => rw [h]; rfl
  · rw [List.take_zero, List.nil_append, Nat.zero_add]

/-- A write behind the front of a file. -/
theorem pwrite_append (h : xs.length = pos) :
    pwrite (xs ++ ys) pos data = xs ++ pwrite ys 0 data := by
  subst h
  rw [pwrite_zero]
  unfold pwrite
  split
  · next h => rw [h]; rfl
  · rw [List.length_append, Nat.sub_eq_zero_of_le (Nat.le_add_right _ _), List.replicate_zero,
      List.append_nil, List.take_left, List.append_assoc, List.drop_append, Nat.add_sub_cancel_left,
      List.drop_of_length_le (Nat.le_add_right _ _), List.nil_append]

/-- Two writes, one behind the other. -/
theorem pwrite_pwrite : pwrite (pwrite file pos xs) (pos + xs.length) ys =
    pwrite file pos (xs ++ ys) := by
  by_cases hx : xs = []
  · rw [hx, pwrite_nil, List.length_nil, Nat.add_zero, List.nil_append]
  · by_cases hy : ys = []
    · rw [hy, pwrite_nil, List.append_nil]
    · have hfront : ((file ++ List.replicate (pos - file.length) 0).take pos ++ xs).length =
          pos + xs.length := by
        simp only [List.length_append, List.length_take, List.length_replicate]
        omega
      have hxy : xs ++ ys ≠ [] := by simp [hx]
      have hwrite : pwrite file pos xs =
          ((file ++ List.replicate (pos - file.length) 0).take pos ++ xs) ++
            file.drop (pos + xs.length) := if_neg hx
      rw [hwrite, pwrite_append hfront, pwrite_zero, pwrite, if_neg hxy, List.drop_drop,
        List.length_append, Nat.add_assoc]
      simp only [List.append_assoc]

/-- **Writes one after another are one write.** -/
theorem pwriteAll_eq (fields : List (List UInt8)) :
    pwriteAll file pos fields = pwrite file pos fields.flatten := by
  induction fields generalizing file pos with
  | nil => rw [pwriteAll, List.flatten_nil, pwrite_nil]
  | cons field fields ih => rw [pwriteAll, ih, pwrite_pwrite, List.flatten_cons]

end Write

/-! ### Reading -/

namespace Buffer
variable {n : Nat} {b c : Buffer n} {ys : List UInt8}

/-- A read into memory, and what is left of the file. -/
def readFront (b : Buffer n) (file : List UInt8) : Buffer n × List UInt8 :=
  (b.overlay (file.take n), file.drop n)

/-- A read of a field that is there. -/
theorem readFront_append : b.readFront (c.bytes ++ ys) = (c, ys) := by
  unfold readFront
  rw [List.take_left' c.length, List.drop_left' c.length, overlay_self]

end Buffer

/-- `n` bytes of cleared memory after a read into them. -/
def readCleared (n : Nat) (file : List UInt8) : List UInt8 :=
  file.take n ++ List.replicate (n - file.length) 0

section Cleared
variable {n : Nat} {xs ys : List UInt8}

theorem length_readCleared : (readCleared n ys).length = n := by
  simp only [readCleared, List.length_append, List.length_take, List.length_replicate]
  omega

/-- A read that fills the memory. -/
theorem readCleared_append (h : xs.length = n) : readCleared n (xs ++ ys) = xs := by
  rw [readCleared, List.take_left' h, List.length_append, h,
    Nat.sub_eq_zero_of_le (Nat.le_add_right _ _), List.replicate_zero, List.append_nil]

/-- One transfer moves `k` bytes at most: so many are written, and so many are read. -/
theorem readCleared_take {k : Nat} (h : xs.length = n) :
    readCleared n ((xs.take k ++ ys).take k) = xs.take k ++ List.replicate (n - k) 0 := by
  by_cases hk : n ≤ k
  · rw [List.take_of_length_le (l := xs) (by omega), List.take_append,
      List.take_of_length_le (by omega), readCleared_append h, Nat.sub_eq_zero_of_le hk,
      List.replicate_zero, List.append_nil]
  · have hlength : (xs.take k).length = k := by
      rw [List.length_take]
      omega
    rw [List.take_left' hlength, readCleared, List.take_of_length_le (by omega), hlength]

/-- A piece of cleared memory after a read is a piece of the file, and zeros. -/
theorem pread_readCleared {pos k : Nat} (h : pos + k ≤ n) :
    pread (readCleared n ys) pos k = readCleared k (pread ys pos k) := by
  refine List.ext_getElem? fun i => ?_
  by_cases hi : i < k
  · rw [getElem?_pread hi]
    simp only [readCleared, List.getElem?_append, List.length_take, List.getElem?_take,
      List.getElem?_replicate, pread, List.length_drop, List.getElem?_drop]
    split <;> split <;> grind
  · have hlen : (pread (readCleared n ys) pos k).length ≤ k := List.length_take_le _ _
    rw [List.getElem?_eq_none (by omega), List.getElem?_eq_none (by rw [length_readCleared]; omega)]

end Cleared

/-! ### Records -/

/-- The first `n` records of `w` bytes in a piece of memory. -/
def records (w n : Nat) (mem : List UInt8) : List (List UInt8) :=
  (List.range n).map fun i => (mem.drop (w * i)).take w

section Records
variable {α : Type} {w n i : Nat} {f : α → List UInt8} {mem : List UInt8}

theorem getElem?_records (hi : i < n) :
    (records w n mem)[i]? = some ((mem.drop (w * i)).take w) := by
  simp [records, hi]

theorem length_flatMap (hf : ∀ x, (f x).length = w) (xs : List α) :
    (xs.flatMap f).length = w * xs.length := by
  induction xs with
  | nil => rfl
  | cons x xs ih =>
    rw [List.flatMap_cons, List.length_append, hf, ih, List.length_cons, Nat.mul_add, Nat.mul_one,
      Nat.add_comm]

/-- **Records are read back as they were written.** -/
theorem records_flatMap (hf : ∀ x, (f x).length = w) (xs : List α) :
    records w xs.length (xs.flatMap f) = xs.map f := by
  induction xs with
  | nil => rfl
  | cons x xs ih =>
    rw [List.flatMap_cons, List.map_cons, ← ih, records, List.length_cons, List.range_succ_eq_map,
      List.map_cons, List.map_map]
    refine congrArg₂ List.cons ?_ (List.map_congr_left fun i _ => ?_)
    · rw [Nat.mul_zero, List.drop_zero, List.take_left' (hf x)]
    · show (List.drop (w * (i + 1)) _).take w = _
      rw [Nat.mul_add, Nat.mul_one, Nat.add_comm, ← List.drop_drop, List.drop_left' (hf x)]

/-- The first records. -/
theorem take_flatMap (hf : ∀ x, (f x).length = w) (n : Nat) (xs : List α) :
    (xs.flatMap f).take (w * n) = (xs.take n).flatMap f := by
  induction xs generalizing n with
  | nil => rw [List.take_nil, List.flatMap_nil, List.take_nil]
  | cons x xs ih =>
    cases n with
    | zero => rfl
    | succ n =>
      have hsplit : w * (n + 1) = (f x).length + w * n := by
        rw [hf, Nat.mul_add, Nat.mul_one, Nat.add_comm]
      rw [List.flatMap_cons, hsplit, List.take_length_add_append, ih, List.take_succ_cons,
        List.flatMap_cons]

/-- The place of a record. -/
theorem pread_flatMap (hf : ∀ x, (f x).length = w) {xs : List α} {x : α} (hx : xs[i]? = some x) :
    pread (xs.flatMap f) (w * i) w = f x := by
  obtain ⟨hi, rfl⟩ := List.getElem?_eq_some_iff.mp hx
  have hrecord : (records w xs.length (xs.flatMap f))[i]? = _ := getElem?_records hi
  rw [records_flatMap hf, List.getElem?_map, List.getElem?_eq_getElem hi] at hrecord
  exact (Option.some.inj hrecord).symm

end Records

/-- A list of which the first `n` entries have been moved to where `x` was in every place. -/
def keepFront {α : Type} (n : Nat) (x : α) (xs : List α) : List α :=
  xs.take n ++ List.replicate (xs.length - n) x

section KeepFront
variable {α : Type} {n : Nat} {x : α} {xs : List α}

@[simp] theorem length_keepFront : (keepFront n x xs).length = xs.length := by
  simp only [keepFront, List.length_append, List.length_take, List.length_replicate]
  omega

theorem keepFront_of_le (h : xs.length ≤ n) : keepFront n x xs = xs := by
  rw [keepFront, List.take_of_length_le h, Nat.sub_eq_zero_of_le h, List.replicate_zero,
    List.append_nil]

/-- Nothing is lost exactly if the rest is `x` anyway. -/
theorem keepFront_eq_iff : keepFront n x xs = xs ↔ ∀ y ∈ xs.drop n, y = x := by
  have hrest : xs.take n ++ xs.drop n = xs := List.take_append_drop n xs
  calc keepFront n x xs = xs
    _ ↔ List.replicate (xs.length - n) x = xs.drop n := by
      rw [keepFront]
      conv_lhs => rhs; rw [← hrest]
      rw [List.append_cancel_left_eq]
    _ ↔ ∀ y ∈ xs.drop n, y = x := by
      rw [eq_comm, List.eq_replicate_iff, List.length_drop]
      exact and_iff_right rfl

theorem take_keepFront : (keepFront n x xs).take n = xs.take n := by
  rw [keepFront, List.take_append, List.take_take, min_self, List.length_take,
    List.take_replicate, show min (n - min n xs.length) (xs.length - n) = 0 by omega,
    List.replicate_zero, List.append_nil]

theorem keepFront_keepFront : keepFront n x (keepFront n x xs) = keepFront n x xs := by
  refine keepFront_eq_iff.mpr fun y hy => ?_
  have hfront : (xs.take n).drop n = [] := List.drop_of_length_le (List.length_take_le n xs)
  rw [keepFront, List.drop_append, hfront, List.nil_append] at hy
  exact List.eq_of_mem_replicate (List.mem_of_mem_drop hy)

/-- The memory of records after a transfer: what is not moved is zero, where an entry of
zeros is `x`. -/
theorem flatMap_keepFront {w : Nat} {f : α → List UInt8} (hf : ∀ y, (f y).length = w)
    (hx : f x = List.replicate w 0) : (keepFront n x xs).flatMap f =
      (xs.flatMap f).take (w * n) ++ List.replicate (w * xs.length - w * n) 0 := by
  have hrest : ∀ k, (List.replicate k x).flatMap f = List.replicate (w * k) 0 := by
    intro k
    induction k with
    | zero => rfl
    | succ k ih =>
      rw [List.replicate_succ, List.flatMap_cons, ih, hx, List.replicate_append_replicate,
        Nat.mul_succ, Nat.add_comm]
  rw [keepFront, List.flatMap_append, hrest, take_flatMap hf, Nat.mul_sub]

end KeepFront
end Library
