import Mathlib.Data.List.GetD
import Mathlib.Tactic.Positivity
import Mathlib.Tactic.Ring

/-! # Bytes

Fixed-size memory, little-endian integers and files, as lists of bytes.

* `Buffer n`: memory of `n` bytes; `overlay` stores bytes at its front;
* `encode`, `decode`: little-endian naturals, `encodeInt`, `decodeInt`: two's complement;
* `pread`, `pwrite`: a piece of a file, and a file after a write, with zeros in a gap
  that the write leaves behind the old end.
-/

namespace Library

/-! ### Memory -/

/-- Memory of `n` bytes. -/
structure Buffer (n : Nat) where
  bytes : List UInt8
  length : bytes.length = n
  deriving DecidableEq

namespace Buffer
variable {n : Nat}

@[ext] theorem ext {b c : Buffer n} (h : b.bytes = c.bytes) : b = c := by
  cases b; cases c; cases h; rfl

/-- Memory filled with zeros. -/
def zero (n : Nat) : Buffer n := ⟨List.replicate n 0, List.length_replicate⟩

/-- The memory after `xs` has been stored at its front. -/
def overlay (b : Buffer n) (xs : List UInt8) : Buffer n where
  bytes := (xs ++ b.bytes.drop xs.length).take n
  length := by simp [b.length]; omega

theorem overlay_full (b : Buffer n) {xs : List UInt8} (h : xs.length = n) :
    b.overlay xs = ⟨xs, h⟩ := by
  ext1
  simp [overlay, ← h]

@[simp] theorem overlay_self (b c : Buffer n) : b.overlay c.bytes = c :=
  b.overlay_full c.length

end Buffer

/-! ### Integers -/

/-- The `w` little-endian bytes of `x`. -/
def encode : Nat → Nat → List UInt8
  | 0, _ => []
  | w + 1, x => UInt8.ofNat x :: encode w (x / 256)

/-- The natural number with these little-endian bytes. -/
def decode : List UInt8 → Nat
  | [] => 0
  | b :: bs => b.toNat + 256 * decode bs

@[simp] theorem length_encode (w x : Nat) : (encode w x).length = w := by
  induction w generalizing x with
  | zero => rfl
  | succ w ih => rw [encode, List.length_cons, ih]

theorem decode_encode (w x : Nat) : decode (encode w x) = x % 256 ^ w := by
  induction w generalizing x with
  | zero => rw [pow_zero, Nat.mod_one]; rfl
  | succ w ih =>
    rw [encode, decode, ih, pow_succ', Nat.mod_mul]
    rfl

theorem decode_append (xs ys : List UInt8) :
    decode (xs ++ ys) = decode xs + 256 ^ xs.length * decode ys := by
  induction xs with
  | nil => simp [decode]
  | cons b xs ih =>
    rw [List.cons_append, decode, decode, ih, List.length_cons, pow_succ]
    ring

theorem decode_lt (bs : List UInt8) : decode bs < 256 ^ bs.length := by
  induction bs with
  | nil => exact Nat.one_pos
  | cons b bs ih =>
    have hb : b.toNat < 256 := b.toNat_lt
    rw [decode, List.length_cons, pow_succ']
    omega

theorem take_encode {w j x : Nat} (hj : j ≤ w) : (encode w x).take j = encode j x := by
  induction j generalizing w x with
  | zero => rfl
  | succ j ih =>
    obtain ⟨w, rfl⟩ : ∃ v, w = v + 1 := ⟨w - 1, by omega⟩
    rw [encode, encode, List.take_succ_cons, ih (by omega)]

theorem drop_encode {w j x : Nat} : (encode w x).drop j = encode (w - j) (x / 256 ^ j) := by
  induction j generalizing w x with
  | zero => simp
  | succ j ih =>
    cases w with
    | zero => simp [encode]
    | succ w =>
      rw [encode, List.drop_succ_cons, ih, Nat.div_div_eq_div_mul, ← pow_succ', Nat.succ_sub_succ]

/-- The `w` bytes of an integer in two's complement. -/
def encodeInt (w : Nat) (x : Int) : List UInt8 := encode w (x % 256 ^ w).toNat

/-- The integer with these bytes in two's complement. -/
def decodeInt (bs : List UInt8) : Int := (decode bs : Int).bmod (256 ^ bs.length)

@[simp] theorem length_encodeInt (w : Nat) (x : Int) : (encodeInt w x).length = w :=
  length_encode w _

theorem decodeInt_encodeInt (w : Nat) (x : Int) :
    decodeInt (encodeInt w x) = x.bmod (256 ^ w) := by
  have hpos : (0 : Int) < 256 ^ w := by positivity
  have hcast : ((x % 256 ^ w).toNat : Int) = x % 256 ^ w :=
    Int.toNat_of_nonneg (Int.emod_nonneg _ hpos.ne')
  have hlt : (x % 256 ^ w).toNat < 256 ^ w := by
    have := Int.emod_lt_of_pos x hpos
    rw [← hcast] at this
    exact_mod_cast this
  rw [decodeInt, encodeInt, length_encode, decode_encode, Nat.mod_eq_of_lt hlt, hcast]
  exact_mod_cast Int.emod_bmod x (256 ^ w)

/-- A number in range is read back as it was written. -/
theorem decodeInt_encodeInt_of_range {w : Nat} {x : Int} (hlo : -(256 ^ w) ≤ 2 * x)
    (hhi : 2 * x < 256 ^ w) : decodeInt (encodeInt w x) = x := by
  rw [decodeInt_encodeInt]
  apply Int.bmod_eq_of_le_mul_two <;> push_cast <;> omega

theorem decodeInt_bounds (bs : List UInt8) :
    -(256 ^ bs.length) ≤ 2 * decodeInt bs ∧ 2 * decodeInt bs < 256 ^ bs.length := by
  have hlo := Int.le_bmod (x := decode bs) (m := 256 ^ bs.length) (by positivity)
  have hhi := Int.bmod_lt (x := decode bs) (m := 256 ^ bs.length) (by positivity)
  unfold decodeInt
  push_cast at hlo hhi ⊢
  omega

/-! ### Files -/

/-- Up to `n` bytes of a file from `pos` on. -/
def pread (file : List UInt8) (pos n : Nat) : List UInt8 := (file.drop pos).take n

/-- A file after `data` has been written at `pos`. -/
def pwrite (file : List UInt8) (pos : Nat) (data : List UInt8) : List UInt8 :=
  if data = [] then file
  else
    (file ++ List.replicate (pos - file.length) 0).take pos ++ data ++
      file.drop (pos + data.length)

section File
variable {file data : List UInt8} {pos i n : Nat}

@[simp] theorem pwrite_nil : pwrite file pos [] = file := if_pos rfl

theorem length_pwrite : (pwrite file pos data).length =
    if data = [] then file.length else max file.length (pos + data.length) := by
  unfold pwrite
  split
  · rfl
  · simp only [List.length_append, List.length_take, List.length_replicate, List.length_drop]
    omega

/-- A write puts its bytes in their place. -/
theorem getElem?_pwrite_of_mem (hlo : pos ≤ i) (hhi : i < pos + data.length) :
    (pwrite file pos data)[i]? = data[i - pos]? := by
  have hne : data ≠ [] := by rintro rfl; simp at hhi; omega
  rw [pwrite, if_neg hne]
  have hlen : ((file ++ List.replicate (pos - file.length) 0).take pos).length = pos := by
    simp; omega
  rw [List.append_assoc, List.getElem?_append_right (by rw [hlen]; exact hlo), hlen,
    List.getElem?_append_left (by omega)]

/-- A write leaves every other byte of the file alone. -/
theorem getElem?_pwrite_of_notMem (hi : i < file.length) (h : i < pos ∨ pos + data.length ≤ i) :
    (pwrite file pos data)[i]? = file[i]? := by
  unfold pwrite
  split
  · rfl
  · have hlen : ((file ++ List.replicate (pos - file.length) 0).take pos).length = pos := by
      simp; omega
    rcases h with h | h
    · rw [List.append_assoc, List.getElem?_append_left (by rw [hlen]; exact h),
        List.getElem?_take_of_lt h, List.getElem?_append_left hi]
    · rw [List.getElem?_append_right (by simp only [List.length_append, hlen]; exact h)]
      simp only [List.length_append, hlen, List.getElem?_drop]
      congr 1
      omega

/-- The byte of a file at `i`, where what lies behind the end counts as zero. -/
theorem getD_pwrite : (pwrite file pos data).getD i 0 =
    if pos ≤ i ∧ i < pos + data.length then data.getD (i - pos) 0 else file.getD i 0 := by
  split
  · next h => rw [List.getD_eq_getElem?_getD, getElem?_pwrite_of_mem h.1 h.2,
      ← List.getD_eq_getElem?_getD]
  · next h =>
    rw [not_and_or, not_le, not_lt] at h
    by_cases hi : i < file.length
    · rw [List.getD_eq_getElem?_getD, getElem?_pwrite_of_notMem hi h,
        ← List.getD_eq_getElem?_getD]
    · rw [List.getD_eq_default file 0 (by omega)]
      unfold pwrite
      split
      · exact List.getD_eq_default _ _ (by omega)
      · have hlen : ((file ++ List.replicate (pos - file.length) 0).take pos).length = pos := by
          simp; omega
        rcases h with h | h
        · rw [List.getD_eq_getElem?_getD, List.append_assoc,
            List.getElem?_append_left (by rw [hlen]; exact h), List.getElem?_take_of_lt h,
            List.getElem?_append_right (by omega), List.getElem?_replicate]
          split <;> rfl
        · refine List.getD_eq_default _ _ ?_
          simp only [List.length_append, hlen, List.length_drop]
          omega

theorem length_pread (h : pos + n ≤ file.length) : (pread file pos n).length = n := by
  simp [pread]; omega

theorem getElem?_pread (h : i < n) : (pread file pos n)[i]? = file[pos + i]? := by
  rw [pread, List.getElem?_take_of_lt h, List.getElem?_drop]

theorem pread_eq_iff {g : List UInt8} :
    pread file pos n = pread g pos n ↔ ∀ i < n, file[pos + i]? = g[pos + i]? := by
  constructor
  · intro h i hi
    rw [← getElem?_pread hi, h, getElem?_pread hi]
  · intro h
    apply List.ext_getElem?
    intro i
    by_cases hi : i < n
    · rw [getElem?_pread hi, getElem?_pread hi, h i hi]
    · simp only [pread, List.getElem?_take, if_neg hi]

/-- A piece of what is left when only the front of `xs` has been written over `ys`. -/
theorem pread_take_append_drop {xs ys : List UInt8} (h : xs.length = ys.length) (b pos n : Nat) :
    pread (xs.take b ++ ys.drop b) pos n =
      (pread xs pos n).take (b - pos) ++ (pread ys pos n).drop (b - pos) := by
  have hmixed {zs zs' : List UInt8} (h : zs.length = zs'.length) (b j : Nat) :
      (zs.take b ++ zs'.drop b)[j]? = if j < b then zs[j]? else zs'[j]? := by
    rw [List.getElem?_append, List.length_take, List.getElem?_take, List.getElem?_drop]
    by_cases hj : j < b
    · rw [if_pos hj, if_pos hj]
      split
      · rfl
      · rw [List.getElem?_eq_none (by omega), List.getElem?_eq_none (by omega)]
    · rw [if_neg (by omega), if_neg hj]
      by_cases hb : b ≤ zs.length
      · rw [min_eq_left hb, Nat.add_sub_cancel' (not_lt.mp hj)]
      · rw [List.getElem?_eq_none (by omega), List.getElem?_eq_none (by omega)]
  refine List.ext_getElem? fun j => ?_
  rw [hmixed (by simp [pread, h])]
  by_cases hj : j < n
  · rw [getElem?_pread hj, getElem?_pread hj, getElem?_pread hj, hmixed h]
    refine if_congr ?_ rfl rfl
    omega
  · simp [pread, hj]

/-- Where a file agrees with `g` it still does after bytes of `g` have been written to
their place. -/
theorem getElem?_pwrite_of_agree {g : List UInt8}
    (hdata : ∀ j < data.length, data[j]? = g[pos + j]?) (hi : i < g.length)
    (h : file[i]? = g[i]?) : (pwrite file pos data)[i]? = g[i]? := by
  by_cases hmem : pos ≤ i ∧ i < pos + data.length
  · rw [getElem?_pwrite_of_mem hmem.1 hmem.2, hdata _ (by omega)]
    congr 1
    omega
  · have hlt : i < file.length := by
      rw [List.getElem?_eq_getElem hi] at h
      exact (List.getElem?_eq_some_iff.mp h).1
    rw [getElem?_pwrite_of_notMem hlt (by omega), h]

end File
end Library
