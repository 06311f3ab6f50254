import Mhftp.Metadata

/-! # A file in chunks

A file and the size of the chunks it is cut into.  Chunks are `Stored` in another file when
they are there at their own place; writing a chunk to its place stores it and spoils no
other one, and a file where all of them are stored begins with the whole file.
-/

namespace Mhftp
open Library

structure ChunkedFile where
  content : List UInt8
  chunkSize : Nat
  one_le : 1 ≤ chunkSize

namespace ChunkedFile
variable (src : ChunkedFile)

/-- The number of bytes of chunk `k`. -/
def size (k : Nat) : Nat := min src.chunkSize (src.content.length - k * src.chunkSize)

/-- The bytes of chunk `k`. -/
def chunk (k : Nat) : List UInt8 := pread src.content (k * src.chunkSize) (src.size k)

/-- Chunk `k` exists. -/
def Has (k : Nat) : Prop := (k : Int) < chunkCount src.content.length src.chunkSize

/-- Chunk `k` is in the file `g`. -/
def Stored (g : List UInt8) (k : Nat) : Prop :=
  pread g (k * src.chunkSize) (src.size k) = src.chunk k

theorem count_nonneg : 0 ≤ chunkCount src.content.length src.chunkSize :=
  chunkCount_nonneg (Int.natCast_nonneg _) (by exact_mod_cast src.one_le)

theorem length_le_mul :
    (src.content.length : Int) ≤ src.chunkSize * chunkCount src.content.length src.chunkSize :=
  le_chunkCount_mul (by exact_mod_cast src.one_le)

variable {src} {g : List UInt8} {j k n : Nat}

theorem Has.lt (hk : src.Has k) : k * src.chunkSize < src.content.length := by
  have := mul_lt_of_lt_chunkCount (by omega) (by exact_mod_cast src.one_le) hk
  rw [mul_comm]
  exact_mod_cast this

/-- The last chunk ends with the file. -/
theorem chunk_eq_pread (k : Nat) :
    src.chunk k = pread src.content (k * src.chunkSize) src.chunkSize := by
  rw [chunk, size, pread, pread, min_comm, ← List.take_take, List.take_of_length_le]
  exact (List.length_take_le' _ _).trans_eq List.length_drop

theorem size_le (k : Nat) : src.size k ≤ src.chunkSize :=
  min_le_left _ _

/-- The size of a chunk, as the code computes it. -/
theorem Has.payLoad_eq (hk : src.Has k) (hlen : src.content.length < 2 ^ 63) :
    payLoad src.content.length src.chunkSize k = src.size k := by
  have hlt := hk.lt
  have : (src.chunkSize : Int) * k = (k * src.chunkSize : Nat) := by push_cast; ring
  rw [payLoad_eq_min (by omega), size]
  omega

theorem Has.length_chunk (hk : src.Has k) : (src.chunk k).length = src.size k := by
  have hlt := hk.lt
  refine length_pread ?_
  unfold size
  omega

theorem getElem?_chunk {j : Nat} (hj : j < (src.chunk k).length) :
    (src.chunk k)[j]? = src.content[k * src.chunkSize + j]? := by
  have hlen : (src.chunk k).length ≤ src.size k := List.length_take_le _ _
  exact getElem?_pread (by omega)

/-- Writing a chunk, or only the front of it, leaves the chunks that are there. -/
theorem Stored.pwrite (hk : src.Has k) (hj : src.Stored g k) :
    src.Stored (pwrite g (j * src.chunkSize) ((src.chunk j).take n)) k := by
  refine (pread_eq_iff.mpr fun i hi => ?_ : pread _ _ _ = pread src.content _ _)
  have hlt := hk.lt
  have hsize : src.size k = min src.chunkSize (src.content.length - k * src.chunkSize) := rfl
  refine getElem?_pwrite_of_agree (fun l hl => ?_) (by omega) (pread_eq_iff.mp hj i hi)
  rw [List.length_take] at hl
  rw [List.getElem?_take_of_lt (by omega), getElem?_chunk (by omega)]

/-- After a chunk has been written it is there. -/
theorem stored_pwrite (hk : src.Has k) :
    src.Stored (Library.pwrite g (k * src.chunkSize) (src.chunk k)) k := by
  refine (pread_eq_iff.mpr fun i hi => ?_ : pread _ _ _ = pread src.content _ _)
  rw [getElem?_pwrite_of_mem (by omega) (by rw [hk.length_chunk]; omega), Nat.add_sub_cancel_left,
    getElem?_chunk (by rw [hk.length_chunk]; exact hi)]

/-- **Where every chunk is stored the file begins with the source.** -/
theorem take_eq_of_stored (h : ∀ k, src.Has k → src.Stored g k) :
    g.take src.content.length = src.content := by
  apply List.ext_getElem?
  intro i
  by_cases hi : i < src.content.length
  · have hpos : 0 < src.chunkSize := src.one_le
    have hdiv := Nat.div_add_mod i src.chunkSize
    have hmod := Nat.mod_lt i hpos
    have hk : src.Has (i / src.chunkSize) := by
      have hle := src.length_le_mul
      by_contra hno
      have := Int.mul_le_mul_of_nonneg_left (not_lt.mp hno) (Int.natCast_nonneg src.chunkSize)
      have : (src.content.length : Int) ≤ (src.chunkSize * (i / src.chunkSize) : Nat) := by
        push_cast; exact hle.trans this
      omega
    have hsize : src.size (i / src.chunkSize) =
        min src.chunkSize (src.content.length - i / src.chunkSize * src.chunkSize) := rfl
    rw [mul_comm] at hdiv
    have hbyte := pread_eq_iff.mp (h _ hk) (i % src.chunkSize) (by omega)
    rw [hdiv] at hbyte
    rw [List.getElem?_take_of_lt hi, hbyte]
  · rw [List.getElem?_eq_none ((List.length_take_le _ _).trans (not_lt.mp hi)),
      List.getElem?_eq_none (not_lt.mp hi)]

end ChunkedFile
end Mhftp
