import Mhftp.Session

/-! # The MD5 of a file

`md5File` reads a file through a buffer of 2048 bytes and hands each piece to the MD5 library,
whose context is the `Ctx` of an `Md5Library`.  However the reads cut the file, the digest is
that of its bytes (`md5File_of_pieces`); a read that fails ends the loop like the end of the
file.
-/

namespace Mhftp
open Library

/-- MD5_Init, MD5_Update and MD5_Final. -/
structure Md5Library where
  Ctx : Type
  init : Ctx
  update : Ctx → List UInt8 → Ctx
  final : Ctx → Digest

namespace Md5Library
variable (lib : Md5Library)

/-- A message may be handed over in pieces. -/
structure Lawful : Prop where
  update_nil : ∀ context, lib.update context [] = context
  update_append : ∀ context xs ys,
    lib.update (lib.update context xs) ys = lib.update context (xs ++ ys)

def md5Buffer : Md5 := fun data => lib.final (lib.update lib.init data)

/-- The loop of `md5File`; there is no result while it goes on. -/
def md5FileLoop (context : lib.Ctx) (file : List UInt8) : List ReadResult → Option lib.Ctx
  | [] => none
  | .eagain :: _ | .error :: _ => some context
  | .count n :: results =>
    let br := min n (min 2048 file.length)
    if br = 0 then some context
    else md5FileLoop (lib.update context (file.take br)) (file.drop br) results

def md5File (file : List UInt8) (results : List ReadResult) : Option Digest :=
  (lib.md5FileLoop lib.init file results).map lib.final

variable {lib}

theorem md5FileLoop_of_pieces (hlib : lib.Lawful) {results : List ReadResult}
    (hpieces : ∀ r ∈ results, r.Piece) {context context' : lib.Ctx} {file : List UInt8}
    (hloop : lib.md5FileLoop context file results = some context') :
    context' = lib.update context file := by
  induction results generalizing context file with
  | nil => cases hloop
  | cons r results ih =>
    have hrest : ∀ r ∈ results, r.Piece := fun r hr => hpieces r (List.mem_cons_of_mem _ hr)
    cases r with
    | eagain | error => exact (hpieces _ List.mem_cons_self).elim
    | count n =>
      have hn : 0 < n := hpieces _ List.mem_cons_self
      rw [md5FileLoop] at hloop
      split at hloop
      · -- a read of a piece returns nothing only at the end
        next hend =>
        have hnil : file = [] := List.eq_nil_of_length_eq_zero (by omega)
        rw [hnil, hlib.update_nil]
        exact (Option.some.inj hloop).symm
      · rw [ih hrest hloop, hlib.update_append, List.take_append_drop]

/-- **The digest of a file is that of its bytes**, however they are read. -/
theorem md5File_of_pieces (hlib : lib.Lawful) {file : List UInt8} {results : List ReadResult}
    (hpieces : ∀ r ∈ results, r.Piece) {digest : Digest}
    (hfile : lib.md5File file results = some digest) : digest = lib.md5Buffer file := by
  obtain ⟨context, hloop, rfl⟩ := Option.map_eq_some_iff.mp hfile
  rw [md5FileLoop_of_pieces hlib hpieces hloop]
  rfl

/-- As many reads as there are bytes, and one more, come to the end. -/
theorem md5FileLoop_ends (context : lib.Ctx) {n : Nat} {file : List UInt8} (hn : file.length < n) :
    (lib.md5FileLoop context file (List.replicate n (.count 2048))).isSome = true := by
  induction n generalizing context file with
  | zero => omega
  | succ n ih =>
    rw [List.replicate_succ, md5FileLoop]
    split
    · rfl
    · apply ih
      rw [List.length_drop]
      omega

/-- The reads that `md5File` takes. -/
theorem exists_md5File (file : List UInt8) : ∃ results digest,
    (∀ r ∈ results, r.Piece) ∧ lib.md5File file results = some digest := by
  obtain ⟨context, hloop⟩ := Option.isSome_iff_exists.mp
    (md5FileLoop_ends lib.init (Nat.lt_succ_self file.length))
  refine ⟨_, lib.final context, fun r hr => ?_, by rw [md5File, hloop]; rfl⟩
  rw [List.eq_of_mem_replicate hr]
  show 0 < 2048
  decide

end Md5Library
end Mhftp
