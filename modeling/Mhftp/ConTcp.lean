import Mhftp.Library.Bytes

/-! # Reading from a socket

`so_read` calls `read` until it has the bytes it was asked for, or until a call
returns nothing.  What the calls return is up to the network, so it is an input: a
list of results, one for each call of `read`.  When the list is used up a call
returns all that is there, up to the length asked for, and 0 once nothing is left, so
the empty list is a socket without trouble whose sender has closed it.

A caller sees no more of the results than the number of bytes (`soRead_spec`).  A
`Wire` is a socket seen by the process that reads it, with the results of its coming
calls; it remembers whether a `so_read` got less than it asked for.
-/

namespace Mhftp
open Library

/-- What a call of `read` returns: a number of bytes, at most those asked for and
those there, or -1, with EAGAIN or with another error. -/
inductive ReadResult
  | count (n : Nat)
  | eagain
  | error
  deriving DecidableEq

/-- The bytes the loop of `so_read` gets while `res` are missing. -/
def soReadLoop (stream : List UInt8) (res : Nat) : List ReadResult → Nat
  | [] => min res stream.length
  | r :: rs =>
    if res = 0 then 0
    else
      match r with
      | .count n =>
        let bytesRead := min n (min res stream.length)
        if bytesRead = 0 then 0
        else bytesRead + soReadLoop (stream.drop bytesRead) (res - bytesRead) rs
      | .eagain | .error => 0

/-- The bytes `so_read` gets, or `none` where it returns -1. -/
def soReadCount (stream : List UInt8) (len : Nat) : List ReadResult → Option Nat
  | [] => some (min len stream.length)
  | .error :: _ => none
  | .eagain :: rs => some (soReadLoop stream len rs)
  | .count n :: rs =>
    let bytesRead := min n (min len stream.length)
    some (bytesRead + soReadLoop (stream.drop bytesRead) (len - bytesRead) rs)

theorem soReadLoop_le (stream : List UInt8) (res : Nat) (rs : List ReadResult) :
    soReadLoop stream res rs ≤ min res stream.length := by
  induction rs generalizing stream res with
  | nil => exact Nat.le_refl _
  | cons r rs ih =>
    unfold soReadLoop
    split
    · exact Nat.zero_le _
    · split
      · next n =>
        dsimp only
        split
        · exact Nat.zero_le _
        · have := ih (stream.drop (min n (min res stream.length)))
            (res - min n (min res stream.length))
          rw [List.length_drop] at this
          omega
      all_goals exact Nat.zero_le _

theorem soReadCount_le {stream : List UInt8} {len n : Nat} {rs : List ReadResult}
    (h : soReadCount stream len rs = some n) : n ≤ min len stream.length := by
  cases rs with
  | nil => exact (Option.some.inj h).symm.le
  | cons r rs =>
    cases r with
    | error => cases h
    | eagain => exact Option.some.inj h ▸ soReadLoop_le _ _ _
    | count k =>
      have hn := Option.some.inj h
      have := soReadLoop_le (stream.drop (min k (min len stream.length)))
        (len - min k (min len stream.length)) rs
      rw [List.length_drop] at this
      omega

/-- What a `so_read` leaves: its return value, the bytes it stored and those not read
yet. -/
structure SoRead where
  br : Int
  bytes : List UInt8
  rest : List UInt8

def soRead (stream : List UInt8) (len : Nat) (results : List ReadResult) : SoRead :=
  match soReadCount stream len results with
  | some n => ⟨n, stream.take n, stream.drop n⟩
  | none => ⟨-1, [], stream⟩

section SoRead
variable (stream : List UInt8) (len : Nat) (results : List ReadResult)

/-- **What a caller sees.**  A `so_read` takes some bytes off the front of the stream,
at most as many as it was asked for, and returns their number, or -1 and takes none. -/
theorem soRead_spec : ∃ n ≤ min len stream.length,
    (soRead stream len results).bytes = stream.take n ∧
    (soRead stream len results).rest = stream.drop n ∧
    ((soRead stream len results).br = n ∨ n = 0 ∧ (soRead stream len results).br = -1) := by
  unfold soRead
  cases h : soReadCount stream len results with
  | none => exact ⟨0, Nat.zero_le _, rfl, rfl, Or.inr ⟨rfl, rfl⟩⟩
  | some n => exact ⟨n, soReadCount_le h, rfl, rfl, Or.inl rfl⟩

/-- A `so_read` that returns what it was asked for has read the next `len` bytes. -/
theorem soRead_full (h : (soRead stream len results).br = len) :
    len ≤ stream.length ∧ (soRead stream len results).bytes = stream.take len ∧
      (soRead stream len results).rest = stream.drop len := by
  obtain ⟨n, hn, hbytes, hrest, hbr | ⟨-, hbr⟩⟩ := soRead_spec stream len results
  · obtain rfl : n = len := by omega
    exact ⟨by omega, hbytes, hrest⟩
  · omega

/-- Without trouble a `so_read` gets what is there. -/
theorem soRead_clean : soRead stream len [] =
    ⟨(min len stream.length : Nat), stream.take len, stream.drop len⟩ := by
  rcases le_total len stream.length with h | h
  · simp [soRead, soReadCount, h]
  · simp [soRead, soReadCount, h, List.take_of_length_le h, List.drop_of_length_le h]

end SoRead

/-- A socket seen by the process that reads it: the bytes not read yet, the results of
the calls of `read` in each coming `so_read`, and whether a `so_read` has got less than
it asked for. -/
structure Wire where
  unread : List UInt8
  script : List (List ReadResult) := []
  short : Bool := false

/-- A `so_read` on a wire: its return value, what it stored, and the wire after it. -/
structure Read (α : Type) where
  br : Int
  value : α
  wire : Wire

namespace Wire

/-- A `so_read` on this socket. -/
def soRead (w : Wire) (len : Nat) : Read (List UInt8) :=
  let r := Mhftp.soRead w.unread len (w.script.headD [])
  ⟨r.br, r.bytes, ⟨r.rest, w.script.tail, w.short || r.br != len⟩⟩

/-- A `so_read` into a buffer: what it does not reach stays as it was. -/
def readBuffer {n : Nat} (w : Wire) (b : Buffer n) : Read (Buffer n) :=
  let r := w.soRead n
  ⟨r.br, b.overlay r.value, r.wire⟩

/-- The integer of eight bytes after `bytes` have been stored at its front. -/
def overlayInt (x : Int) (bytes : List UInt8) : Int :=
  decodeInt ((⟨encodeInt 8 x, length_encodeInt 8 x⟩ : Buffer 8).overlay bytes).bytes

/-- A `so_read` into an integer of eight bytes. -/
def readInt64 (w : Wire) (x : Int) : Read Int :=
  let r := w.soRead 8
  ⟨r.br, overlayInt x r.value, r.wire⟩

section Full
variable {w : Wire} {n : Nat} {ys : List UInt8}

theorem soRead_of_full {xs : List UInt8} (hu : w.unread = xs ++ ys)
    (h : (w.soRead xs.length).br = xs.length) :
    w.soRead xs.length = ⟨xs.length, xs, ⟨ys, w.script.tail, w.short⟩⟩ := by
  obtain ⟨-, hbytes, hrest⟩ := soRead_full _ _ _ h
  change (Mhftp.soRead w.unread xs.length (w.script.headD [])).br = _ at h
  simp only [soRead, h, hbytes, hrest]
  simp [hu]

theorem readBuffer_of_full {b c : Buffer n} (hu : w.unread = c.bytes ++ ys)
    (h : (w.readBuffer b).br = n) :
    w.readBuffer b = ⟨n, c, ⟨ys, w.script.tail, w.short⟩⟩ := by
  obtain ⟨xs, rfl⟩ := c
  simp only [readBuffer, soRead_of_full hu h, Buffer.overlay_full _ rfl]

theorem overlayInt_encodeInt {x y : Int} (hy : -2 ^ 63 ≤ y ∧ y < 2 ^ 63) :
    overlayInt x (encodeInt 8 y) = y := by
  rw [overlayInt, Buffer.overlay_full _ (length_encodeInt 8 y)]
  exact decodeInt_encodeInt_of_range (by omega) (by omega)

theorem readInt64_of_full {x y : Int} (hu : w.unread = encodeInt 8 y ++ ys)
    (hy : -2 ^ 63 ≤ y ∧ y < 2 ^ 63) (h : (w.readInt64 x).br = 8) :
    w.readInt64 x = ⟨8, y, ⟨ys, w.script.tail, w.short⟩⟩ := by
  have hread := soRead_of_full hu ((length_encodeInt 8 y).symm ▸ h)
  rw [length_encodeInt] at hread
  simp only [readInt64, hread, overlayInt_encodeInt hy]
  rfl

/-- Conversely, a `so_read` that returns what it was asked for has stored the front of
what was there. -/
theorem soRead_of_br (h : (w.soRead n).br = n) :
    (w.soRead n).value.length = n ∧ w.unread = (w.soRead n).value ++ (w.soRead n).wire.unread := by
  obtain ⟨hlen, hbytes, hrest⟩ := soRead_full _ _ _ h
  show (Mhftp.soRead _ _ _).bytes.length = n ∧ w.unread = (Mhftp.soRead _ _ _).bytes ++
    (Mhftp.soRead _ _ _).rest
  rw [hbytes, hrest, List.take_append_drop, List.length_take]
  exact ⟨min_eq_left hlen, rfl⟩

theorem readBuffer_of_br {b : Buffer n} (h : (w.readBuffer b).br = n) :
    w.unread = (w.readBuffer b).value.bytes ++ (w.readBuffer b).wire.unread := by
  obtain ⟨hlen, hunread⟩ := soRead_of_br h
  simpa only [readBuffer, Buffer.overlay_full b hlen] using hunread

theorem readInt64_of_br {x : Int} (h : (w.readInt64 x).br = 8) : ∃ bytes : List UInt8,
    bytes.length = 8 ∧ (w.readInt64 x).value = decodeInt bytes ∧
      w.unread = bytes ++ (w.readInt64 x).wire.unread := by
  obtain ⟨hlen, hunread⟩ := soRead_of_br h
  refine ⟨_, hlen, ?_, hunread⟩
  simp only [readInt64, overlayInt, Buffer.overlay_full _ hlen]

/-- A `so_read` on a socket that has not come up short by the end was full. -/
theorem soRead_full_of_intact (h : (w.soRead n).wire.short = false) :
    w.short = false ∧ (w.soRead n).br = n := by
  simpa [soRead] using h

theorem readBuffer_full_of_intact {b : Buffer n} (h : (w.readBuffer b).wire.short = false) :
    w.short = false ∧ (w.readBuffer b).br = n :=
  soRead_full_of_intact h

theorem readInt64_full_of_intact {x : Int} (h : (w.readInt64 x).wire.short = false) :
    w.short = false ∧ (w.readInt64 x).br = 8 :=
  soRead_full_of_intact h

theorem soRead_wire_short :
    (w.soRead n).wire.short = (w.short || (w.soRead n).br != n) := rfl

theorem readBuffer_wire {b : Buffer n} : (w.readBuffer b).wire = (w.soRead n).wire := rfl

theorem readInt64_wire {x : Int} : (w.readInt64 x).wire = (w.soRead 8).wire := rfl

/-- The return value of a `so_read` is at most the length asked for, and -1 at the least. -/
theorem soRead_br_bounds : -1 ≤ (w.soRead n).br ∧ (w.soRead n).br ≤ n := by
  obtain ⟨k, hk, -, -, hbr⟩ := soRead_spec w.unread n (w.script.headD [])
  show -1 ≤ (Mhftp.soRead _ _ _).br ∧ (Mhftp.soRead _ _ _).br ≤ n
  omega

end Full

/-! ### Reading without trouble -/

section Clean
variable {n : Nat} {ys : List UInt8} {short : Bool}

theorem soRead_clean (u : List UInt8) (len : Nat) (short : Bool) :
    (Wire.mk u [] short).soRead len = ⟨(min len u.length : Nat), u.take len,
      u.drop len, [], short || ((min len u.length : Nat) : Int) != len⟩ := by
  simp only [soRead, List.headD_nil, Mhftp.soRead_clean, List.tail_nil]

theorem soRead_clean_append (xs : List UInt8) :
    (Wire.mk (xs ++ ys) [] short).soRead xs.length = ⟨xs.length, xs, ys, [], short⟩ := by
  simp [soRead_clean]

theorem readBuffer_clean {b c : Buffer n} :
    (Wire.mk (c.bytes ++ ys) [] short).readBuffer b = ⟨n, c, ys, [], short⟩ :=
  readBuffer_of_full rfl (by simp [readBuffer, soRead_clean, c.length])

theorem readInt64_clean {x y : Int} (hy : -2 ^ 63 ≤ y ∧ y < 2 ^ 63) :
    (Wire.mk (encodeInt 8 y ++ ys) [] short).readInt64 x = ⟨8, y, ys, [], short⟩ :=
  readInt64_of_full rfl hy (by simp [readInt64, soRead_clean])

end Clean
end Wire
end Mhftp
