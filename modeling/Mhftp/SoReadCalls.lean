import Mhftp.Server

/-! # `so_read`, call by call

`soRead` says how many bytes a `so_read` gets.  Here is the function as it is written: a
first `read`, then a loop of them, each behind the bytes that are stored already, with
`errno` between the calls.  What the calls return is an infinite sequence, of which the
function sees a part.

Both say the same (`ReadCalls.soRead_spec`), so the reads of a `Wire` are those of the
function (`Wire.readBuffer_calls`), and it delivers the stream (`so_read_delivers`).
-/

namespace Mhftp
open Library

/-- `errno`, as far as `so_read` looks at it. -/
inductive Errno
  | eagain
  | other
  deriving DecidableEq

/-- What the calls of `read` act on: the memory they write to, `errno`, the bytes not read
yet, and the values returned so far, the last one first. -/
structure ReadCalls where
  buffer : Nat → UInt8
  errno : Errno
  unread : List UInt8
  returned : List Int := []

/-- The memory after `data` has been stored at `ptr`. -/
def storeAt (buffer : Nat → UInt8) (ptr : Nat) (data : List UInt8) : Nat → UInt8 :=
  fun i => if ptr ≤ i then (data[i - ptr]?).getD (buffer i) else buffer i

namespace ReadCalls

/-- After a call that has stored the next `b` bytes at `ptr`. -/
def got (c : ReadCalls) (ptr b : Nat) : ReadCalls :=
  { c with
    buffer := storeAt c.buffer ptr (c.unread.take b)
    unread := c.unread.drop b
    returned := b :: c.returned }

/-- After a call that has failed. -/
def failed (c : ReadCalls) (errno : Errno) : ReadCalls :=
  { c with errno, returned := -1 :: c.returned }

/-- `read(sd, &buffer[ptr], n)`, which leaves `errno` alone where it does not fail. -/
def read (c : ReadCalls) (ptr n : Int) : ReadResult → Int × ReadCalls
  | .count k =>
    let b := min k (min n.toNat c.unread.length)
    (b, c.got ptr.toNat b)
  | .eagain => (-1, c.failed .eagain)
  | .error => (-1, c.failed .other)

variable (results : Nat → ReadResult)

/-- The call that is next. -/
def next (c : ReadCalls) (ptr n : Int) : Int × ReadCalls :=
  c.read ptr n (results c.returned.length)

/-- So many turns of the loop of `so_read`, with what it returns; `none` while it is still
running. -/
def loop : Nat → (res ptr : Int) → ReadCalls → Option (Int × ReadCalls)
  | 0, _, _, _ => none
  | fuel + 1, res, ptr, c =>
    if res = 0 then some (ptr, c)
    else
      let (bytes_read, c) := c.next results ptr res
      let bytes_read := if c.errno = .eagain ∧ bytes_read = -1 then 0 else bytes_read
      if bytes_read ≤ 0 then some (ptr, c)
      else loop fuel (res - bytes_read) (ptr + bytes_read) c

/-- `so_read`, with what `perror` makes of `errno`. -/
def soRead (perror : Errno → Errno) (fuel : Nat) (len : Int) (c : ReadCalls) :
    Option (Int × ReadCalls) :=
  let (bytes_read, c) := c.next results 0 len
  let (bytes_read, c) :=
    if c.errno = .eagain ∧ bytes_read = -1 then (0, { c with errno := perror c.errno })
    else (bytes_read, c)
  if c.errno ≠ .eagain ∧ bytes_read = -1 then some (-1, { c with errno := perror c.errno })
  else loop results fuel (len - bytes_read) bytes_read c

end ReadCalls

/-! ### Memory -/

section Store
variable (buffer : Nat → UInt8) (ptr : Nat)

theorem storeAt_nil : storeAt buffer ptr [] = buffer := by
  funext i
  simp [storeAt]

theorem storeAt_zero (data : List UInt8) : storeAt buffer 0 data = store buffer data := by
  funext i
  simp [storeAt, store]

/-- Two pieces stored one behind the other. -/
theorem storeAt_append (xs ys : List UInt8) :
    storeAt (storeAt buffer ptr xs) (ptr + xs.length) ys = storeAt buffer ptr (xs ++ ys) := by
  funext i
  unfold storeAt
  by_cases hptr : ptr ≤ i
  · rw [if_pos hptr, if_pos hptr]
    by_cases hxs : ptr + xs.length ≤ i
    · rw [if_pos hxs, List.getElem?_append_right (by omega),
        List.getElem?_eq_none (l := xs) (by omega), Nat.sub_sub]
      rfl
    · rw [if_neg hxs, List.getElem?_append_left (by omega)]
  · rw [if_neg hptr, if_neg hptr, if_neg (by omega)]

end Store

/-! ### What the calls get -/

section Next
variable (stream : List UInt8) (rs : List ReadResult) {bound : Nat}

/-- The bytes that the loop gets, by the result of its next call. -/
theorem soReadLoop_next {res : Nat} (hres : res ≠ 0) (hbound : res ≤ bound) :
    soReadLoop stream res rs =
      match rs.getD 0 (.count bound) with
      | .count k =>
        let b := min k (min res stream.length)
        if b = 0 then 0 else b + soReadLoop (stream.drop b) (res - b) rs.tail
      | .eagain | .error => 0 := by
  cases rs with
  | nil =>
    -- behind the list a call gets all that there is
    have hall : min bound (min res stream.length) = min res stream.length := by omega
    have hrest : min (res - min res stream.length) (stream.length - min res stream.length) = 0 := by
      omega
    simp only [List.getD_nil, List.tail_nil, soReadLoop, List.length_drop, hall, hrest,
      Nat.add_zero]
    split
    · assumption
    · rfl
  | cons r rs =>
    rw [soReadLoop.eq_def]
    dsimp only
    rw [if_neg hres]
    cases r <;> rfl

/-- The bytes that a `so_read` gets, by the result of its first call. -/
theorem soReadCount_next {len : Nat} (hbound : len ≤ bound) :
    soReadCount stream len rs =
      match rs.getD 0 (.count bound) with
      | .count k =>
        let b := min k (min len stream.length)
        some (b + soReadLoop (stream.drop b) (len - b) rs.tail)
      | .eagain => some (soReadLoop stream len rs.tail)
      | .error => none := by
  cases rs with
  | nil =>
    have hall : min bound (min len stream.length) = min len stream.length := by omega
    have hrest : min (len - min len stream.length) (stream.length - min len stream.length) = 0 := by
      omega
    simp only [List.getD_nil, List.tail_nil, soReadCount, soReadLoop, List.length_drop, hall,
      hrest, Nat.add_zero]
  | cons r rs => cases r <;> rfl

end Next

/-! ### The function -/

namespace ReadCalls
variable {results : Nat → ReadResult} {c c' : ReadCalls} {ptr b n : Nat}

/-- From `c` on the calls have got `n` bytes, and stored them at `ptr`. -/
structure Delivered (c : ReadCalls) (ptr n : Nat) (c' : ReadCalls) : Prop where
  unread : c'.unread = c.unread.drop n
  buffer : c'.buffer = storeAt c.buffer ptr (c.unread.take n)

/-- A call has returned nothing. -/
def Stopped (c : ReadCalls) : Prop := ∃ v ∈ c.returned, v = 0 ∨ v = -1

theorem delivered_none (hunread : c'.unread = c.unread) (hbuffer : c'.buffer = c.buffer) :
    c.Delivered ptr 0 c' :=
  ⟨hunread, hbuffer.trans (storeAt_nil _ _).symm⟩

theorem stopped_failed (e : Errno) : (c.failed e).Stopped := ⟨-1, List.mem_cons_self, Or.inr rfl⟩

/-- What the next call gets comes first. -/
theorem Delivered.of_got (h : (c.got ptr b).Delivered (ptr + b) n c') (hb : b ≤ c.unread.length) :
    c.Delivered ptr (b + n) c' := by
  have hlength : (c.unread.take b).length = b := by
    rw [List.length_take, min_eq_left hb]
  have hstore := storeAt_append c.buffer ptr (c.unread.take b) ((c.unread.drop b).take n)
  rw [hlength, ← List.take_add] at hstore
  exact ⟨h.unread.trans List.drop_drop, h.buffer.trans hstore⟩

/-- The results that the list says are those of the next `n` calls of `c`, which read up to
`bound` bytes where it is used up. -/
def Scripted (results : Nat → ReadResult) (rs : List ReadResult) (bound n : Nat)
    (c : ReadCalls) : Prop :=
  ∀ i < n, rs.getD i (.count bound) = results (c.returned.length + i)

theorem Scripted.tail {rs : List ReadResult} {bound : Nat} {v : Int}
    (h : Scripted results rs bound (n + 1) c) (hc : c'.returned = v :: c.returned) :
    Scripted results rs.tail bound n c' := by
  intro i hi
  rw [hc, List.length_cons, Nat.add_assoc, Nat.add_comm 1, ← h (i + 1) (by omega)]
  cases rs <;> rfl

theorem Scripted.mono {rs : List ReadResult} {bound m : Nat} (h : Scripted results rs bound n c)
    (hm : m ≤ n) : Scripted results rs bound m c :=
  fun i hi => h i (by omega)

/-- **The loop gets what `soReadLoop` says**, stores it in its place, and ends before it has
all that is missing only if a call has returned nothing. -/
theorem loop_spec {fuel res bound : Nat} {rs : List ReadResult}
    (hrs : Scripted results rs bound res c) (hbound : res ≤ bound) (hfuel : res < fuel)
    (ptr : Nat) : ∃ c' : ReadCalls,
      loop results fuel res ptr c = some (((ptr + soReadLoop c.unread res rs : Nat) : Int), c') ∧
      c.Delivered ptr (soReadLoop c.unread res rs) c' ∧
      (soReadLoop c.unread res rs < res → c'.Stopped) := by
  induction fuel generalizing c res ptr rs with
  | zero => omega
  | succ fuel ih =>
    rw [loop.eq_def]
    dsimp only
    by_cases hres : res = 0
    · subst res
      have hnone : soReadLoop c.unread 0 rs = 0 := by
        have := soReadLoop_le c.unread 0 rs
        omega
      rw [if_pos Int.natCast_zero, hnone]
      exact ⟨c, rfl, delivered_none rfl rfl, nofun⟩
    rw [if_neg (by omega)]
    have hnext := soReadLoop_next c.unread rs hres hbound
    rw [hrs 0 (by omega), Nat.add_zero] at hnext
    cases hresult : results c.returned.length with
    | count k =>
      simp only [next, hresult, read, Int.toNat_natCast] at hnext ⊢
      generalize hb : min k (min res c.unread.length) = b at hnext ⊢
      have hno : ¬ ((c.got ptr b).errno = .eagain ∧ (b : Int) = -1) := fun h => by omega
      rw [if_neg hno]
      by_cases hb₀ : b = 0
      · -- nothing more, or nothing now
        subst hb₀
        rw [if_pos rfl] at hnext
        rw [if_pos Int.natCast_zero.le, hnext]
        exact ⟨_, rfl, ⟨rfl, rfl⟩, fun _ => ⟨0, List.mem_cons_self, Or.inl rfl⟩⟩
      · rw [if_neg hb₀] at hnext
        rw [if_neg (by omega), hnext]
        have htail : Scripted results rs.tail bound (res - b) (c.got ptr b) :=
          Scripted.tail (hrs.mono (by omega)) rfl
        obtain ⟨c', hloop, hdelivered, hless⟩ := ih htail (by omega) (by omega) (ptr + b)
        refine ⟨c', ?_, hdelivered.of_got (by omega), fun h => hless (by dsimp only [got]; omega)⟩
        rw [← Int.natCast_sub (by omega), ← Int.natCast_add, hloop, Nat.add_assoc]
        rfl
    | eagain =>
      rw [hresult] at hnext
      simp only [next, hresult, read, failed, and_self, if_true, le_refl, hnext]
      exact ⟨_, rfl, delivered_none rfl rfl, fun _ => stopped_failed .eagain⟩
    | error =>
      rw [hresult] at hnext
      simp only [next, hresult, read, failed, hnext]
      exact ⟨_, rfl, delivered_none rfl rfl, fun _ => stopped_failed .other⟩

/-- **`so_read` does what `soRead` says.** -/
theorem soRead_spec {len fuel bound : Nat} {rs : List ReadResult}
    (hrs : Scripted results rs bound (len + 1) c) (hbound : len ≤ bound) (hfuel : len < fuel)
    (perror : Errno → Errno) : ∃ c' : ReadCalls,
      soRead results perror fuel len c = some ((Mhftp.soRead c.unread len rs).br, c') ∧
      c'.unread = (Mhftp.soRead c.unread len rs).rest ∧
      c'.buffer = store c.buffer (Mhftp.soRead c.unread len rs).bytes ∧
      ((Mhftp.soRead c.unread len rs).br < len → c'.Stopped) := by
  have hnext := soReadCount_next c.unread rs hbound
  rw [hrs 0 (by omega), Nat.add_zero] at hnext
  unfold soRead Mhftp.soRead
  cases hresult : results c.returned.length with
  | count k =>
    simp only [next, hresult, read, Int.toNat_natCast] at hnext ⊢
    generalize hb : min k (min len c.unread.length) = b at hnext ⊢
    have hno : ∀ e : Prop, ¬ (e ∧ (b : Int) = -1) := fun e h => by omega
    have htail : Scripted results rs.tail bound (len - b) (c.got 0 b) :=
      Scripted.tail (hrs.mono (by omega)) rfl
    have hfuel : len - b < fuel := by omega
    obtain ⟨c', hloop, hdelivered, hless⟩ := loop_spec htail (by omega) hfuel b
    have hall : c.Delivered 0 (b + soReadLoop (c.got 0 b).unread (len - b) rs.tail) c' := by
      refine Delivered.of_got ?_ (by omega)
      rwa [Nat.zero_add]
    rw [Int.toNat_zero, if_neg (hno _), if_neg (hno _), hnext]
    refine ⟨c', ?_, hall.unread, hall.buffer.trans (storeAt_zero _ _),
      fun h => hless (by dsimp only [got] at h ⊢; omega)⟩
    rw [← Int.natCast_sub (by omega), hloop]
    rfl
  | eagain =>
    rw [hresult] at hnext
    have htail : Scripted results rs.tail bound len
        { c.failed .eagain with errno := perror .eagain } := Scripted.tail hrs rfl
    obtain ⟨c', hloop, hdelivered, hless⟩ := loop_spec htail hbound hfuel 0
    rw [Nat.zero_add] at hloop
    -- whatever `perror` leaves, no call has failed any more
    have hno : ∀ e : Prop, ¬ (e ∧ (0 : Int) = -1) := fun e h => by omega
    have hfirst : c.next results 0 len = (-1, c.failed .eagain) := by
      rw [next, hresult]
      rfl
    rw [hfirst, hnext]
    dsimp only
    rw [if_pos (c := (c.failed .eagain).errno = .eagain ∧ (-1 : Int) = -1) ⟨rfl, rfl⟩,
      if_neg (hno _), Int.sub_zero]
    exact ⟨c', hloop, hdelivered.unread, hdelivered.buffer.trans (storeAt_zero _ _),
      fun h => hless (Int.ofNat_lt.mp h)⟩
  | error =>
    rw [hresult] at hnext
    simp only [next, hresult, read, failed, hnext]
    exact ⟨_, rfl, rfl, rfl, fun _ => stopped_failed .other⟩

/-- More turns change nothing once the loop has ended. -/
theorem loop_mono {fuel fuel' : Nat} (hle : fuel ≤ fuel') {res ptr : Int} {x : Int × ReadCalls}
    (h : loop results fuel res ptr c = some x) : loop results fuel' res ptr c = some x := by
  induction fuel generalizing fuel' res ptr c with
  | zero => cases h
  | succ fuel ih =>
    obtain ⟨fuel', rfl⟩ : ∃ m, fuel' = m + 1 := ⟨fuel' - 1, by omega⟩
    rw [loop.eq_def] at h ⊢
    dsimp only at h ⊢
    by_cases hres : res = 0
    · rwa [if_pos hres] at h ⊢
    rw [if_neg hres] at h ⊢
    generalize c.next results ptr res = p at h ⊢
    generalize (if p.2.errno = .eagain ∧ p.1 = -1 then (0 : Int) else p.1) = b at h ⊢
    by_cases hstop : b ≤ 0
    · rwa [if_pos hstop] at h ⊢
    rw [if_neg hstop] at h ⊢
    exact ih (by omega) h

theorem soRead_mono {perror : Errno → Errno} {fuel fuel' : Nat} (hle : fuel ≤ fuel') {len : Int}
    {x : Int × ReadCalls} (h : soRead results perror fuel len c = some x) :
    soRead results perror fuel' len c = some x := by
  unfold soRead at h ⊢
  dsimp only at h ⊢
  generalize (if (c.next results 0 len).2.errno = .eagain ∧ (c.next results 0 len).1 = -1 then _
    else _ : Int × ReadCalls) = first at h ⊢
  by_cases hfailed : first.2.errno ≠ .eagain ∧ first.1 = -1
  · rwa [if_pos hfailed] at h ⊢
  rw [if_neg hfailed] at h ⊢
  exact loop_mono hle h

end ReadCalls

/-! ### What a caller sees -/

/-- Memory that is a buffer, after bytes have been stored at its front. -/
theorem map_store_buffer {n : Nat} (b : Buffer n) (data : List UInt8) :
    (List.range n).map (store (fun i => b.bytes.getD i 0) data) = (b.overlay data).bytes := by
  refine List.ext_getElem (by rw [List.length_map, List.length_range, Buffer.length])
    fun i h₁ h₂ => ?_
  have hi : i < n := by simpa using h₁
  simp only [List.getElem_map, List.getElem_range, store, Buffer.overlay, List.getElem_take]
  by_cases hdata : i < data.length
  · rw [List.getElem?_eq_getElem hdata, List.getElem_append_left hdata]
    rfl
  · have hb : i < b.bytes.length := by rwa [b.length]
    rw [List.getElem?_eq_none (by omega), List.getElem_append_right (by omega), List.getElem_drop,
      Option.getD_none, List.getD_eq_getElem _ _ hb]
    congr 1
    omega

/-- **The reads of a wire are those of the function**, whose calls return what its script says
and after that all that there is. -/
theorem Wire.readBuffer_calls (perror : Errno → Errno) (w : Wire) {n : Nat} (b : Buffer n)
    (errno : Errno) : ∃ c : ReadCalls,
      ReadCalls.soRead (fun i => (w.script.headD []).getD i (.count n)) perror (n + 1) n
        ⟨fun i => b.bytes.getD i 0, errno, w.unread, []⟩ = some ((w.readBuffer b).br, c) ∧
      c.unread = (w.readBuffer b).wire.unread ∧
      (List.range n).map c.buffer = (w.readBuffer b).value.bytes := by
  have hscript : ReadCalls.Scripted (fun i => (w.script.headD []).getD i (.count n))
      (w.script.headD []) n (n + 1) ⟨fun i => b.bytes.getD i 0, errno, w.unread, []⟩ := by
    intro i _
    rw [List.length_nil, Nat.zero_add]
  obtain ⟨c, hrun, hunread, hbuffer, -⟩ :=
    ReadCalls.soRead_spec hscript (le_refl n) (Nat.lt_succ_self n) perror
  refine ⟨c, hrun, hunread, ?_⟩
  rw [hbuffer]
  exact map_store_buffer b _

/-- A `so_read` fails exactly where its first call does, not with EAGAIN. -/
theorem soRead_br_eq_neg_one_iff {stream : List UInt8} {len : Nat} {rs : List ReadResult} :
    (soRead stream len rs).br = -1 ↔ rs.head? = some .error := by
  unfold soRead
  cases rs with
  | nil => exact iff_of_false (by simp only [soReadCount]; omega) (by simp)
  | cons r rs =>
    cases r with
    | error => exact iff_of_true rfl rfl
    | eagain | count k => exact iff_of_false (by simp only [soReadCount]; omega) (by simp)

/-- **`so_read` delivers the stream.**  Whatever the calls of `read` return, it ends after at
most `len` turns of its loop and one that leaves it, with -1 only where the first call fails,
not with EAGAIN, and otherwise with the number of bytes that it has taken off the stream and
stored in their order, fewer than `len` only if a call has returned 0 or -1. -/
theorem so_read_delivers (results : Nat → ReadResult) (perror : Errno → Errno)
    (stream : List UInt8) (len : Nat) (buffer : Nat → UInt8) (errno : Errno) :
    ∃ (value : Int) (c : ReadCalls),
      (∀ fuel, len < fuel →
        ReadCalls.soRead results perror fuel len ⟨buffer, errno, stream, []⟩ = some (value, c)) ∧
      (value = -1 → results 0 = .error) ∧
      (value ≠ -1 → ∃ r : Nat, value = r ∧ r ≤ len ∧ r ≤ stream.length ∧
        (List.range r).map c.buffer = stream.take r ∧ c.unread = stream.drop r ∧
        (r < len → ∃ v ∈ c.returned, v = 0 ∨ v = -1)) := by
  -- the function does not look at more than `len + 1` results
  let rs := (List.range (len + 1)).map results
  have hrs : ReadCalls.Scripted results rs len (len + 1) ⟨buffer, errno, stream, []⟩ := by
    intro i hi
    simp [rs, hi]
  obtain ⟨c, hrun, hunread, hbuffer, hless⟩ :=
    ReadCalls.soRead_spec hrs (le_refl len) (Nat.lt_succ_self len) perror
  obtain ⟨n, hn, hbytes, hrest, hbr⟩ := soRead_spec stream len rs
  refine ⟨_, c, fun fuel hfuel => ReadCalls.soRead_mono hfuel hrun, fun hfailed => ?_,
    fun hok => ?_⟩
  · have hhead := soRead_br_eq_neg_one_iff.mp hfailed
    simpa [rs, List.range_succ_eq_map] using hhead
  · have hvalue : (soRead stream len rs).br = n := hbr.resolve_right fun h => hok h.2
    have hlength : (stream.take n).length = n := by
      rw [List.length_take]
      omega
    refine ⟨n, hvalue, by omega, by omega, ?_, hunread.trans hrest, fun h => hless (by
      rw [hvalue]
      omega)⟩
    have hmap := map_store buffer (stream.take n)
    rw [hlength] at hmap
    rw [hbuffer, hbytes, hmap]

example : (ReadCalls.soRead (fun i => [.eagain, .count 2, .count 5].getD i .error) id 3 3
    ⟨fun _ => 0, .other, [1, 2, 3, 4], []⟩).map (fun p => (p.1, p.2.returned, p.2.unread)) =
      some (3, [1, 2, -1], [4]) := by decide

end Mhftp
