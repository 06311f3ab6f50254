import Mhftp.Chunks
import Mhftp.Server

/-! # The check tool

`CheckDataChunks` goes through the local file from its front: it reads the chunks that are
CH_OK and steps over the others, without ever going to a place.  It finds the bytes of each
chunk, cut at the end of the file (`ChunkedFile.checkChunk_eq`): once a read has come to the end
of the file there is nothing more to read anywhere.  It marks the chunks whose bytes have an
MD5 other than the stored one, where their number is an int (`ChunkedFile.checkDataChunks_eq`).

A `read` gives all the bytes that it is asked for and that are there.
-/

namespace Mhftp
open Library

/-- There is no buffer of `chunkSize` bytes, and the read of `size` bytes into it fails: it would
store bytes that are there, or go beyond the address space. -/
def ReadsNowhere (chunkSize size : Int) (bytes : List UInt8) : Prop :=
  NoBlock chunkSize ∧ (bytes ≠ [] ∨ NoBlock size)

instance (chunkSize size : Int) (bytes : List UInt8) :
    Decidable (ReadsNowhere chunkSize size bytes) := inferInstanceAs (Decidable (_ ∧ (_ ∨ _)))

namespace Metadata
variable (md5 : Md5)

/-- One turn of the loop of `CheckDataChunks`: the position that it leaves, and the entry.
`none` where the process dies: it writes beyond its buffer, or `md5Buffer` takes a negative
length.  A read that fails returns -1; one of a negative size does. -/
def checkChunk (file : List UInt8) (chunkSize : Int) (pos : Nat) (c : ChunkInfo) :
    Option (Nat × ChunkInfo) :=
  if c.status = .chOk then
    let buffer := pread file pos c.size.toNat
    if c.size < 0 ∨ ReadsNowhere chunkSize c.size buffer ∨ chunkSize.toNat < buffer.length then none
    else (md5Buffer md5 buffer).map fun digest =>
      (pos + buffer.length, if digest ≠ c.md5sum then { c with status := .chError } else c)
  else some (seek pos (pos + c.size), c)

/-- The loop, from the position `pos` on. -/
def checkChunks (file : List UInt8) (chunkSize : Int) : Nat → List ChunkInfo →
    Option (List ChunkInfo)
  | _, [] => some []
  | pos, c :: cs =>
    (checkChunk md5 file chunkSize pos c).bind fun (pos, c) =>
      (checkChunks file chunkSize pos cs).map fun cs => c :: cs

/-- The .mdata file after `CheckDataChunks`, which saves the table if nobody uses it. -/
def checkDataChunks (m : Metadata) (file : List UInt8) : Option Metadata :=
  (checkChunks md5 file m.chunkSize 0 m.chunkInfo).map fun chunkInfo =>
    if m.inUse = 0 then { m with chunkInfo } else m

end Metadata

/-- `md5Buffer` takes the number of bytes for a negative one. -/
theorem Metadata.checkChunk_none (md5 : Md5) {file : List UInt8} {chunkSize : Int} {pos : Nat}
    {c : ChunkInfo} (hok : c.status = .chOk)
    (hlong : 2 ^ 31 ≤ (pread file pos c.size.toNat).length % 2 ^ 32) :
    checkChunk md5 file chunkSize pos c = none := by
  have hdigest : md5Buffer md5 (pread file pos c.size.toNat) = none := if_neg (not_lt.mpr hlong)
  simp only [checkChunk, hok, if_true, hdigest, Option.map_none, ite_self]

namespace ChunkedFile
variable (md5 : Md5) (src : ChunkedFile)

/-- The bytes of the file `g` at the place of chunk `k`, as far as there are any. -/
def slice (g : List UInt8) (k : Nat) : List UInt8 := pread g (k * src.chunkSize) (src.size k)

/-- The entry that a turn leaves: the digest is that of the bytes as far as `md5Buffer` takes
them. -/
def turned (g : List UInt8) (k : Nat) (c : ChunkInfo) : Option ChunkInfo :=
  if c.status = .chOk then
    if ReadsNowhere src.chunkSize c.size (src.slice g k) then none
    else (md5Buffer md5 (src.slice g k)).map fun digest =>
      if digest ≠ c.md5sum then { c with status := .chError } else c
  else some c

/-- The chunk is marked if its bytes have another MD5. -/
def checked (g : List UInt8) (k : Nat) (c : ChunkInfo) : ChunkInfo :=
  if c.status = .chOk ∧ md5 (src.slice g k) ≠ c.md5sum then { c with status := .chError } else c

/-- There is an entry of its size for each chunk. -/
structure Sizes (m : Metadata) : Prop where
  chunkSize : m.chunkSize = src.chunkSize
  entry : ∀ k (c : ChunkInfo), m.chunkInfo[k]? = some c → src.Has k ∧ c.size = src.size k

variable {src} {g : List UInt8} {k pos : Nat} {c : ChunkInfo}

theorem Has.size_eq (hk : src.Has (k + 1)) : src.size k = src.chunkSize := by
  have hlt := hk.lt
  rw [Nat.add_mul] at hlt
  unfold size
  omega

/-- The position of the loop before chunk `k`: its place, or somewhere before it, behind the
end of the file. -/
structure At (src : ChunkedFile) (g : List UInt8) (k pos : Nat) : Prop where
  le : pos ≤ k * src.chunkSize
  place : pos = k * src.chunkSize ∨ g.length ≤ pos

theorem At.pread_eq (hpos : src.At g k pos) : pread g pos (src.size k) = src.slice g k := by
  rcases hpos.place with rfl | hend
  · rfl
  · -- both read behind the end of the file
    have hle := hpos.le
    rw [slice, pread, pread, List.drop_of_length_le hend, List.drop_of_length_le (by omega)]

/-- A read, or a step, leads to the next chunk, if there is one. -/
theorem At.next (hpos : src.At g k pos) {n : Nat} (hn : n ≤ src.size k)
    (hread : n = src.size k ∨ g.length ≤ pos + n) (hk : src.Has (k + 1)) :
    src.At g (k + 1) (pos + n) := by
  have hle := hpos.le
  have hsize := hk.size_eq
  have hmul : (k + 1) * src.chunkSize = k * src.chunkSize + src.chunkSize := Nat.succ_mul _ _
  have hplace := hpos.place
  exact ⟨by omega, by omega⟩

/-- One turn of the loop: it finds the bytes of its chunk. -/
theorem checkChunk_eq (hlen : src.content.length < 2 ^ 63) (hk : src.Has k)
    (hsize : c.size = src.size k) (hpos : src.At g k pos) :
    ∃ pos', Metadata.checkChunk md5 g src.chunkSize pos c =
        (src.turned md5 g k c).map (fun c => (pos', c)) ∧
      (src.Has (k + 1) → src.At g (k + 1) pos') := by
  have hlt := hk.lt
  have hle := hpos.le
  unfold Metadata.checkChunk turned
  rw [hsize, Int.toNat_natCast, hpos.pread_eq]
  by_cases hok : c.status = .chOk
  · have hslice : (src.slice g k).length ≤ src.size k := List.length_take_le _ _
    have hmax := src.size_le k
    have hread : (src.slice g k).length = src.size k ∨
        g.length ≤ pos + (src.slice g k).length := by
      rw [← hpos.pread_eq, pread, List.length_take, List.length_drop]
      omega
    refine ⟨_, ?_, hpos.next hslice hread⟩
    rw [if_pos hok, if_pos hok]
    by_cases hnowhere : ReadsNowhere src.chunkSize (src.size k) (src.slice g k)
    · rw [if_pos (.inr (.inl hnowhere)), if_pos hnowhere, Option.map_none]
    · have hbuffer : ¬ ((src.size k : Int) < 0 ∨
          ReadsNowhere src.chunkSize (src.size k) (src.slice g k) ∨
          (src.chunkSize : Int).toNat < (src.slice g k).length) := by
        rintro (h | h | h)
        · omega
        · exact hnowhere h
        · omega
      rw [if_neg hbuffer, if_neg hnowhere, Option.map_map]
      rfl
  · refine ⟨pos + src.size k, ?_, hpos.next le_rfl (.inl rfl)⟩
    have hseek : seek pos ((pos : Int) + src.size k) = pos + src.size k := by
      have hmin : src.size k ≤ src.content.length - k * src.chunkSize := min_le_right _ _
      rw [← Int.natCast_add]
      exact seek_of_lt pos (by omega)
    rw [if_neg hok, if_neg hok, hseek]
    rfl

section Loop
variable {table table' : List ChunkInfo}

/-- A loop that comes to its end has taken a turn for each entry, and it comes to its end if
each turn does. -/
theorem checkChunks_eq_some_iff (hlen : src.content.length < 2 ^ 63)
    (hsizes : ∀ j (c : ChunkInfo), table[j]? = some c →
      src.Has (k + j) ∧ c.size = src.size (k + j))
    (hpos : src.Has k → src.At g k pos) :
    Metadata.checkChunks md5 g src.chunkSize pos table = some table' ↔
      table'.length = table.length ∧ ∀ j (c : ChunkInfo), table[j]? = some c →
        ∃ c', table'[j]? = some c' ∧ src.turned md5 g (k + j) c = some c' := by
  induction table generalizing k pos table' with
  | nil =>
    rw [Metadata.checkChunks, Option.some_inj, eq_comm, ← List.length_eq_zero_iff]
    exact (and_iff_left nofun).symm
  | cons c table ih =>
    obtain ⟨hk, hsize⟩ := hsizes 0 c rfl
    obtain ⟨pos', hcheck, hnext⟩ := checkChunk_eq md5 hlen hk hsize (hpos hk)
    have hshift (j : Nat) : k + (j + 1) = k + 1 + j := by omega
    have hrest {rest : List ChunkInfo} :
        Metadata.checkChunks md5 g src.chunkSize pos' table = some rest ↔ _ :=
      ih (fun j c hj => hshift j ▸ hsizes (j + 1) c hj) hnext
    rw [Metadata.checkChunks, hcheck, Option.bind_eq_some_iff]
    constructor
    · rintro ⟨_, hturn, htable⟩
      obtain ⟨c', hturned, rfl⟩ := Option.map_eq_some_iff.mp hturn
      obtain ⟨rest, hscan, rfl⟩ := Option.map_eq_some_iff.mp htable
      obtain ⟨hlength, hall⟩ := hrest.mp hscan
      refine ⟨congrArg Nat.succ hlength, fun j d hj => ?_⟩
      cases j with
      | zero =>
        obtain rfl := Option.some.inj hj
        exact ⟨c', rfl, hturned⟩
      | succ j => exact hshift j ▸ hall j d hj
    · rintro ⟨hlength, hall⟩
      obtain ⟨c', hc', hturned⟩ := hall 0 c rfl
      cases table' with
      | nil => cases hc'
      | cons d rest =>
        obtain rfl := Option.some.inj hc'
        have hscan := hrest.mpr
          ⟨Nat.succ.inj hlength, fun j e hj => hshift j ▸ hall (j + 1) e hj⟩
        exact ⟨_, Option.map_eq_some_iff.mpr ⟨d, hturned, rfl⟩,
          Option.map_eq_some_iff.mpr ⟨rest, hscan, rfl⟩⟩

/-- The same for a whole table. -/
theorem Sizes.checkChunks_eq_some_iff {m : Metadata} (hm : src.Sizes m)
    (hlen : src.content.length < 2 ^ 63) :
    Metadata.checkChunks md5 g m.chunkSize 0 m.chunkInfo = some table' ↔
      table'.length = m.chunkInfo.length ∧ ∀ k (c : ChunkInfo), m.chunkInfo[k]? = some c →
        ∃ c', table'[k]? = some c' ∧ src.turned md5 g k c = some c' := by
  have hentry : ∀ j (c : ChunkInfo), m.chunkInfo[j]? = some c →
      src.Has (0 + j) ∧ c.size = src.size (0 + j) := by
    intro j c hj
    rw [Nat.zero_add]
    exact hm.entry j c hj
  have hscan : Metadata.checkChunks md5 g src.chunkSize 0 m.chunkInfo = some table' ↔ _ :=
    ChunkedFile.checkChunks_eq_some_iff md5 hlen hentry
      fun _ => ⟨Nat.zero_le _, .inl (Nat.zero_mul _).symm⟩
  simpa only [Nat.zero_add, hm.chunkSize] using hscan

/-- The damaged chunks are marked and nothing else is done exactly if each turn does so. -/
theorem Sizes.checkChunks_checked_iff {m : Metadata} (hm : src.Sizes m)
    (hlen : src.content.length < 2 ^ 63) :
    Metadata.checkChunks md5 g m.chunkSize 0 m.chunkInfo =
        some (m.chunkInfo.mapIdx (src.checked md5 g)) ↔
      ∀ k (c : ChunkInfo), m.chunkInfo[k]? = some c →
        src.turned md5 g k c = some (src.checked md5 g k c) := by
  rw [hm.checkChunks_eq_some_iff md5 hlen, and_iff_right List.length_mapIdx]
  refine forall_congr' fun k => forall_congr' fun c => forall_congr' fun hk => ?_
  rw [List.getElem?_mapIdx, hk]
  constructor
  · rintro ⟨c', hc', hturned⟩
    rw [hturned, ← Option.some.inj hc']
  · exact fun hturned => ⟨_, rfl, hturned⟩

end Loop

theorem size_of_turned {c' : ChunkInfo} (h : src.turned md5 g k c = some c') :
    c'.size = c.size := by
  unfold turned at h
  split at h
  · split at h
    · cases h
    · obtain ⟨digest, -, rfl⟩ := Option.map_eq_some_iff.mp h
      split <;> rfl
  · rw [Option.some.inj h]

theorem length_slice_le : (src.slice g k).length ≤ src.chunkSize :=
  (List.length_take_le _ _).trans (src.size_le k)

/-- Where the chunk size is an int, so is the length of what is read. -/
theorem turned_eq_checked (hint : src.chunkSize < 2 ^ 31) :
    src.turned md5 g k c = some (src.checked md5 g k c) := by
  have hslice := src.length_slice_le (g := g) (k := k)
  have hnowhere : ¬ ReadsNowhere src.chunkSize c.size (src.slice g k) := fun h => by
    have := h.1
    unfold NoBlock at this
    omega
  unfold turned checked
  by_cases hok : c.status = .chOk
  · rw [if_pos hok, if_neg hnowhere, md5Buffer_of_lt md5 (by omega), Option.map_some]
    simp only [hok, true_and]
  · rw [if_neg hok, if_neg fun h => hok h.1]

/-- **What the check tool marks**: exactly the chunks whose bytes in the local file have an
MD5 other than the stored one. -/
theorem checkDataChunks_eq (hlen : src.content.length < 2 ^ 63) (hint : src.chunkSize < 2 ^ 31)
    {m : Metadata} (hm : src.Sizes m) (g : List UInt8) (hfree : m.inUse = 0) :
    m.checkDataChunks md5 g =
      some { m with chunkInfo := m.chunkInfo.mapIdx (src.checked md5 g) } := by
  have hscan := (hm.checkChunks_checked_iff md5 (g := g) hlen).mpr
    fun _ _ _ => turned_eq_checked md5 hint
  rw [Metadata.checkDataChunks, hscan, Option.map_some, if_pos hfree]

end ChunkedFile
end Mhftp
