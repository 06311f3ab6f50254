import Mhftp.ChunkRequest
import Mhftp.MetadataPipeline

/-! # What a server sends of its memory

`LoadChunkFromFile` allocates as many bytes as the header says, reads into them and does not
look at how many it gets; as many of them are sent as one `write` moves.  Two runs that differ
only in what the fresh memory holds send the same bytes as long as the file has what is asked
for (`Backed`).

The memory is as large as the address space: `malloc` fails for sizes that are negative or go
beyond that (`NoBlock`).
-/

namespace Mhftp
open Library

/-- Two runs of up to `n` steps that differ in what the memory holds, and in how the bytes
come in pieces, send the same. -/
def SendsAlike (md5 : Md5) (s : Session) (n : Nat) : Prop :=
  ∀ as bs : List SessionAct, as.length ≤ n → bs.length = as.length →
    (∀ a ∈ as, a.InPieces) → (∀ b ∈ bs, b.InPieces) →
    ((Session.machine md5).run s as).map Session.sent =
      ((Session.machine md5).run s bs).map Session.sent

section Alike
variable {md5 : Md5} {s s' : Session} {n : Nat}

theorem sendsAlike_zero : SendsAlike md5 s 0 := by
  intro as bs ha hb _ _
  obtain rfl := List.length_eq_zero_iff.mp (Nat.le_zero.mp ha)
  obtain rfl := List.length_eq_zero_iff.mp hb
  rfl

/-- A process that has ended sends nothing. -/
theorem sendsAlike_over (hpc : s.server.pc = .exited ∨ s.server.pc = .faulted) :
    SendsAlike md5 s n := by
  have hstuck : ∀ a, a.InPieces → s.step md5 a = none := by
    intro a ha
    cases a with
    | files => exact ha.elim
    | serve junk script =>
      unfold Session.step MhProtoServer.step
      rcases hpc with hpc | hpc <;> rw [hpc] <;> rfl
  intro as bs _ hlen ha hb
  cases as with
  | nil =>
    obtain rfl := List.length_eq_zero_iff.mp hlen
    rfl
  | cons a as =>
    obtain ⟨b, bs, rfl⟩ := List.exists_cons_of_length_eq_add_one hlen
    have hnone : ∀ c cs, c.InPieces → (Session.machine md5).run s (c :: cs) = none := by
      intro c cs hc
      simp [Machine.run, Session.machine, hstuck c hc]
    rw [hnone a as (ha a List.mem_cons_self), hnone b bs (hb b List.mem_cons_self)]

/-- A step that does not depend on the memory. -/
theorem sendsAlike_succ_of_step (hstep : ∀ a, a.InPieces → s.step md5 a = some s') :
    SendsAlike md5 s (n + 1) ↔ SendsAlike md5 s' n := by
  have hrun : ∀ a as, a.InPieces →
      (Session.machine md5).run s (a :: as) = (Session.machine md5).run s' as :=
    fun a as ha => Machine.run_cons_of_step (hstep a ha) as
  constructor
  · intro h as bs hn hlen ha hb
    have hserve : (SessionAct.serve (fun _ => 0) []).InPieces := nofun
    have hcons := h (.serve (fun _ => 0) [] :: as) (.serve (fun _ => 0) [] :: bs)
      (by simpa using hn) (by simpa using hlen) (List.forall_mem_cons.mpr ⟨hserve, ha⟩)
      (List.forall_mem_cons.mpr ⟨hserve, hb⟩)
    rwa [hrun _ _ hserve, hrun _ _ hserve] at hcons
  · intro h as bs hn hlen ha hb
    cases as with
    | nil =>
      obtain rfl := List.length_eq_zero_iff.mp hlen
      rfl
    | cons a as =>
      obtain ⟨b, bs, rfl⟩ := List.exists_cons_of_length_eq_add_one hlen
      rw [hrun _ _ (ha a List.mem_cons_self), hrun _ _ (hb b List.mem_cons_self)]
      exact h as bs (by simpa using hn) (by simpa using hlen)
        (fun c hc => ha c (List.mem_cons_of_mem _ hc))
        (fun c hc => hb c (List.mem_cons_of_mem _ hc))

end Alike

/-- The digest of a chunk does not depend on the memory behind what one `read` moves, where
the int that `md5Buffer` takes for its size goes beyond that. -/
def DigestSettled (md5 : Md5) (content : List UInt8) (start size : Nat) : Prop :=
  size % 2 ^ 32 ≤ maxCount ∨ ∀ xs ys : List UInt8, xs.length = size % 2 ^ 32 - maxCount →
    ys.length = xs.length →
    md5 (pread content start maxCount ++ xs) = md5 (pread content start maxCount ++ ys)

/-- The file has the bytes that are asked for: for each request one `read` finds as many bytes
in the file as it can move of the chunk, and the digest is that of these; or the process ends,
because there is no memory of such a size, or the size is negative as an int.  `pos` is where
the file was left. -/
def Backed (md5 : Md5) (h : Header) (content : List UInt8) : Nat → List Nat → Prop
  | _, [] => True
  | pos, k :: ks =>
    let size := payLoad h.fileSize h.chunkSize k
    let start := seek pos (k * h.chunkSize)
    NoBlock size ∨ 2 ^ 31 ≤ size.toNat % 2 ^ 32 ∨
      (min size.toNat maxCount ≤ content.length - start ∧
        DigestSettled md5 content start size.toNat ∧
        Backed md5 h content (start + min size.toNat maxCount) ks)

/-- The process is in the loop of `SendChunkToClient`, with a file and a position. -/
structure Answering (h : Header) (content : List UInt8) (file : Path) (pos : Nat) (s : Session) :
    Prop where
  pc : s.server.pc = .sendChunk file mhRetry pos
  metadata : s.server.metadata = h
  content : s.dir.content file = content

/-- The next request is for chunk `k`. -/
structure Requested (h : Header) (content : List UInt8) (file : Path) (pos : Nat) (s : Session)
    (req : Buffer 7) (ys : List UInt8) (k : Nat) : Prop extends Answering h content file pos s where
  unread : s.unread = req.bytes ++ ys
  number : atoi req.bytes = k
  chunks : (k : Int) < h.chunks

/-- There is memory for the chunk, and its size is not negative as an int. -/
structure Buffered (h : Header) (content : List UInt8) (file : Path) (pos : Nat) (s : Session)
    (req : Buffer 7) (ys : List UInt8) (k start size : Nat) : Prop
    extends Requested h content file pos s req ys k where
  place : seek pos (k * h.chunkSize) = start
  payLoad : payLoad h.fileSize h.chunkSize k = size
  block : ¬ NoBlock size
  int : size % 2 ^ 32 < 2 ^ 31

section Load
variable {junk : Nat → UInt8} {content : List UInt8} {start size : Nat}

theorem length_pread_of_le (h : min size maxCount ≤ content.length - start) :
    (pread content start (min size maxCount)).length = min size maxCount := by
  rw [pread, List.length_take, List.length_drop]
  omega

/-- What is sent of a chunk, where one `read` finds what it can move. -/
theorem take_loadChunkFromFile (h : min size maxCount ≤ content.length - start) :
    (loadChunkFromFile junk content start size).take maxCount =
      pread content start (min size maxCount) := by
  have hlen := length_pread_of_le h
  unfold loadChunkFromFile
  dsimp only
  rw [hlen]
  rcases le_total size maxCount with hle | hle
  · rw [min_eq_left hle, Nat.sub_self, List.take_of_length_le]
    · exact List.append_nil _
    · rw [List.length_append, length_unset, Nat.add_zero, ← min_eq_left hle, hlen, min_eq_left hle]
      exact hle
  · rw [min_eq_right hle]
    rw [min_eq_right hle] at hlen
    exact List.take_left' hlen

/-- Where it does not, the rest is what the memory held. -/
theorem take_loadChunkFromFile_ne (h : content.length - start < min size maxCount) :
    (loadChunkFromFile (fun _ => 0) content start size).take maxCount ≠
      (loadChunkFromFile (fun _ => 1) content start size).take maxCount := by
  have hlen : (pread content start (min size maxCount)).length = content.length - start := by
    rw [pread, List.length_take, List.length_drop]
    omega
  have hbyte (junk : Nat → UInt8) :
      ((loadChunkFromFile junk content start size).take maxCount)[content.length - start]? =
        some (junk (content.length - start)) := by
    unfold loadChunkFromFile
    dsimp only
    rw [hlen, List.getElem?_take_of_lt (by omega), List.getElem?_append_right hlen.le, hlen,
      Nat.sub_self, unset, List.getElem?_map, List.getElem?_range (by omega)]
    rfl
  intro heq
  have hzero := (hbyte fun _ => 0).symm.trans (heq ▸ hbyte fun _ => 1)
  cases hzero

/-- The bytes that the digest of a chunk is taken of, where they go beyond one `read`. -/
theorem take_digest (h : maxCount ≤ content.length - start) (hlen : maxCount < size % 2 ^ 32) :
    (loadChunkFromFile junk content start size).take (size % 2 ^ 32) =
      pread content start maxCount ++ unset junk maxCount (size % 2 ^ 32 - maxCount) := by
  have hmod : size % 2 ^ 32 ≤ size := Nat.mod_le _ _
  have hmin : min size maxCount = maxCount := min_eq_right (by omega)
  have hread : (pread content start maxCount).length = maxCount := by
    rw [← hmin, length_pread_of_le (by omega), hmin]
  unfold loadChunkFromFile
  dsimp only
  rw [hmin, hread, List.take_append, hread, List.take_of_length_le (by omega)]
  congr 1
  unfold unset
  rw [← List.map_take, List.take_range]
  congr 2
  omega

/-- Memory that holds these bytes from a place on. -/
theorem unset_of_bytes (xs : List UInt8) (start : Nat) :
    unset (fun i => (xs[i - start]?).getD 0) start xs.length = xs := by
  refine List.ext_getElem (by simp) fun i h₁ h₂ => ?_
  simp [unset, h₂]

/-- **The digest does not depend on the memory** exactly if it is settled. -/
theorem digestSettled_iff (md5 : Md5) (h : min size maxCount ≤ content.length - start) :
    DigestSettled md5 content start size ↔ ∀ junk junk' : Nat → UInt8,
      md5 ((loadChunkFromFile junk content start size).take (size % 2 ^ 32)) =
        md5 ((loadChunkFromFile junk' content start size).take (size % 2 ^ 32)) := by
  by_cases hle : size % 2 ^ 32 ≤ maxCount
  · -- the digest is taken of bytes that are sent
    refine iff_of_true (.inl hle) fun junk junk' => ?_
    have hsent (junk : Nat → UInt8) :
        (loadChunkFromFile junk content start size).take (size % 2 ^ 32) =
          (pread content start (min size maxCount)).take (size % 2 ^ 32) := by
      have htake : (loadChunkFromFile junk content start size).take maxCount = _ :=
        take_loadChunkFromFile h
      rw [← htake, List.take_take, min_eq_left hle]
    rw [hsent, hsent]
  · have hmod : size % 2 ^ 32 ≤ size := Nat.mod_le _ _
    have hmax : maxCount ≤ content.length - start := by omega
    rw [DigestSettled, or_iff_right hle]
    simp only [take_digest hmax (by omega : maxCount < size % 2 ^ 32)]
    constructor
    · intro hall junk junk'
      exact hall _ _ (length_unset _ _ _) (by rw [length_unset, length_unset])
    · intro hall xs ys hxs hys
      have heq := hall (fun i => (xs[i - maxCount]?).getD 0) fun i => (ys[i - maxCount]?).getD 0
      rw [← hxs, unset_of_bytes] at heq
      rw [heq, ← hys, unset_of_bytes]

end Load

section Loop
variable (md5 : Md5) {h : Header} {content : List UInt8} {file : Path} {pos k n : Nat}
  {s : Session} {req : Buffer 7} {ys : List UInt8} {start size : Nat}

/-- A request is answered, as far as there is memory. -/
theorem Requested.step_answer (hs : Requested h content file pos s req ys k)
    (hblock : ¬ NoBlock (payLoad h.fileSize h.chunkSize k)) (junk : Nat → UInt8) :
    s.server.step md5 junk s.dir ⟨s.unread, [], s.short⟩ =
      let start := seek pos (k * h.chunkSize)
      let size := (payLoad h.fileSize h.chunkSize k).toNat
      some (s.server.writeAnswer md5
        (.sendChunk file mhRetry (start + (pread content start (min size maxCount)).length))
        (loadChunkFromFile junk content start size) s.dir ⟨ys, [], s.short⟩) := by
  have hfull : ((Wire.mk s.unread [] s.short).readBuffer (Buffer.zero 7)).br = 7 := by
    simp [Wire.readBuffer, Wire.soRead_clean, hs.unread, req.length]
  have hturn : s.server.sendChunkTurn md5 junk file mhRetry pos s.dir
      ⟨s.unread, [], s.short⟩ = _ :=
    sendChunkTurn_of_full md5 junk hs.unread hfull hs.number (hs.metadata ▸ hs.chunks)
      (hs.metadata ▸ hblock)
  unfold MhProtoServer.step
  rw [hs.pc]
  simp only [hturn, hs.metadata, hs.content]
  rfl

/-- There is no memory of such a size, and `MD5_Update` takes no negative one. -/
theorem Requested.step_ends (hs : Requested h content file pos s req ys k)
    (hsize : NoBlock (payLoad h.fileSize h.chunkSize k) ∨
      2 ^ 31 ≤ (payLoad h.fileSize h.chunkSize k).toNat % 2 ^ 32) :
    ∃ pc, (pc = .exited ∨ pc = .faulted) ∧ ∀ junk,
      s.server.step md5 junk s.dir ⟨s.unread, [], s.short⟩ =
        some ⟨s.server.goto pc, s.dir, ⟨ys, [], s.short⟩, []⟩ := by
  by_cases hneg : NoBlock (payLoad h.fileSize h.chunkSize k)
  · refine ⟨.exited, .inl rfl, fun junk => ?_⟩
    have hread : (Wire.mk s.unread [] s.short).readBuffer (Buffer.zero 7) =
        ⟨7, req, ⟨ys, [], s.short⟩⟩ := by
      rw [hs.unread]
      exact Wire.readBuffer_clean
    unfold MhProtoServer.step
    rw [hs.pc]
    have hchunks := hs.chunks
    simp only [MhProtoServer.sendChunkTurn, hread, hs.metadata, hs.number, Int.toNat_natCast]
    rw [if_neg (by decide), if_neg (by omega), if_neg (by omega), if_pos hneg]
  · refine ⟨.faulted, .inr rfl, fun junk => ?_⟩
    have hint := hsize.resolve_left hneg
    rw [hs.step_answer md5 hneg junk]
    dsimp only
    rw [MhProtoServer.writeAnswer, md5Buffer, length_loadChunkFromFile, if_neg (by omega)]

/-- What is sent for a request whose size has memory and is not negative as an int. -/
theorem Buffered.step_sends (hs : Buffered h content file pos s req ys k start size)
    (junk : Nat → UInt8) :
    s.server.step md5 junk s.dir ⟨s.unread, [], s.short⟩ = some
      ⟨s.server.goto
          (.sendChunk file mhRetry (start + (pread content start (min size maxCount)).length)),
        s.dir, ⟨ys, [], s.short⟩,
        (md5 ((loadChunkFromFile junk content start size).take (size % 2 ^ 32))).bytes ++
          (encodeInt 8 size ++ (loadChunkFromFile junk content start size).take maxCount)⟩ := by
  rw [hs.step_answer md5 (hs.payLoad ▸ hs.block) junk]
  dsimp only
  rw [hs.place, hs.payLoad, Int.toNat_natCast, MhProtoServer.writeAnswer, md5Buffer,
    length_loadChunkFromFile, if_pos hs.int]
  dsimp only
  rw [sentMessage, length_loadChunkFromFile]

/-- What is asked for is in the file: the step does not depend on the memory. -/
theorem Buffered.step_backed (hs : Buffered h content file pos s req ys k start size)
    (hle : min size maxCount ≤ content.length - start)
    (hsettled : DigestSettled md5 content start size) :
    ∃ s', (∀ a : SessionAct, a.InPieces → s.step md5 a = some s') ∧ s'.unread = ys ∧
      Answering h content file (start + min size maxCount) s' := by
  let digest := md5 ((loadChunkFromFile (fun _ => 0) content start size).take (size % 2 ^ 32))
  refine ⟨s.after ⟨s.server.goto (.sendChunk file mhRetry (start + min size maxCount)), s.dir,
    ⟨ys, [], s.short⟩, digest.bytes ++ (encodeInt 8 size ++
      pread content start (min size maxCount))⟩, fun a ha => ?_, ?_⟩
  · obtain ⟨junk, hserve⟩ := ha.step md5
    have hstep := hs.step_sends md5 junk
    rw [take_loadChunkFromFile hle, length_pread_of_le hle,
      (digestSettled_iff md5 hle).mp hsettled junk fun _ => 0] at hstep
    exact hserve hstep
  · exact ⟨rfl, rfl, hs.metadata, hs.content⟩

/-- What is asked for goes beyond the file, or its digest depends on the memory. -/
theorem Buffered.not_sendsAlike (hs : Buffered h content file pos s req ys k start size)
    (hno : ¬ (min size maxCount ≤ content.length - start ∧
      DigestSettled md5 content start size)) : ¬ SendsAlike md5 s (n + 1) := by
  intro halike
  have hpieces : ∀ junk, ∀ a ∈ [SessionAct.serve junk []], a.InPieces := by
    intro junk
    rw [List.forall_mem_singleton]
    intro rs hrs
    cases hrs
  have hsent (junk : Nat → UInt8) : ((Session.machine md5).run s [.serve junk []]).map
      Session.sent = some (s.sent ++
        ((md5 ((loadChunkFromFile junk content start size).take (size % 2 ^ 32))).bytes ++
          (encodeInt 8 size ++ (loadChunkFromFile junk content start size).take maxCount))) := by
    have hstep := hs.step_sends md5 junk
    simp only [Machine.run, Session.machine, Session.step, hstep, Option.map_some, Option.bind_some]
    rfl
  -- two messages that are the same have the same digest and the same data
  have hsame (junk junk' : Nat → UInt8) :
      md5 ((loadChunkFromFile junk content start size).take (size % 2 ^ 32)) =
          md5 ((loadChunkFromFile junk' content start size).take (size % 2 ^ 32)) ∧
        (loadChunkFromFile junk content start size).take maxCount =
          (loadChunkFromFile junk' content start size).take maxCount := by
    have heq := halike [.serve junk []] [.serve junk' []] (Nat.le_add_left 1 n) rfl (hpieces _)
      (hpieces _)
    rw [hsent, hsent, Option.some.injEq] at heq
    obtain ⟨hdigest, hrest⟩ := List.append_inj (List.append_cancel_left heq)
      ((md5 _).length.trans (md5 _).length.symm)
    exact ⟨Buffer.ext hdigest, List.append_cancel_left hrest⟩
  by_cases hle : min size maxCount ≤ content.length - start
  · exact hno ⟨hle, (digestSettled_iff md5 hle).mpr fun junk junk' => (hsame junk junk').1⟩
  · exact take_loadChunkFromFile_ne (not_le.mp hle) (hsame _ _).2

/-- **The loop.** -/
theorem Answering.sendsAlike_iff {requests : List (Buffer 7)}
    (hs : Answering h content file pos s)
    (hrequests : ∀ r ∈ requests, 0 ≤ atoi r.bytes ∧ atoi r.bytes < h.chunks)
    (hu : s.unread = requests.flatMap Buffer.bytes ++ ys) :
    SendsAlike md5 s requests.length ↔
      Backed md5 h content pos (requests.map fun r => (atoi r.bytes).toNat) := by
  induction requests generalizing s pos with
  | nil => exact iff_of_true sendsAlike_zero trivial
  | cons r requests ih =>
    obtain ⟨hnonneg, hchunks⟩ := hrequests r List.mem_cons_self
    have hrest := fun q hq => hrequests q (List.mem_cons_of_mem r hq)
    obtain ⟨k, hk⟩ := Int.eq_ofNat_of_zero_le hnonneg
    rw [hk] at hchunks
    rw [List.flatMap_cons, List.append_assoc] at hu
    rw [List.length_cons, List.map_cons, hk, Int.toNat_natCast, Backed, ← or_assoc]
    have hrequested : Requested h content file pos s r (requests.flatMap Buffer.bytes ++ ys) k :=
      ⟨hs, hu, hk, hchunks⟩
    by_cases hends : NoBlock (payLoad h.fileSize h.chunkSize k) ∨
        2 ^ 31 ≤ (payLoad h.fileSize h.chunkSize k).toNat % 2 ^ 32
    · -- the process ends
      refine iff_of_true ?_ (.inl hends)
      obtain ⟨pc, hpc, hstep⟩ := hrequested.step_ends md5 hends
      let gone := s.after ⟨s.server.goto pc, s.dir,
        ⟨requests.flatMap Buffer.bytes ++ ys, [], s.short⟩, []⟩
      have hover : SendsAlike md5 gone requests.length := sendsAlike_over hpc
      refine (sendsAlike_succ_of_step fun a ha => ?_).mpr hover
      obtain ⟨junk, hserve⟩ := ha.step md5
      exact hserve (hstep junk)
    rw [or_iff_right hends]
    rw [not_or, not_le] at hends
    obtain ⟨size, hsize⟩ := Int.eq_ofNat_of_zero_le (not_lt.mp (not_or.mp hends.1).1)
    obtain ⟨start, hstart⟩ : ∃ n, seek pos (k * h.chunkSize) = n := ⟨_, rfl⟩
    rw [hsize, Int.toNat_natCast] at hends ⊢
    rw [hstart, ← and_assoc]
    have hbuffered : Buffered h content file pos s r _ k start size :=
      ⟨hrequested, hstart, hsize, hends.1, hends.2⟩
    by_cases hback : min size maxCount ≤ content.length - start ∧
        DigestSettled md5 content start size
    · obtain ⟨s', hstep, hu', hs'⟩ := hbuffered.step_backed md5 hback.1 hback.2
      rw [sendsAlike_succ_of_step hstep, ih hs' hrest hu', and_iff_right hback]
    · exact iff_of_false (hbuffered.not_sendsAlike md5 hback) fun h => hback h.1

end Loop

/-- The header of a file "a" of two bytes in one chunk. -/
def sampleShrunkHeader : Header := ⟨Buffer.zero _, 2, (Buffer.zero _).overlay [97], 2, 1⟩

/-- A request for that chunk, of a file that is there. -/
def sampleShrunk (content : List UInt8) : Session :=
  .accept sampleShrunkHeader [] (Buffer.zero _)
    (fun p => if p = [97] then some (.file content) else none)
    (1 :: (sampleShrunkHeader.writeMetadataHeader ++
      ([requestChunk 0].flatMap Buffer.bytes ++ [])))

end Mhftp
