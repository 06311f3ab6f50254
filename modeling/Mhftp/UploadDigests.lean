import Mhftp.CheckTool
import Mhftp.UploadCompletion

/-! # The digests that an upload stores

A worker that has sent a chunk stores `snd_md5sum` with CH_OK, an array that nobody writes.
What the check tool finds later is right as long as the memory happened to hold the MD5 of
every chunk that the worker sends (`upload_digests_iff`).
-/

namespace Mhftp.Upload
open Library

/-- An entry that the check tool has nothing to say about. -/
structure RightEntry (md5 : Md5) (src : ChunkedFile) (k : Nat) (c : ChunkInfo) : Prop where
  has : src.Has k
  size : c.size = src.size k
  md5sum : c.status = .chOk → c.md5sum = md5 (src.chunk k)

/-- The CH_OK chunks of a table have the MD5 of their bytes. -/
def RightSums (md5 : Md5) (src : ChunkedFile) (table : List ChunkInfo) : Prop :=
  ∀ (k : Nat) c, table[k]? = some c → c.status = .chOk → c.md5sum = md5 (src.chunk k)

/-- Every CH_OK chunk has the MD5 of its bytes, and the check tool, which saves what it
finds once the file is not in use, changes nothing. -/
structure Digested (md5 : Md5) (src : ChunkedFile) (s : State) : Prop where
  md5sum : RightSums md5 src s.table
  check : ∀ m, s.mdata = some m →
    (m.setInUse 0).checkDataChunks md5 s.localFile = some (m.setInUse 0)

/-- A worker that is about to set its chunk to CH_OK holds the chunk's MD5 in `snd_md5sum`. -/
def DigestSet (md5 : Md5) (src : ChunkedFile) (s : State) : Act → State → Prop
  | .worker w .update, _ =>
    ∀ k ∈ (s.workers w).pc.sent, (s.workers w).snd_md5sum = md5 (src.chunk k)
  | _, _ => True

instance (md5 : Md5) (src : ChunkedFile) (s s' : State) :
    (a : Act) → Decidable (DigestSet md5 src s a s')
  | .worker w .update => inferInstanceAs (Decidable (∀ k ∈ (s.workers w).pc.sent,
      (s.workers w).snd_md5sum = md5 (src.chunk k)))
  | .worker _ (.open _) | .worker _ .lock | .worker _ .load | .worker _ .claim
  | .worker _ (.giveUp _) | .worker _ .release | .worker _ (.send _) | .worker _ .sigpipe
  | .worker _ .test | .parent _ | .server _ _ _ => isTrue trivial

section Entries
variable {md5 : Md5} {src : ChunkedFile} {k : Nat} {c : ChunkInfo}

theorem RightEntry.mark (h : RightEntry md5 src k c) : RightEntry md5 src k (rules.mark c) where
  has := h.has
  size := h.size
  md5sum := fun hok => by cases hok

theorem RightEntry.settle (h : RightEntry md5 src k c) {failed : Bool} {digest : Digest}
    (hdigest : digest = md5 (src.chunk k)) :
    RightEntry md5 src k (rules.settle (failed, digest) c) where
  has := h.has
  size := h.size
  md5sum := fun _ => hdigest

/-- Right entries are left as they are. -/
theorem RightEntry.checked (h : RightEntry md5 src k c) :
    src.checked md5 src.content k c = c := by
  refine if_neg fun ⟨hok, hne⟩ => ?_
  rw [h.md5sum hok] at hne
  exact hne rfl

theorem checkDataChunks_right {m : Metadata} (hlen : src.content.length < 2 ^ 63)
    (hint : src.chunkSize < 2 ^ 31) (hsize : m.chunkSize = src.chunkSize)
    (h : ∀ k c, m.chunkInfo[k]? = some c → RightEntry md5 src k c) :
    (m.setInUse 0).checkDataChunks md5 src.content = some (m.setInUse 0) := by
  rw [ChunkedFile.checkDataChunks_eq md5 hlen hint
    (m := m.setInUse 0) ⟨hsize, fun k c hc => ⟨(h k c hc).has, (h k c hc).size⟩⟩ _ rfl]
  have hsame : m.chunkInfo.mapIdx (src.checked md5 src.content) = m.chunkInfo := by
    refine List.ext_getElem? fun k => ?_
    rw [List.getElem?_mapIdx]
    cases hc : m.chunkInfo[k]? with
    | none => rfl
    | some c => exact congrArg some (h k c hc).checked
  exact congrArg (fun t => some { m.setInUse 0 with chunkInfo := t }) hsame

end Entries

section Run
variable {md5 : Md5} {src : Source} {t₀ : List ChunkInfo} {s s' : State} {a : Act}

/-- What holds in a run whose digests are set. -/
structure RightRun (md5 : Md5) (src : Source) (t₀ : List ChunkInfo) (s : State) : Prop extends
    src.Described t₀ s where
  int : src.chunkSize < 2 ^ 31
  start : ∀ k c, t₀[k]? = some c → RightEntry md5 src.toChunkedFile k c
  entries : ClaimTable.Entries (RightEntry md5 src.toChunkedFile) (view s)

theorem RightRun.digested (hs : RightRun md5 src t₀ s) : Digested md5 src.toChunkedFile s where
  md5sum := fun k c hc => (hs.entries.table k c hc).md5sum
  check := fun m hm => by
    rw [hs.localFile]
    refine checkDataChunks_right src.length_lt hs.int (hs.mdata m hm).chunkSize fun k c hc => ?_
    rw [← State.table_of_some hm] at hc
    exact hs.entries.table k c hc

theorem rightRun_step (hs : RightRun md5 src t₀ s) (ha : DigestSet md5 src.toChunkedFile s a s')
    (h : (machine md5).step s a = some s') : RightRun md5 src t₀ s' where
  toDescribed := Source.described_step hs.toDescribed h
  int := hs.int
  start := hs.start
  entries := by
    apply (view_step hs.toOrderly h).preserves hs.entries
    intro b hb hstep
    refine ClaimTable.entries_step hs.entries (fun _ _ k c _ _ _ _ => RightEntry.mark) ?_ ?_ hstep
    · -- the worker stores what its `snd_md5sum` holds
      rintro w o k c rfl hholds hc
      obtain ⟨rfl, rfl⟩ := (label_write hb).2.1 w o rfl
      refine hc.settle ?_
      cases step_cases h with
      | @update _ j m hw =>
        have hchunk := (phase_holds _).symm.trans hholds
        rw [hw] at hchunk
        obtain rfl : j = k := Option.some.inj hchunk
        exact ha j (by rw [hw]; rfl)
    · -- the parent saves the table of the start
      rintro t k c rfl hc
      obtain ⟨-, -, rfl⟩ := hs.toOrderly.overwrites h hb
      exact hs.start k c hc

/-- A chunk that is finished with another digest is not right. -/
theorem RightRun.digestSet (hs : RightRun md5 src t₀ s)
    (h : (machine md5).step s a = some s') (hd : Digested md5 src.toChunkedFile s') :
    DigestSet md5 src.toChunkedFile s a s' := by
  unfold DigestSet
  split
  · next w =>
    intro k hsent
    have hw : (s.workers w).pc = .updateLoaded k := by
      cases step_cases h with
      | update hw =>
        rw [hw] at hsent ⊢
        exact congrArg _ (Option.some.inj hsent)
    have hk : k < (s.workers w).metadata.chunkInfo.length := by
      have hcopy := hs.sized.copy w (s.workers w).metadata.chunkInfo (by simp [view, phase, hw,
        ClaimTable.Phase.copy])
      rw [hcopy]
      exact hs.sized.holds w k (by simp [view, phase, hw, ClaimTable.Phase.holds])
    have hc : s'.table[k]? = some (Metadata.setStatus .chOk (some (s.workers w).snd_md5sum)
        (s.workers w).metadata.chunkInfo[k]) := by
      rw [hs.update_table hw h]
      exact ClaimTable.getElem?_modify_self hk
    exact hd.md5sum k _ hc rfl
  · trivial

/-- The sizes of a table that the upload finds, or is going to make. -/
theorem begins_sizes (h₀ : src.Begins s) (hsizes : ∀ m, s.mdata = some m → src.Sizes m)
    (k : Nat) (c : ChunkInfo) (hc : s.table[k]? = some c) : src.Has k ∧ c.size = src.size k := by
  cases hm : s.mdata with
  | some m =>
    rw [State.table_of_some hm] at hc
    exact (hsizes m hm).entry k c hc
  | none =>
    have hk : src.Has k := by
      have hlt := (List.getElem?_eq_some_iff.mp hc).1
      have hcount := h₀.count
      unfold ChunkedFile.Has
      omega
    refine ⟨hk, ?_⟩
    have hsize : s.chunk_size = src.chunkSize := h₀.announced.trans (h₀.create hm)
    have hfresh : s.freshTable[k]? =
        some ⟨Buffer.zero _, payLoad s.localFile.length s.chunk_size k, .chPending⟩ := by
      refine getElem?_initControlData ?_
      show (k : Int) < chunkCount s.localFile.length s.chunk_size
      rw [h₀.localFile, hsize]
      exact hk
    rw [State.table_of_none hm, hfresh] at hc
    rw [← Option.some.inj hc, h₀.localFile, hsize]
    exact hk.payLoad_eq src.length_lt

theorem Source.Begins.rightRun (h₀ : src.Begins s) (hint : src.chunkSize < 2 ^ 31)
    (hsizes : ∀ m, s.mdata = some m → src.Sizes m)
    (hsums : RightSums md5 src.toChunkedFile s.table) : RightRun md5 src s.table s := by
  have hright : ∀ k c, s.table[k]? = some c → RightEntry md5 src.toChunkedFile k c := by
    intro k c hc
    obtain ⟨hk, hsize⟩ := begins_sizes h₀ hsizes k c hc
    exact ⟨hk, hsize, hsums k c hc⟩
  refine ⟨(h₀.linked fun _ => False).toDescribed, hint, hright, ?_⟩
  rw [h₀.view]
  exact ClaimTable.entries_initial hright

/-- From right entries on. -/
theorem RightRun.along_iff (hs : RightRun md5 src t₀ s) (as : List Act) :
    (machine md5).Along (fun _ _ s' => Digested md5 src.toChunkedFile s') s as ↔
      (machine md5).Along (DigestSet md5 src.toChunkedFile) s as :=
  Machine.along_iff_of_invariant
    (fun _ _ _ _ hs h => ⟨⟨hs.digestSet h, fun ha => (rightRun_step hs ha h).digested⟩,
      fun ha => rightRun_step hs ha h⟩) hs

theorem rightSums_of_fresh (h : s.mdata = none) : RightSums md5 src.toChunkedFile s.table := by
  intro k c hc hok
  rw [State.table_of_none h] at hc
  rw [status_of_mem_initControlData (List.mem_of_getElem? hc)] at hok
  cases hok

end Run

/-- **When an upload leaves a table that the check tool agrees with.**  In every state of
every run each CH_OK chunk has the MD5 of its bytes in the local file, and the check tool
marks none, exactly if that is so of the chunks that are CH_OK at the start, and
whenever a worker finishes a chunk its `snd_md5sum` happens to be the MD5 of it.  Chunk sizes
are ints, which is what SuffixToInt returns. -/
theorem upload_digests_iff (md5 : Md5) {src : Source} {s : State} (as : List Act)
    (h₀ : src.Begins s) (hint : src.chunkSize < 2 ^ 31)
    (hsizes : ∀ m, s.mdata = some m → src.Sizes m) :
    (Digested md5 src.toChunkedFile s ∧
        (machine md5).Along (fun _ _ s' => Digested md5 src.toChunkedFile s') s as) ↔
      RightSums md5 src.toChunkedFile s.table ∧
        (machine md5).Along (DigestSet md5 src.toChunkedFile) s as := by
  constructor
  · rintro ⟨hd, h⟩
    exact ⟨hd.md5sum, ((h₀.rightRun hint hsizes hd.md5sum).along_iff as).mp h⟩
  · rintro ⟨hsums, h⟩
    have hright := h₀.rightRun hint hsizes hsums
    exact ⟨hright.digested, (hright.along_iff as).mpr h⟩

/-- A file of two equal chunks. -/
def sampleEqual : Source where
  content := [7, 7]
  chunkSize := 1
  one_le := Nat.one_pos
  local_file := sampleName
  announced := 1
  length_lt := by decide
  announced_range := by decide

/-- The MD5 of the chunk, and of the file. -/
def sampleMd5 : Md5 := fun bytes =>
  if bytes = [7] then ⟨[137, 231, 78, 100, 11, 140, 70, 37, 122, 41, 222, 6, 22, 121, 77, 93], rfl⟩
  else ⟨[208, 239, 129, 148, 42, 121, 89, 106, 245, 153, 2, 22, 227, 209, 123, 78], rfl⟩

/-- Its upload, where the memory for `snd_md5sum` holds `digest`. -/
def sampleNew (digest : Digest) : State :=
  let s : State := .begin 1 1 sampleName [7, 7] none fun _ => none
  { s with workers := fun w => { s.workers w with snd_md5sum := digest } }

theorem begins_sampleNew (digest : Digest) : sampleEqual.Begins (sampleNew digest) where
  toInitial := ⟨rfl, rfl, rfl, fun _ => rfl, fun _ => rfl, fun _ => rfl⟩
  localFile := rfl
  local_file := rfl
  announced := rfl
  count := (by decide : ((sampleNew (Buffer.zero _)).table.length : Int) = chunkCount 2 1)
  create := fun _ => rfl
  mdata := fun m hm => by cases hm
  noFolder := rfl

/-- A worker sends both chunks. -/
def sampleBoth : List Act :=
  sampleFork ++ .worker 0 (.open []) :: sampleChunk 0 ++ .worker 0 .test :: sampleChunk 0 ++
    sampleGiveUp 0 ++ [.parent .wait, .parent .finish]

theorem upload_digests_sample :
    Digested sampleMd5 sampleEqual.toChunkedFile (sampleNew (sampleMd5 [7])) ∧
      (machine sampleMd5).Along (fun _ _ s' => Digested sampleMd5 sampleEqual.toChunkedFile s')
        (sampleNew (sampleMd5 [7])) sampleBoth :=
  (upload_digests_iff _ _ (begins_sampleNew _) (by decide) fun m hm => by cases hm).mpr
    ⟨rightSums_of_fresh rfl, by decide +kernel⟩

/-- Memory of zeros: the upload runs to its end with both chunks CH_OK, and the check tool
marks both of them. -/
theorem upload_digests_fails :
    ¬ (machine sampleMd5).Along (fun _ _ s' => Digested sampleMd5 sampleEqual.toChunkedFile s')
        (sampleNew (Buffer.zero _)) sampleBoth ∧
      ((machine sampleMd5).run (sampleNew (Buffer.zero _)) sampleBoth).map
        (fun s => (s.pc, s.table.map ChunkInfo.status)) = some (.ended, [.chOk, .chOk]) ∧
      (((machine sampleMd5).run (sampleNew (Buffer.zero _)) sampleBoth).bind State.mdata).bind
        (fun m => (m.checkDataChunks sampleMd5 [7, 7]).map
          fun m => m.chunkInfo.map ChunkInfo.status) = some [.chError, .chError] := by
  refine ⟨fun h => ?_, by decide +kernel, by decide +kernel⟩
  have hset := (((begins_sampleNew _).rightRun (by decide) (fun m hm => by cases hm)
    (rightSums_of_fresh rfl)).along_iff _).mp h
  revert hset
  decide +kernel

end Mhftp.Upload
