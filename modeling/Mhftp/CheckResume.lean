import Mhftp.CheckTool
import Mhftp.DownloadHistory
import Mhftp.DownloadPool

/-! # A check and the download after it

The check tool marks the chunks of a completed download whose bytes have changed, and the
next download fetches them.  A run in which nothing fails fetches each chunk that it claims
(`fetched_perm_claimed`), so these are the chunks that it fetches, and in the end the local
file begins with the server's file (`check_then_resume`).
-/

namespace Mhftp.Download
open Library

/-- The chunk that a step brings into the local file. -/
def fetchedChunk (s : State) : Act → Option Nat
  | .worker w .store =>
    match (s.workers w).pc with
    | .store k _ => some k
    | _ => none
  | _ => none

/-- The chunk that a worker has claimed and not yet written. -/
def WorkerPc.unfetched : WorkerPc → Multiset Nat
  | claimed k | request k | receive k | store k _ => {k}
  | _ => 0

/-- The chunks claimed and not yet written, of `n` workers. -/
def State.unfetched (n : Nat) (s : State) : Multiset Nat :=
  ∑ w ∈ Finset.range n, (s.workers w).pc.unfetched

section Fetch
variable {md5 : Md5} {s s' : State} {a : Act} {n w : Nat}

theorem unfetched_same (h : ∀ w, (s'.workers w).pc.unfetched = (s.workers w).pc.unfetched) :
    s'.unfetched n = s.unfetched n :=
  Finset.sum_congr rfl fun w _ => h w

/-- One worker moves: what it holds after the step for what it held before. -/
theorem unfetched_move (hw : w < n) {wk : Worker} {new old : Multiset Nat}
    (h : s'.workers = update s.workers w wk) (hold : (s.workers w).pc.unfetched = old)
    (hnew : wk.pc.unfetched = new) : s.unfetched n + new = old + s'.unfetched n := by
  have hmem : w ∈ Finset.range n := Finset.mem_range.mpr hw
  have hothers : ∑ v ∈ (Finset.range n).erase w, (s'.workers v).pc.unfetched =
      ∑ v ∈ (Finset.range n).erase w, (s.workers v).pc.unfetched := by
    refine Finset.sum_congr rfl fun v hv => ?_
    rw [h, update_of_ne _ _ (Finset.ne_of_mem_erase hv)]
  have hself : (s'.workers w).pc.unfetched = new := by rw [h, update_self, hnew]
  unfold State.unfetched
  rw [← Finset.add_sum_erase _ _ hmem, ← Finset.add_sum_erase _ (fun v =>
    (s'.workers v).pc.unfetched) hmem, hothers, hself, hold, add_assoc, add_comm (∑ v ∈ _, _)]

/-- A step that nothing disturbs. -/
theorem fetch_step (hs : Orderly s) (hn : s.numClient = n) (ha : undisturbed s a s' = true)
    (h : (machine md5).step s a = some s') :
    s.unfetched n + ↑(claimedChunk s a).toList =
      ↑(fetchedChunk s a).toList + s'.unfetched n := by
  have lt {v : Nat} (hv : (s.workers v).pc.finished = false) : v < n :=
    hn ▸ hs.lt_numClient hv
  have quiet (hsame : ∀ w, (s'.workers w).pc.unfetched = (s.workers w).pc.unfetched)
      (hclaimed : claimedChunk s a = none) (hfetched : fetchedChunk s a = none) :
      s.unfetched n + ↑(claimedChunk s a).toList =
        ↑(fetchedChunk s a).toList + s'.unfetched n := by
    rw [hclaimed, hfetched, unfetched_same hsame]
    exact (add_zero _).trans (zero_add _).symm
  have moved {v : Nat} {wk : Worker} (h : wk.pc.unfetched = (s.workers v).pc.unfetched) :
      ∀ w, (update s.workers v wk w).pc.unfetched = (s.workers w).pc.unfetched :=
    apply_update_of_eq (g := fun wk : Worker => wk.pc.unfetched) h
  cases step_cases h with
  | @claim w k m hw hk hm =>
    -- the chunk comes in
    refine unfetched_move (lt (v := w) (by rw [hw]; rfl)) rfl (by rw [hw]; rfl) ?_
    rw [claimedChunk, hk]
    rfl
  | @store w k data pos hw =>
    -- the chunk goes out
    refine unfetched_move (lt (v := w) (by rw [hw]; rfl)) rfl ?_ rfl
    rw [fetchedChunk, hw]
    rfl
  | @receive w k script hw =>
    obtain ⟨wk, toClient, data, he, hpc, -⟩ := receive_undisturbed ha
    refine quiet (fun v => ?_) rfl rfl
    rw [he]
    exact moved (by rw [hpc, hw]; rfl) v
  | sigpipeStart | sigpipeRequest => cases ha
  | @fork i hpc =>
    refine quiet (moved ?_) rfl rfl
    rw [hs.forked i hpc i le_rfl]
    rfl
  | @test w c hw =>
    refine quiet (moved ?_) rfl rfl
    rw [hw]
    dsimp only
    split <;> rfl
  | «open» hw | lockClaim _ hw | lockUpdate _ hw | loadClaim hw | loadUpdate hw | giveUp hw
  | releaseClaim hw | releaseUpdate hw | request hw | update hw =>
    exact quiet (moved (by rw [hw]; rfl)) rfl rfl
  | _ => exact quiet (fun _ => rfl) rfl rfl

theorem numClient_step (h : (machine md5).step s a = some s') : s'.numClient = s.numClient := by
  cases step_cases h with
  | receive =>
    obtain ⟨wk, toClient, he, -⟩ := receive_cases s _ _ _
    rw [he]
    rfl
  | _ => rfl

theorem unfetched_of_finished {pc : WorkerPc} (h : pc.finished = true) : pc.unfetched = 0 := by
  cases pc <;> first | rfl | cases h

theorem unfetched_of_allFinished (h : ∀ w < n, (s.workers w).pc.finished = true) :
    s.unfetched n = 0 :=
  Finset.sum_eq_zero fun w hw => unfetched_of_finished (h w (Finset.mem_range.mp hw))

/-- **What a run fetches.**  A run in which nothing fails fetches what it claims. -/
theorem fetched_perm_claimed {s₀ : State} {as : List Act} (h₀ : Initial s₀)
    (hclean : (machine md5).Along (fun s a s' => undisturbed s a s' = true) s₀ as)
    (hr : (machine md5).run s₀ as = some s) (hall : s.AllFinished) :
    ((machine md5).events fetchedChunk s₀ as).Perm ((machine md5).events claimedChunk s₀ as) := by
  have hnum : s.numClient = s₀.numClient :=
    Machine.run_invariant_of_step (I := fun s => s.numClient = s₀.numClient)
      (fun _ _ _ hn h => (numClient_step h).trans hn) rfl hr
  have hbalance := Machine.events_balance (f := claimedChunk) (g := fetchedChunk)
    (I := fun s => Orderly s ∧ s.numClient = s₀.numClient)
    (fun s a s' hs ha h => ⟨⟨orderly_step hs.1 h, (numClient_step h).trans hs.2⟩,
      fetch_step hs.1 hs.2 ha h⟩) ⟨h₀.orderly, rfl⟩ hclean hr
  have hstart : s₀.unfetched s₀.numClient = 0 :=
    unfetched_of_allFinished fun w _ => by rw [h₀.workers w]; rfl
  have hend : s.unfetched s₀.numClient = 0 := unfetched_of_allFinished (hnum ▸ hall)
  rw [hstart, hend, zero_add, add_zero] at hbalance
  exact (Multiset.coe_eq_coe.mp hbalance).symm

end Fetch

/-- The .mdata file of a completed download. -/
structure Source.Completed (src : Source) (md5 : Md5) (m : Metadata) : Prop where
  header : m.header = src.header md5
  inUse : m.inUse = 0
  entry : ∀ (k : Nat) c, m.chunkInfo[k]? = some c →
    c.status = .chOk ∧ c.size = src.size k ∧ c.md5sum = md5 (src.chunk k)

/-- Bytes that have changed have another MD5. -/
def Source.Tells (src : Source) (md5 : Md5) (g : List UInt8) : Prop :=
  ∀ k, src.Has k → src.slice g k ≠ src.chunk k → md5 (src.slice g k) ≠ md5 (src.chunk k)

/-- A whole download run from these two files in which nothing fails: the hosts keep the
file, the servers answer on intact connections only, and nobody is killed. -/
structure Source.CleanRun (src : Source) (md5 : Md5) (m : Metadata) (g : List UInt8) (s₀ : State)
    (as : List Act) (s : State) : Prop extends Initial s₀ where
  mdata : s₀.mdata = m
  localFile : s₀.localFile = g
  hosted : src.Hosted s₀ ∧ (machine md5).Along (fun _ _ s' => src.Hosted s') s₀ as
  answers : (machine md5).Along AnswersIntact s₀ as
  undisturbed : (machine md5).Along (fun s a s' => undisturbed s a s' = true) s₀ as
  run : (machine md5).run s₀ as = some s
  finished : s.AllFinished

section Resume
variable {src : Source} {md5 : Md5} {m : Metadata} {g : List UInt8}

theorem Source.Completed.sizes (hm : src.Completed md5 m) : src.Sizes m where
  chunkSize := congrArg Header.chunkSize hm.header
  entry := fun k c hc => by
    have hcount : (m.chunkInfo.length : Int) = chunkCount src.content.length src.chunkSize :=
      congrArg Header.chunks hm.header
    have hlt := (List.getElem?_eq_some_iff.mp hc).1
    refine ⟨?_, (hm.entry k c hc).2.1⟩
    unfold ChunkedFile.Has
    omega

theorem Source.Completed.check (hm : src.Completed md5 m) (g : List UInt8) :
    m.checkDataChunks md5 g =
      some { m with chunkInfo := m.chunkInfo.mapIdx (src.checked md5 g) } :=
  ChunkedFile.checkDataChunks_eq md5 src.length_lt src.chunkSize_lt hm.sizes g hm.inUse

/-- What the check tool finds in the table that it leaves. -/
theorem getElem?_checked {k : Nat} {c : ChunkInfo}
    (hc : (m.chunkInfo.mapIdx (src.checked md5 g))[k]? = some c) :
    ∃ c₀, m.chunkInfo[k]? = some c₀ ∧ c = src.checked md5 g k c₀ := by
  rw [List.getElem?_mapIdx] at hc
  obtain ⟨c₀, hc₀, rfl⟩ := Option.map_eq_some_iff.mp hc
  exact ⟨c₀, hc₀, rfl⟩

theorem Source.Completed.checked_eq (hm : src.Completed md5 m) {k : Nat} {c : ChunkInfo}
    (hc : m.chunkInfo[k]? = some c) : src.checked md5 g k c =
      if md5 (src.slice g k) ≠ c.md5sum then { c with status := .chError } else c := by
  simp only [ChunkedFile.checked, (hm.entry k c hc).1, true_and]

/-- The chunks that the check leaves CH_OK are in the local file. -/
theorem Source.Completed.good (hm : src.Completed md5 m) (htells : src.Tells md5 g) :
    src.Good md5 g { m with chunkInfo := m.chunkInfo.mapIdx (src.checked md5 g) } where
  header := by
    rw [← hm.header]
    simp [Metadata.header, Metadata.chunks]
  ok := fun k c hc hok => by
    obtain ⟨c₀, hc₀, rfl⟩ := getElem?_checked hc
    have hsum := (hm.entry k c₀ hc₀).2.2
    rw [hm.checked_eq hc₀] at hok ⊢
    split at hok
    · cases hok
    · next hsame =>
      rw [if_neg hsame]
      refine ⟨?_, hsum⟩
      by_contra hno
      exact htells k (hm.sizes.entry k c₀ hc₀).1 hno (hsum ▸ not_not.mp hsame)

/-- The check leaves the other ones to be fetched. -/
theorem Source.Completed.mem_pendingChunks (hm : src.Completed md5 m) {s : State}
    (hs : s.mdata = { m with chunkInfo := m.chunkInfo.mapIdx (src.checked md5 g) }) {k : Nat} :
    k ∈ s.pendingChunks ↔
      ∃ c, m.chunkInfo[k]? = some c ∧ md5 (src.slice g k) ≠ c.md5sum := by
  rw [Download.mem_pendingChunks, hs]
  constructor
  · rintro ⟨c, hc, hstatus⟩
    obtain ⟨c₀, hc₀, rfl⟩ := getElem?_checked hc
    refine ⟨c₀, hc₀, fun hsame => ?_⟩
    rw [hm.checked_eq hc₀, if_neg (not_not.mpr hsame), (hm.entry k c₀ hc₀).1] at hstatus
    simp at hstatus
  · rintro ⟨c₀, hc₀, hne⟩
    refine ⟨src.checked md5 g k c₀, ?_, .inr ?_⟩
    · rw [List.getElem?_mapIdx, hc₀]
      rfl
    · rw [hm.checked_eq hc₀, if_pos hne]

/-- In the end every chunk is CH_OK. -/
theorem Source.CleanRun.all_ok {s₀ s : State} {as : List Act} (h : src.CleanRun md5 m g s₀ as s)
    (hstart : ∀ k (c : ChunkInfo), m.chunkInfo[k]? = some c →
      c.status = .chOk ∨ k ∈ s₀.pendingChunks)
    (hforked : ∃ w, (s.workers w).pc ≠ .notForked) : ∀ c ∈ s.mdata.chunkInfo, c.status = .chOk := by
  intro c hmem
  obtain ⟨k, hk⟩ := List.getElem?_of_mem hmem
  have hs := h.toInitial.sound
  have hlt : k < m.chunkInfo.length := by
    rw [← h.mdata, ← (sound_run hs h.run).length]
    exact (List.getElem?_eq_some_iff.mp hk).1
  obtain ⟨c', hc', hok⟩ : ∃ c', s.mdata.chunkInfo[k]? = some c' ∧ c'.status = .chOk := by
    have hc₀ := List.getElem?_eq_getElem hlt
    rcases hstart k _ hc₀ with hok | hpending
    · exact ⟨_, hs.ok_run h.run (by rw [h.mdata]; exact hc₀) hok, hok⟩
    · obtain ⟨-, -, -, hok⟩ :=
        claims_complete md5 h.toInitial h.run h.undisturbed h.finished hforked
      exact hok k hpending
  rw [hk] at hc'
  rw [Option.some.inj hc']
  exact hok

theorem Source.CleanRun.faithful {s₀ s : State} {as : List Act} (h : src.CleanRun md5 m g s₀ as s)
    (hgood : src.Good md5 g m) : src.Faithful md5 s := by
  have hfaithful : src.Faithful md5 s₀ := by
    apply h.toInitial.faithful
    rw [h.localFile, h.mdata]
    exact hgood
  exact (Machine.run_invariant (I := fun s => src.Faithful md5 s ∧ src.Hosted s)
    (P := fun s a s' => src.Hosted s' ∧ AnswersIntact s a s')
    (fun _ _ _ hs ha h => ⟨faithful_step hs.1 hs.2 ha.2 h, ha.1⟩) ⟨hfaithful, h.hosted.1⟩
    (h.hosted.2.and h.answers) h.run).1

end Resume

/-- **Check, then resume.**  After a completed download the local file changes in any way.
The check tool marks chunks of it, and a run of at least one worker from there, in which
nothing fails, fetches exactly the chunks whose bytes have another MD5 than the stored one,
each of them once, and leaves a local file that begins with the server's file. -/
theorem check_then_resume (md5 : Md5) (src : Source) {m : Metadata} (hm : src.Completed md5 m)
    (g : List UInt8) (htells : src.Tells md5 g) :
    ∃ m', m.checkDataChunks md5 g = some m' ∧
      ∀ s₀ as s, src.CleanRun md5 m' g s₀ as s → (∃ w, (s.workers w).pc ≠ .notForked) →
        ((machine md5).events fetchedChunk s₀ as).Nodup ∧
        (∀ k, k ∈ (machine md5).events fetchedChunk s₀ as ↔
          ∃ c, m.chunkInfo[k]? = some c ∧ md5 (src.slice g k) ≠ c.md5sum) ∧
        s.localFile.take src.content.length = src.content := by
  refine ⟨_, hm.check g, fun s₀ as s hclean hforked => ?_⟩
  -- what is fetched is what is claimed, and that is what the check has marked
  obtain ⟨-, hnodup, hmem, -⟩ := claims_complete md5 hclean.toInitial hclean.run hclean.undisturbed
    hclean.finished hforked
  have hperm := fetched_perm_claimed hclean.toInitial hclean.undisturbed hclean.run hclean.finished
  refine ⟨hperm.nodup_iff.mpr hnodup, fun k => ?_, ?_⟩
  · rw [hperm.mem_iff, hmem]
    exact hm.mem_pendingChunks hclean.mdata
  · -- what the check has left CH_OK is in the file, and the rest is fetched
    have hfaithful := hclean.faithful (hm.good htells)
    refine hfaithful.file.take_eq (hclean.all_ok (fun k c hc => ?_) hforked)
    rw [hm.mem_pendingChunks hclean.mdata]
    obtain ⟨c₀, hc₀, rfl⟩ := getElem?_checked hc
    rw [hm.checked_eq hc₀]
    by_cases hne : md5 (src.slice g k) ≠ c₀.md5sum
    · exact .inr ⟨c₀, hc₀, hne⟩
    · rw [if_neg hne]
      exact .inl (hm.entry k c₀ hc₀).1

/-- The MD5s of the file [1, 2], of its chunks, and of no bytes. -/
def sampleMd5 : Md5 := fun bytes =>
  match bytes with
  | [] => ⟨[212, 29, 140, 217, 143, 0, 178, 4, 233, 128, 9, 152, 236, 248, 66, 126], rfl⟩
  | [1] => ⟨[85, 165, 64, 8, 173, 27, 165, 137, 170, 33, 13, 38, 41, 193, 223, 65], rfl⟩
  | [2] => ⟨[158, 104, 140, 88, 165, 72, 123, 142, 175, 105, 201, 225, 0, 90, 208, 191], rfl⟩
  | _ => ⟨[12, 185, 136, 208, 66, 167, 242, 141, 213, 254, 43, 85, 179, 245, 172, 122], rfl⟩

/-- The download of the file is complete. -/
def sampleCompleted : Metadata :=
  { (sampleSource.header sampleMd5).fresh 0 with
    chunkInfo := [⟨sampleMd5 [1], 1, .chOk⟩, ⟨sampleMd5 [2], 1, .chOk⟩] }

theorem completed_sample : sampleSource.Completed sampleMd5 sampleCompleted where
  header := by decide +kernel
  inUse := rfl
  entry := fun k c hc => by
    match k with
    | 0 | 1 =>
      obtain rfl := Option.some.inj hc
      decide
    | k + 2 => cases hc

theorem tells_sample : sampleSource.Tells sampleMd5 [1] := by
  intro k hk hne
  have hcount : chunkCount sampleSource.content.length sampleSource.chunkSize = 2 := by decide
  unfold ChunkedFile.Has at hk
  match k with
  | 0 => exact absurd (by decide) hne
  | 1 => decide
  | k + 2 => omega

/-- The file has been cut to its first byte, and the check tool marks the second chunk. -/
def sampleChecked : Metadata :=
  { sampleCompleted with
    chunkInfo := [⟨sampleMd5 [1], 1, .chOk⟩, ⟨sampleMd5 [2], 1, .chError⟩] }

def sampleResume (numClient : Nat) : State :=
  .begin numClient sampleChecked [1] fun p =>
    if p = [97] then some (.file [1, 2]) else none

theorem cleanRun_sample {numClient : Nat} {as : List Act} {s : State}
    (hr : (machine sampleMd5).run (sampleResume numClient) as = some s)
    (hhosted : (machine sampleMd5).Along (fun _ _ s' => sampleSource.Hosted s')
      (sampleResume numClient) as)
    (hanswers : (machine sampleMd5).Along AnswersIntact (sampleResume numClient) as)
    (hclean : (machine sampleMd5).Along (fun s a s' => undisturbed s a s' = true)
      (sampleResume numClient) as) (hall : s.AllFinished) :
    sampleSource.CleanRun sampleMd5 sampleChecked [1] (sampleResume numClient) as s where
  toInitial := initial_begin _ _ _ _
  mdata := rfl
  localFile := rfl
  hosted := ⟨fun _ _ => rfl, hhosted⟩
  answers := hanswers
  undisturbed := hclean
  run := hr
  finished := hall

/-- The worker fetches the second chunk. -/
def sampleRepair : List Act := sampleOpen ++ sampleFetch [] ++ leave 0

theorem check_then_resume_sample :
    ∃ s, (machine sampleMd5).run (sampleResume 1) sampleRepair = some s ∧
      (∀ k, k ∈ (machine sampleMd5).events fetchedChunk (sampleResume 1) sampleRepair ↔ ∃ c,
        sampleCompleted.chunkInfo[k]? = some c ∧ sampleMd5 (sampleSource.slice [1] k) ≠ c.md5sum) ∧
      s.localFile.take 2 = [1, 2] := by
  obtain ⟨s, hs, hall, hpc⟩ : ∃ s, (machine sampleMd5).run (sampleResume 1) sampleRepair = some s ∧
      s.AllFinished ∧ (s.workers 0).pc = .exited := Machine.exists_run (by decide +kernel)
  obtain ⟨m', hm', hresume⟩ :=
    check_then_resume sampleMd5 sampleSource completed_sample [1] tells_sample
  have hcheck : sampleCompleted.checkDataChunks sampleMd5 [1] = some sampleChecked := by
    decide +kernel
  rw [hcheck] at hm'
  obtain rfl := Option.some.inj hm'
  obtain ⟨-, hfetched, htake⟩ := hresume _ _ s (cleanRun_sample hs (by decide +kernel)
    (by decide +kernel) (by decide +kernel) hall) ⟨0, by rw [hpc]; decide⟩
  exact ⟨s, hs, hfetched, htake⟩

/-- Without workers nothing is fetched, and the local file stays damaged. -/
theorem check_then_resume_nobody :
    sampleSource.Completed sampleMd5 sampleCompleted ∧ sampleSource.Tells sampleMd5 [1] ∧
    sampleCompleted.checkDataChunks sampleMd5 [1] = some sampleChecked ∧
    sampleMd5 (sampleSource.slice [1] 1) ≠ sampleMd5 [2] ∧
    ∃ s, sampleSource.CleanRun sampleMd5 sampleChecked [1] (sampleResume 0)
        [.parent .load, .parent .save, .parent .wait, .parent .finish] s ∧ s.pc = .ended ∧
      (machine sampleMd5).events fetchedChunk (sampleResume 0)
        [.parent .load, .parent .save, .parent .wait, .parent .finish] = [] ∧
      s.localFile.take 2 ≠ [1, 2] := by
  obtain ⟨s, hs, hall, hpc, hlocal⟩ : ∃ s, (machine sampleMd5).run (sampleResume 0)
      [.parent .load, .parent .save, .parent .wait, .parent .finish] = some s ∧
        s.AllFinished ∧ s.pc = .ended ∧ s.localFile = [1] :=
    Machine.exists_run (by decide +kernel)
  refine ⟨completed_sample, tells_sample, by decide +kernel, by decide, s, cleanRun_sample hs
    (by decide +kernel) (by decide +kernel) (by decide +kernel) hall, hpc, by decide +kernel, ?_⟩
  rw [hlocal]
  decide

end Mhftp.Download
