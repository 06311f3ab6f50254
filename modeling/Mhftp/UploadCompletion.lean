import Mhftp.UploadDelivery

/-! # How an upload ends

The parent's saves put chunks back that workers have claimed or finished, and so chunks may
be sent again, but none is left out (`Library.ClaimTable.StaleValid`): the last worker
starts after the last save and leaves only when nothing is claimable any more.  What is
CH_OK then is in the server's file, if that is where the server puts it: a chunk has one
place for the client and one for the server, and they are the same where both use the same
chunk size (`resume_in_place`).  A fresh upload announces the chunk size that it creates its
metadata with (`upload_complete`).
-/

namespace Mhftp.Upload
open Library

/-- SIGINT does not arrive. -/
def NoSigint (_ : State) : Act → State → Prop
  | .parent .sigint, _ => False
  | _, _ => True

instance (s s' : State) : (a : Act) → Decidable (NoSigint s a s')
  | .parent .sigint => isFalse id
  | .parent (.init _ _) | .parent .sigpipe | .parent .save | .parent .fork
  | .parent .forkFails | .parent .refuse | .parent .wait | .parent .finish | .parent .exit
  | .worker _ _ | .server _ _ _ => isTrue trivial

/-! ### No chunk is lost -/

/-- The parent saves nothing but the table of the start, and the last worker finds what that
has put back. -/
structure Lossless (t₀ : List ChunkInfo) (s : State) : Prop extends Orderly t₀ s where
  kill_proc : s.kill_proc = false
  stale : ClaimTable.StaleValid rules t₀ (view s)
  last : ClaimTable.Late rules (s.numClient - 1) (view s)

section Lossless
variable {md5 : Md5} {t₀ : List ChunkInfo} {s s' : State} {a : Act}

theorem Initial.lossless (h : Initial s) : Lossless s.table s where
  toOrderly := h.orderly
  kill_proc := h.kill_proc
  stale := h.view ▸ ClaimTable.staleValid_initial
  last := by
    apply ClaimTable.late_of_absent
    simp [Upload.view, phase, h.workers]

theorem label_quit {w : Nat} (h : label s a = some (.quit w)) : s.kill_proc = true := by
  unfold label at h
  repeat' split at h
  all_goals first | assumption | cases h

theorem fixed_step (h : (machine md5).step s a = some s') :
    s'.numClient = s.numClient ∧ s'.chunk_size = s.chunk_size := by
  cases step_cases h <;> exact ⟨rfl, rfl⟩

theorem kill_proc_step (ha : NoSigint s a s') (h : (machine md5).step s a = some s') :
    s'.kill_proc = s.kill_proc := by
  cases step_cases h with
  | sigint => exact absurd ha id
  | _ => rfl

/-- Nothing but the parent's saves disturbs the table. -/
theorem Lossless.label_stale (hs : Lossless t₀ s) (h : (machine md5).step s a = some s')
    {b : ClaimTable.Act ChunkInfo (Bool × Digest) Nat} (hb : label s a = some b) :
    ClaimTable.Stale rules t₀ b := by
  refine ClaimTable.stale_of_restores (hs.toOrderly.label_restores h hb) fun w he => ?_
  have hkill := label_quit (he ▸ hb)
  rw [hs.kill_proc] at hkill
  cases hkill

theorem lossless_step (hs : Lossless t₀ s) (hsig : NoSigint s a s')
    (h : (machine md5).step s a = some s') : Lossless t₀ s' := by
  have hfollows := view_step hs.toOrderly h
  refine ⟨orderly_step hs.toOrderly h, (kill_proc_step hsig h).trans hs.kill_proc, ?_, ?_⟩
  · exact hfollows.preserves hs.stale fun b hb hstep =>
      ClaimTable.staleValid_step hs.stale (hs.label_stale h hb) hstep
  · rw [(fixed_step h).1]
    apply hfollows.preserves hs.last
    intro b hb hstep
    by_cases hover : ∃ t, b = .overwrite t
    · -- the last worker has not been forked yet
      obtain ⟨t, rfl⟩ := hover
      obtain ⟨rfl, -⟩ := hs.toOrderly.overwrites h hb
      apply ClaimTable.late_of_absent
      cases step_cases h with
      | @save i hpc =>
        have hi := hs.turn i (Or.inl hpc)
        have hlast := hs.forked i (by rw [hpc]; rfl) (s.numClient - 1) (by omega)
        simp [view, phase, hlast]
    · exact ClaimTable.late_step hs.stale.owner hs.last (hs.label_stale h hb)
        (fun t ht => hover ⟨t, ht⟩) hstep

/-- Once all workers have left their loops, what was claimable at the start is CH_OK. -/
theorem Lossless.ok_of_exited (hs : Lossless t₀ s) (hone : 1 ≤ s.numClient)
    (hexited : ∀ w < s.numClient, (s.workers w).pc = .exited) {k : Nat} {c₀ : ChunkInfo}
    (hc₀ : t₀[k]? = some c₀) (hfree : Metadata.claimable c₀ = true) :
    ∃ c, s.table[k]? = some c ∧ c.status = .chOk := by
  have hgone : ∀ w, ((view s).phase w).holds = none := by
    intro w
    by_cases hw : w < s.numClient
    · simp [view, phase, hexited w hw, ClaimTable.Phase.holds]
    · simp [view, phase, hs.outside w (not_lt.mp hw), ClaimTable.Phase.holds]
  -- the worker that started after the last save has found nothing to claim
  have hleft : (view s).phase (s.numClient - 1) = .left false := by
    simp [view, phase, hexited (s.numClient - 1) (by omega)]
  obtain ⟨c, hc, hok⟩ := hs.stale.settled_of_late hs.last hleft hgone hc₀ hfree
  exact ⟨c, hc, of_decide_eq_true hok⟩

/-- There is an .mdata file once a worker has been forked. -/
theorem Orderly.mdata_of_exited (hs : Orderly t₀ s) {w : Nat} (hw : (s.workers w).pc = .exited) :
    ∃ m, s.mdata = some m := by
  cases hm : s.mdata with
  | some m => exact ⟨m, rfl⟩
  | none =>
    have := (hs.file hm).1 w
    rw [hw] at this
    cases this

end Lossless

namespace Source
variable (src : Source)

/-- The start of an upload. -/
structure Begins (s : State) : Prop extends Initial s where
  localFile : s.localFile = src.content
  local_file : s.local_file = src.local_file
  announced : s.chunk_size = src.announced
  count : (s.table.length : Int) = chunkCount src.content.length src.chunkSize
  create : s.mdata = none → src.announced = src.chunkSize
  mdata : ∀ m, s.mdata = some m → src.Describes m
  noFolder : s.dir.isFolder src.remote = false

/-- Every chunk that the .mdata file or a worker takes for sent is on its way or in its
place. -/
structure Delivering (t₀ : List ChunkInfo) (s : State) (pending : Nat → List Nat) : Prop
    extends src.Linked (fun _ => True) t₀ s pending where
  start : ∀ k c, t₀[k]? = some c → Metadata.claimable c = false → src.Reached s pending k
  sent : ∀ w k, (s.workers w).pc.sent = some k → src.Reached s pending k
  backed : ClaimTable.Backed rules (src.Reached s pending) (view s)

/-- Whatever the parent's saves undo, no chunk is lost. -/
structure Completing (t₀ : List ChunkInfo) (s : State) (pending : Nat → List Nat) : Prop
    extends src.Delivering t₀ s pending where
  kill_proc : s.kill_proc = false
  stale : ClaimTable.StaleValid rules t₀ (view s)
  last : ClaimTable.Late rules (s.numClient - 1) (view s)

section Begins
variable {src} {s : State}

theorem Begins.linked (h : src.Begins s) (sound : Nat → Prop) :
    src.Linked sound s.table s fun _ => [] where
  toTracked := h.tracked
  localFile := h.localFile
  local_file := h.local_file
  announced := h.announced
  count := h.count
  create := h.create
  mdata := h.mdata
  parent := fun hl => by simp [h.pc, ParentPc.loaded] at hl
  worker := fun w => ⟨fun ho => by simp [h.workers w] at ho, fun ho => by simp [h.workers w] at ho⟩
  sendable := fun w _ k hk => by cases hk
  placed := fun w _ k hk => by simp [State.Holds, h.workers w] at hk
  silent := fun w _ _ => ⟨by rw [h.conns w], h.servers w⟩
  link := fun w _ => .idle ⟨h.workers w, fun i hi => by simp [h.pc] at hi⟩
    (by rw [h.workers w]; rfl) (by rw [h.conns w]) (h.servers w)
  noFolder := h.noFolder

/-- An upload where the chunks that it does not take up are on the server already. -/
theorem Begins.completing (h : src.Begins s)
    (hstart : ∀ k c, s.table[k]? = some c → Metadata.claimable c = false →
      src.Stored (src.remoteFile s) k) : src.Completing s.table s fun _ => [] := by
  have hreached : ∀ k c, s.table[k]? = some c → Metadata.claimable c = false →
      src.Reached s (fun _ => []) k := by
    intro k c hc hno
    refine ⟨?_, Or.inr (hstart k c hc hno)⟩
    have hlt := (List.getElem?_eq_some_iff.mp hc).1
    have hcount := h.count
    unfold ChunkedFile.Has
    omega
  refine { toLinked := h.linked _, start := hreached, sent := ?_, backed := ⟨?_, ?_⟩,
           kill_proc := h.kill_proc, stale := h.lossless.stale, last := h.lossless.last }
  · intro w k hk
    simp [h.workers w] at hk
  · intro k c hc hok
    exact hreached k c hc (rules.free_of_settled c hok)
  · intro w t k c ht
    simp [view, phase, h.workers w, ClaimTable.Phase.copy] at ht

end Begins

section Step
variable {src} {md5 : Md5} {t₀ : List ChunkInfo} {s s' : State} {a : Act}
  {pending : Nat → List Nat}

theorem delivering_step (hs : src.Delivering t₀ s pending)
    (hcalm : Calm (fun _ => True) s a s')
    (hplaced : ClaimsPlaced (fun _ => True) src.chunkSize s a s')
    (h : (machine md5).step s a = some s') :
    ∃ pending', src.Delivering t₀ s' pending' := by
  obtain ⟨pending', hlinked, hcarries⟩ := linked_step hs.toLinked hcalm hplaced h
  replace hcarries := hcarries fun _ => trivial
  have hbacked := hs.backed.imp hcarries.reached
  refine ⟨pending', hlinked, fun k c hc hno => hcarries.reached k (hs.start k c hc hno), ?_, ?_⟩
  · intro w k hk
    rcases hcarries.sent w k hk with hk | hk
    · exact hcarries.reached k (hs.sent w k hk)
    · exact hk
  · apply (view_step hs.toOrderly h).preserves hbacked
    intro b hb hstep
    refine ClaimTable.backed_step hbacked ?_ ?_ hstep
    · rintro w o k rfl hholds
      obtain ⟨rfl, -⟩ := (label_write hb).2.1 w o rfl
      refine hcarries.reached k (hs.sent w k ?_)
      cases step_cases h with
      | update hw =>
        have hchunk := (phase_holds _).symm.trans hholds
        rw [hw] at hchunk ⊢
        exact hchunk
    · rintro t k c rfl hc hok
      obtain ⟨-, -, rfl⟩ := hs.toOrderly.overwrites h hb
      exact hcarries.reached k (hs.start k c hc (rules.free_of_settled c hok))

theorem Completing.lossless (hs : src.Completing t₀ s pending) : Lossless t₀ s :=
  ⟨hs.toOrderly, hs.kill_proc, hs.stale, hs.last⟩

theorem completing_step (hs : src.Completing t₀ s pending)
    (hcalm : Calm (fun _ => True) s a s')
    (hplaced : ClaimsPlaced (fun _ => True) src.chunkSize s a s') (hsig : NoSigint s a s')
    (h : (machine md5).step s a = some s') : ∃ pending', src.Completing t₀ s' pending' := by
  obtain ⟨pending', hdelivering⟩ := delivering_step hs.toDelivering hcalm hplaced h
  obtain ⟨-, hkill, hstale, hlast⟩ := lossless_step hs.lossless hsig h
  exact ⟨pending', hdelivering, hkill, hstale, hlast⟩

/-- Where the servers have read what was sent nothing is on its way any more. -/
theorem Linked.pending_eq_nil (hs : src.Linked (fun _ => True) t₀ s pending)
    (hread : ∀ w < s.numClient, (s.conns w).toServer = []) (w : Nat) : pending w = [] := by
  by_cases hw : w < s.numClient
  · have hlink := hs.link w trivial
    unfold Connects at hlink
    rw [hread w hw] at hlink
    exact hlink.eq_nil
  · exact (hs.link_of_pc (hs.outside w (not_lt.mp hw)) trivial).eq_nil_of_not_opened

/-- Then the server's file begins with the file, if every chunk has been on its way. -/
theorem Linked.take_eq (hs : src.Linked (fun _ => True) t₀ s pending)
    (hread : ∀ w < s.numClient, (s.conns w).toServer = [])
    (hreached : ∀ k, src.Has k → src.Reached s pending k) :
    (src.remoteFile s).take src.content.length = src.content := by
  refine ChunkedFile.take_eq_of_stored fun k hk => ?_
  rcases (hreached k hk).2 with ⟨w, hw⟩ | hstored
  · rw [hs.pending_eq_nil hread w] at hw
    cases hw
  · exact hstored

/-- **At the end of an upload** that had a worker, all chunks that it took up are CH_OK, and
the server's file begins with the file. -/
theorem Completing.complete (hs : src.Completing t₀ s pending) (hone : 1 ≤ s.numClient)
    (hexited : ∀ w < s.numClient, (s.workers w).pc = .exited)
    (hread : ∀ w < s.numClient, (s.conns w).toServer = []) :
    (∃ m, s.mdata = some m ∧ ∀ (k : Nat) (c₀ c : ChunkInfo), t₀[k]? = some c₀ →
      Metadata.claimable c₀ = true → m.chunkInfo[k]? = some c → c.status = .chOk) ∧
    ∃ g, s.dir src.remote = some (.file g) ∧ g.take src.content.length = src.content := by
  have hok {k : Nat} {c₀ : ChunkInfo} (hc₀ : t₀[k]? = some c₀)
      (hfree : Metadata.claimable c₀ = true) :=
    hs.lossless.ok_of_exited hone hexited hc₀ hfree
  constructor
  · obtain ⟨m, hm⟩ := hs.mdata_of_exited (hexited 0 (by omega))
    refine ⟨m, hm, fun k c₀ c hc₀ hfree hc => ?_⟩
    obtain ⟨c', hc', hstatus⟩ := hok hc₀ hfree
    rw [State.table_of_some hm, hc] at hc'
    obtain rfl := Option.some.inj hc'
    exact hstatus
  · have hfile : s.dir.hasFile src.remote = true := by
      have hlink := hs.link_of_pc (hexited 0 (by omega)) trivial
      rw [hread 0 (by omega)] at hlink
      exact hlink.hasFile
    obtain ⟨g, hg⟩ := hasFile_iff.mp hfile
    have htake := hs.take_eq hread fun k hk => by
      -- a chunk was taken up, or it was there before
      have hlt : k < t₀.length := by
        have := hs.count
        unfold ChunkedFile.Has at hk
        omega
      cases hfree : Metadata.claimable t₀[k] with
      | true =>
        obtain ⟨c, hc, hstatus⟩ := hok (List.getElem?_eq_getElem hlt) hfree
        exact hs.backed.table k c hc (decide_eq_true hstatus)
      | false => exact hs.start k _ (List.getElem?_eq_getElem hlt) hfree
    rw [remoteFile, content_of_file hg] at htake
    exact ⟨g, hg, htake⟩

theorem completing_run {as : List Act} (hs : src.Completing t₀ s pending)
    (hcalm : (machine md5).Along (Calm fun _ => True) s as)
    (hplaced : (machine md5).Along (ClaimsPlaced (fun _ => True) src.chunkSize) s as)
    (hsig : (machine md5).Along NoSigint s as) (hr : (machine md5).run s as = some s') :
    ∃ pending', src.Completing t₀ s' pending' := by
  refine Machine.run_invariant (I := fun s => ∃ pending, src.Completing t₀ s pending)
    ?_ ⟨pending, hs⟩ ((hcalm.and hplaced).and hsig) hr
  rintro s a s' ⟨pending, hs⟩ ⟨⟨hcalm, hplaced⟩, hsig⟩ h
  exact completing_step hs hcalm hplaced hsig h

end Step
end Source

theorem numClient_run {md5 : Md5} {s s' : State} {as : List Act}
    (hr : (machine md5).run s as = some s') : s'.numClient = s.numClient :=
  Machine.run_invariant_of_step (I := fun t => t.numClient = s.numClient)
    (fun _ _ _ ht h => (fixed_step h).1.trans ht) rfl hr

/-- Where the chunk size of the metadata is announced every claim is placed. -/
theorem claimsPlaced_of_announced {md5 : Md5} {sound : Nat → Prop} {s : State} {chunkSize : Nat}
    (as : List Act) (h : s.chunk_size = chunkSize) :
    (machine md5).Along (ClaimsPlaced sound chunkSize) s as := by
  apply Machine.along_of_invariant (I := fun t : State => t.chunk_size = (chunkSize : Int))
    (P := fun _ _ _ => True) _ h (Machine.along_of_forall (fun _ _ _ _ => trivial) s as)
  intro s a s' hs _ hstep
  refine ⟨(fixed_step hstep).2.trans hs, ?_⟩
  unfold ClaimsPlaced
  split
  · exact fun _ => Or.inl hs
  · trivial

/-! ### A fresh upload -/

/-- The chunks of a fresh upload. -/
def freshSource (s : State) (hc : 1 ≤ s.chunk_size ∧ s.chunk_size ≤ maxChunkSize)
    (hchunks : 32 * chunkCount s.localFile.length s.chunk_size < 2 ^ 31) : Source where
  content := s.localFile
  chunkSize := s.chunk_size.toNat
  one_le := by omega
  local_file := s.local_file
  announced := s.chunk_size
  length_lt := by
    have hle : (s.localFile.length : Int) ≤ s.chunk_size * chunkCount _ s.chunk_size :=
      le_chunkCount_mul hc.1
    have hcount : 0 ≤ chunkCount s.localFile.length s.chunk_size :=
      chunkCount_nonneg (by omega) hc.1
    have hmax := hc.2
    rw [maxChunkSize_eq] at hmax
    have : s.chunk_size * chunkCount s.localFile.length s.chunk_size ≤ 20971520 * 2 ^ 26 :=
      Int.mul_le_mul (by omega) (by omega) hcount (by omega)
    omega
  announced_range := by
    have hmax := hc.2
    rw [maxChunkSize_eq] at hmax
    omega

theorem freshTable_length (s : State) (hc : 1 ≤ s.chunk_size) :
    (s.freshTable.length : Int) = chunkCount s.localFile.length s.chunk_size := by
  have hcount : 0 ≤ chunkCount s.localFile.length s.chunk_size :=
    chunkCount_nonneg (by omega) hc
  show ((initControlData _).length : Int) = _
  rw [initControlData, List.length_map, List.length_range]
  exact Int.toNat_of_nonneg hcount

theorem begins_freshSource {s : State} (h₀ : Initial s) (hfresh : s.mdata = none)
    (hc : 1 ≤ s.chunk_size ∧ s.chunk_size ≤ maxChunkSize)
    (hchunks : 32 * chunkCount s.localFile.length s.chunk_size < 2 ^ 31)
    (hfolder : s.dir.isFolder (absoluteFile s.local_file.path) = false) :
    (freshSource s hc hchunks).Begins s where
  toInitial := h₀
  localFile := rfl
  local_file := rfl
  announced := rfl
  count := by
    have hsize : ((freshSource s hc hchunks).chunkSize : Int) = s.chunk_size :=
      Int.toNat_of_nonneg (by omega)
    rw [hsize, State.table_of_none hfresh]
    exact freshTable_length s hc.1
  create := fun _ => (Int.toNat_of_nonneg (by omega) : (s.chunk_size.toNat : Int) = _).symm
  mdata := fun m hm => by rw [hfresh] at hm; cases hm
  noFolder := hfolder

theorem status_freshTable {s : State} {c : ChunkInfo} (hc : c ∈ s.freshTable) :
    Metadata.claimable c = true := by
  rw [Metadata.claimable, status_of_mem_initControlData hc]
  rfl

theorem completing_freshSource {s : State} (h₀ : Initial s) (hfresh : s.mdata = none)
    (hc : 1 ≤ s.chunk_size ∧ s.chunk_size ≤ maxChunkSize)
    (hchunks : 32 * chunkCount s.localFile.length s.chunk_size < 2 ^ 31)
    (hfolder : s.dir.isFolder (absoluteFile s.local_file.path) = false) :
    (freshSource s hc hchunks).Completing s.table s fun _ => [] :=
  (begins_freshSource h₀ hfresh hc hchunks hfolder).completing fun k c hk hno => by
    rw [State.table_of_none hfresh] at hk
    rw [status_freshTable (List.mem_of_getElem? hk)] at hno
    cases hno

/-- What is announced is the chunk size of the new metadata. -/
theorem claimsPlaced_freshSource {md5 : Md5} {sound : Nat → Prop} {s : State}
    (hc : 1 ≤ s.chunk_size ∧ s.chunk_size ≤ maxChunkSize)
    (hchunks : 32 * chunkCount s.localFile.length s.chunk_size < 2 ^ 31) (as : List Act) :
    (machine md5).Along (ClaimsPlaced sound (freshSource s hc hchunks).chunkSize) s as :=
  claimsPlaced_of_announced as
    (Int.toNat_of_nonneg (by omega) : (s.chunk_size.toNat : Int) = _).symm

/-- The table of a fresh upload at its end. -/
theorem Source.Completing.fresh_ok {src : Source} {s₀ s : State} {pending : Nat → List Nat}
    {m : Metadata} (hs : src.Completing s₀.table s pending) (hfresh : s₀.mdata = none)
    (hsize : 1 ≤ s₀.chunk_size) (hm : s.mdata = some m)
    (hok : ∀ (k : Nat) (c₀ c : ChunkInfo), s₀.table[k]? = some c₀ →
      Metadata.claimable c₀ = true → m.chunkInfo[k]? = some c → c.status = .chOk) :
    m.chunks = chunkCount s₀.localFile.length s₀.chunk_size ∧
      ∀ c ∈ m.chunkInfo, c.status = .chOk := by
  have htable : s₀.table = s₀.freshTable := State.table_of_none hfresh
  have hlength : m.chunkInfo.length = s₀.table.length := by
    rw [← hs.length, State.table_of_some hm]
  constructor
  · show (m.chunkInfo.length : Int) = _
    rw [hlength, htable]
    exact freshTable_length s₀ hsize
  · intro c hmem
    obtain ⟨k, hk⟩ := List.getElem?_of_mem hmem
    have hlt : k < s₀.table.length := hlength ▸ (List.getElem?_eq_some_iff.mp hk).1
    have hfree : s₀.table[k] ∈ s₀.freshTable := htable ▸ List.getElem_mem hlt
    exact hok k _ c (List.getElem?_eq_getElem hlt) (status_freshTable hfree) hk

/-- **An upload without failures is complete**, if the servers have no folder of the file's
name, and one `write` can save the table.  However the parent's saves, the workers and the
servers interleave: once all workers have exited and the servers have read what was sent,
every chunk is CH_OK, and the server's file begins with the local file. -/
theorem upload_complete (md5 : Md5) {s₀ s : State} {as : List Act} (h₀ : Initial s₀)
    (hfresh : s₀.mdata = none) (hc : 1 ≤ s₀.chunk_size ∧ s₀.chunk_size ≤ maxChunkSize)
    (hchunks : 32 * chunkCount s₀.localFile.length s₀.chunk_size ≤ maxCount)
    (hfolder : s₀.dir.isFolder (absoluteFile s₀.local_file.path) = false)
    (hone : 1 ≤ s₀.numClient) (hcalm : (machine md5).Along (Calm fun _ => True) s₀ as)
    (hsig : (machine md5).Along NoSigint s₀ as) (hr : (machine md5).run s₀ as = some s)
    (hexited : ∀ w < s₀.numClient, (s.workers w).pc = .exited)
    (hread : ∀ w < s₀.numClient, (s.conns w).toServer = []) :
    (∃ m, s.mdata = some m ∧ m.chunks = chunkCount s₀.localFile.length s₀.chunk_size ∧
      ∀ c ∈ m.chunkInfo, c.status = .chOk) ∧
    ∃ g, s.dir (absoluteFile s₀.local_file.path) = some (.file g) ∧
      g.take s₀.localFile.length = s₀.localFile := by
  have hnum := numClient_run hr
  have hint := lt_of_le_maxCount hchunks
  obtain ⟨pending, hend⟩ := Source.completing_run
    (completing_freshSource h₀ hfresh hc hint hfolder) hcalm (claimsPlaced_freshSource hc hint as)
    hsig hr
  obtain ⟨⟨m, hm, hok⟩, hfile⟩ := hend.complete (by omega) (by rwa [hnum]) (by rwa [hnum])
  exact ⟨⟨m, hm, hend.fresh_ok hfresh hc.1 hm hok⟩, hfile⟩

/-- All workers have exited, and the servers have read what was sent. -/
def State.Done (s : State) : Prop :=
  (∀ w < s.numClient, (s.workers w).pc = .exited) ∧ ∀ w < s.numClient, (s.conns w).toServer = []

instance (s : State) : Decidable s.Done :=
  inferInstanceAs (Decidable (_ ∧ _))

/-- A run that comes to such a state, with the number of workers it began with. -/
theorem done_run {md5 : Md5} {s₀ : State} {as : List Act}
    (h : ((machine md5).run s₀ as).any (fun s => s.Done) = true) :
    ∃ s, (machine md5).run s₀ as = some s ∧ (∀ w < s₀.numClient, (s.workers w).pc = .exited) ∧
      ∀ w < s₀.numClient, (s.conns w).toServer = [] := by
  obtain ⟨s, hs, hexited, hread⟩ := Machine.exists_run h
  rw [numClient_run hs] at hexited hread
  exact ⟨s, hs, hexited, hread⟩

/-- Worker `w` finds nothing to claim. -/
def sampleGiveUp (w : Nat) : List Act :=
  [.worker w .test, .worker w .lock, .worker w .load, .worker w (.giveUp [])]

def sampleServer (w : Nat) : Act := .server w [] fun _ => 0

/-- The only chunk is sent twice, because the parent's second save puts it back. -/
def sampleTwice : List Act :=
  sampleFork ++ .worker 0 (.open []) :: sampleChunk 0 ++ sampleFork ++
    .worker 1 (.open []) :: sampleChunk 1 ++ sampleGiveUp 0 ++ sampleGiveUp 1 ++
    [sampleServer 0, sampleServer 1, sampleServer 0, sampleServer 1, sampleServer 0,
      sampleServer 1, sampleServer 0, sampleServer 1]

theorem upload_complete_sample :
    ∃ s, (machine fun _ => Buffer.zero _).run (.begin 2 1 sampleName [7] none fun _ => none)
        sampleTwice = some s ∧ ∃ g, s.dir [97] = some (.file g) ∧ g.take 1 = [7] := by
  have hrun : ((machine fun _ => Buffer.zero _).run (.begin 2 1 sampleName [7] none fun _ => none)
      sampleTwice).any (fun s => s.Done) = true := by decide +kernel
  obtain ⟨s, hs, hexited, hread⟩ := done_run hrun
  exact ⟨s, hs, (upload_complete _ (initial_begin _ _ _ _ _ _) rfl
    ⟨by decide, by rw [maxChunkSize_eq]; decide⟩ (by rw [maxCount_eq]; decide) rfl (by decide)
    (by decide +kernel) (by decide +kernel) hs hexited hread).2⟩

/-- The servers have a folder of the file's name: no `open` succeeds, and nobody notices. -/
def sampleFolder : State :=
  .begin 2 1 sampleName [7] none fun p => if p = [97] then some (.folder 4096) else none

theorem upload_complete_fails : ∃ s,
    (machine fun _ => Buffer.zero _).run sampleFolder sampleTwice = some s ∧
    Initial sampleFolder ∧ sampleFolder.mdata = none ∧
    (1 ≤ sampleFolder.chunk_size ∧ sampleFolder.chunk_size ≤ maxChunkSize) ∧
    32 * chunkCount sampleFolder.localFile.length sampleFolder.chunk_size < 2 ^ 31 ∧
    (machine fun _ => Buffer.zero _).Along (Calm fun _ => True) sampleFolder sampleTwice ∧
    (machine fun _ => Buffer.zero _).Along NoSigint sampleFolder sampleTwice ∧ s.Done ∧
    s.table.map ChunkInfo.status = [.chOk] ∧
    ¬ ∃ g, s.dir [97] = some (.file g) ∧ g.take 1 = [7] := by
  obtain ⟨s, hs, hdone, htable, hdir⟩ : ∃ s,
      (machine fun _ => Buffer.zero _).run sampleFolder sampleTwice = some s ∧ s.Done ∧
        s.table.map ChunkInfo.status = [.chOk] ∧ s.dir [97] = some (.folder 4096) :=
    Machine.exists_run (by decide +kernel)
  refine ⟨s, hs, initial_begin _ _ _ _ _ _, rfl, ⟨by decide, by rw [maxChunkSize_eq]; decide⟩,
    by decide, by decide +kernel, by decide +kernel, hdone, htable, ?_⟩
  rintro ⟨g, hg, -⟩
  rw [hdir] at hg
  cases hg

/-! ### An upload that goes on -/

/-- On the sound connections a worker that sends chunk `k` sends the bytes from
`k * chunkSize` on, and the server that reads a chunk writes it to the same place. -/
def WritesInPlace (sound : Nat → Prop) (chunkSize : Nat) (s : State) : Act → State → Prop
  | .worker w (.send _), s' => sound w → ∀ k, (s.workers w).pc = .send k →
      (s'.workers w).pc = .update k → (s'.conns w).toServer = (s.conns w).toServer ++
        (ChunkMessage.mk k (pread s.localFile (k * chunkSize) chunkSize)).bytes
  | .server w _ _, s' => sound w → ∀ file pos number size buffer, ∀ (m : ChunkMessage) rest,
      (s.servers w).pc = .receiveChunk file pos number size buffer → m.Fits →
      (s.conns w).toServer = m.bytes ++ rest →
      m.data = pread s.localFile (m.chunkNumber * chunkSize) chunkSize ∧
      s'.dir = update s.dir (absoluteFile s.local_file.path)
        (some (.file (pwrite (s.dir.content (absoluteFile s.local_file.path))
          (m.chunkNumber * chunkSize) m.data)))
  | _, _ => True

namespace Source
variable (src : Source)

/-- The start of an upload with an .mdata file of the local file, whose name is not that of a
folder on the servers. -/
structure Resumes (m : Metadata) (s : State) : Prop extends Initial s where
  localFile : s.localFile = src.content
  local_file : s.local_file = src.local_file
  announced : s.chunk_size = src.announced
  mdata : s.mdata = some m
  describes : src.Describes m
  chunks : m.chunks = chunkCount src.content.length src.chunkSize
  noFolder : s.dir.isFolder src.remote = false

variable {src}

theorem Resumes.begins {m : Metadata} {s : State} (h : src.Resumes m s) : src.Begins s where
  toInitial := h.toInitial
  localFile := h.localFile
  local_file := h.local_file
  announced := h.announced
  count := by
    rw [State.table_of_some h.mdata]
    exact h.chunks
  create := fun hnone => by rw [h.mdata] at hnone; cases hnone
  mdata := fun m' hm => by
    rw [h.mdata] at hm
    exact Option.some.inj hm ▸ h.describes
  noFolder := h.noFolder

section InPlace
variable {md5 : Md5} {sound : Nat → Prop} {t₀ : List ChunkInfo} {s s' : State} {w : Nat}
  {pending : Nat → List Nat}

theorem Linked.send_inPlace (hs : src.Linked sound t₀ s pending) {script : List WriteResult}
    (hfull : allFull (nextPieces s w) script = true) {k : Nat} (hw : (s.workers w).pc = .send k)
    (hw' : (s'.workers w).pc = .update k)
    (h : (machine md5).step s (.worker w (.send script)) = some s') :
    (s'.conns w).toServer = (s.conns w).toServer ++
      (ChunkMessage.mk k (pread s.localFile (k * src.chunkSize) src.chunkSize)).bytes := by
  cases step_cases h with
  | overrun => simp [State.goto, State.setWorker] at hw'
  | @send _ j _ br data pos hj hread hpos =>
    rw [hw] at hj
    obtain rfl := WorkerPc.send.inj hj
    show (update s.conns w _ w).toServer = _
    rw [update_self, hs.toDescribed.writeAll_sendPieces hw hread hfull, hs.localFile,
      ← ChunkedFile.chunk_eq_pread]
    rfl

theorem Linked.server_inPlace (hs : src.Linked sound t₀ s pending) (hsound : sound w)
    {junk : Nat → UInt8} {file : Option Path} {pos : Nat} {number size : Int}
    {buffer : Nat → UInt8} {m : ChunkMessage} {rest : List UInt8}
    (hpc : (s.servers w).pc = .receiveChunk file pos number size buffer) (hm : m.Fits)
    (hunread : (s.conns w).toServer = m.bytes ++ rest)
    (h : (machine md5).step s (.server w [] junk) = some s') :
    m.data = pread src.content (m.chunkNumber * src.chunkSize) src.chunkSize ∧
      s'.dir = update s.dir src.remote
        (some (.file
          (pwrite (s.dir.content src.remote) (m.chunkNumber * src.chunkSize) m.data))) := by
  have hlink := hs.link w hsound
  unfold Connects at hlink
  generalize hks : pending w = ks at hlink
  cases hlink with
  | idle _ _ _ hpc' | init _ _ hpc' | ready _ hpc' => rw [hpc] at hpc'; cases hpc'
  | done _ _ _ hpc' => simp [hpc] at hpc'
  | loop closing hpc' hsize _ _ _ hu =>
    rw [hunread] at hu
    cases ks with
    | nil =>
      -- what ends an upload is shorter than a message
      have hlen := congrArg List.length hu
      rw [List.length_append, ChunkMessage.length_bytes] at hlen
      cases closing <;> simp [body, uploadEnd] at hlen
      omega
    | cons k ks =>
      rw [body_cons] at hu
      have hk := hs.sendable w hsound k (by rw [hks]; exact List.mem_cons_self)
      obtain ⟨rfl, rfl⟩ := ChunkMessage.bytes_inj hm hk.fits hu
      cases step_cases h with
      | server hr =>
        rw [hunread, step_message hpc' hsize hk] at hr
        obtain rfl := Option.some.inj hr
        exact ⟨ChunkedFile.chunk_eq_pread k, rfl⟩

theorem Linked.writesInPlace {a : Act} (hs : src.Linked sound t₀ s pending)
    (hcalm : Calm sound s a s') (h : (machine md5).step s a = some s') :
    WritesInPlace sound src.chunkSize s a s' := by
  unfold WritesInPlace
  split
  · intro hsound k hw hw'
    exact hs.send_inPlace (hcalm hsound) hw hw' h
  · intro hsound file pos number size buffer m rest hpc hm hunread
    obtain ⟨rfl, -⟩ := hcalm hsound
    rw [hs.localFile, hs.local_file]
    exact hs.server_inPlace hsound hpc hm hunread h
  · trivial

end InPlace
end Source

/-- **Where the chunks of a resumed upload go.**  On connections that do not fail, and where
every chunk claimed is the first one or the chunk size announced is that of the .mdata file,
the servers write each chunk to the offset that the client has read it from.  If no
connection fails, then once all workers have exited and the servers have read what was sent,
the server's file is complete, if it had the chunks that the .mdata file does not offer. -/
theorem resume_in_place (src : Source) (md5 : Md5) (sound : Nat → Prop) {m : Metadata}
    {s₀ s : State} {as : List Act} (h₀ : src.Resumes m s₀)
    (hcalm : (machine md5).Along (Calm sound) s₀ as)
    (hplaced : (machine md5).Along (ClaimsPlaced sound src.chunkSize) s₀ as)
    (hr : (machine md5).run s₀ as = some s) :
    (machine md5).Along (WritesInPlace sound src.chunkSize) s₀ as ∧
    ((∀ w, sound w) → 1 ≤ s₀.numClient → (machine md5).Along NoSigint s₀ as →
      (∀ k c, m.chunkInfo[k]? = some c → Metadata.claimable c = false →
        src.Stored (src.remoteFile s₀) k) →
      (∀ w < s₀.numClient, (s.workers w).pc = .exited) →
      (∀ w < s₀.numClient, (s.conns w).toServer = []) →
      ∃ g, s.dir src.remote = some (.file g) ∧ g.take src.content.length = src.content) := by
  constructor
  · refine Machine.along_of_invariant
      (I := fun s => ∃ pending, src.Linked sound s₀.table s pending) ?_
      ⟨_, h₀.begins.linked sound⟩ (hcalm.and hplaced)
    rintro s a s' ⟨pending, hs⟩ ⟨hcalm, hplaced⟩ h
    obtain ⟨pending', hs', -⟩ := Source.linked_step hs hcalm hplaced h
    exact ⟨⟨pending', hs'⟩, hs.writesInPlace hcalm h⟩
  · intro hall hone hsig hstored hexited hread
    obtain rfl : sound = fun _ => True := funext fun w => eq_true (hall w)
    have hcompleting := h₀.begins.completing fun k c hc hno =>
      hstored k c (State.table_of_some h₀.mdata ▸ hc) hno
    obtain ⟨pending, hend⟩ := Source.completing_run hcompleting hcalm hplaced hsig hr
    rw [← numClient_run hr] at hone hexited hread
    exact (hend.complete hone hexited hread).2

/-- A file of two chunks of one byte, one of which is on the server already. -/
def sampleSource (announced : Int) (h : -2 ^ 63 ≤ announced ∧ announced < 2 ^ 63) : Source where
  content := [7, 8]
  chunkSize := 1
  one_le := Nat.one_pos
  local_file := sampleName
  announced
  length_lt := by decide
  announced_range := h

def sampleMetadata : Metadata :=
  ((createHeader (fun _ => Buffer.zero _) (Buffer.zero _) [7, 8] 1).fresh 0).setChunkStatus 0 .chOk
    none

/-- The start of a run with one worker that goes on with this upload. -/
def sampleResumed (chunk_size : Int) : State :=
  .begin 1 chunk_size sampleName [7, 8] (some sampleMetadata) fun p =>
    if p = [97] then some (.file [7]) else none

/-- The whole run. -/
def sampleUpload : List Act :=
  sampleFork ++ .worker 0 (.open []) :: sampleChunk 0 ++ sampleGiveUp 0 ++
    [sampleServer 0, sampleServer 0, sampleServer 0, sampleServer 0]

theorem resumes_sample {announced : Int} (h : -2 ^ 63 ≤ announced ∧ announced < 2 ^ 63)
    (h0 : announced ≠ 0) : (sampleSource announced h).Resumes sampleMetadata
      (sampleResumed announced) where
  toInitial := initial_begin _ _ _ _ _ _
  localFile := rfl
  local_file := rfl
  announced := if_neg h0
  mdata := rfl
  describes := ⟨rfl, rfl⟩
  chunks := by
    show sampleMetadata.chunks = chunkCount 2 1
    decide
  noFolder := rfl

/-- With the chunk size of the .mdata file the server's file is completed. -/
theorem resume_in_place_sample :
    ∃ s, (machine fun _ => Buffer.zero _).run (sampleResumed 1) sampleUpload = some s ∧
      (machine fun _ => Buffer.zero _).Along (WritesInPlace (fun _ => True) 1) (sampleResumed 1)
        sampleUpload ∧
      ∃ g, s.dir [97] = some (.file g) ∧ g.take 2 = [7, 8] := by
  have hrun : ((machine fun _ => Buffer.zero _).run (sampleResumed 1) sampleUpload).any
      (fun s => s.Done) = true := by decide +kernel
  obtain ⟨s, hs, hexited, hread⟩ := done_run hrun
  obtain ⟨hplace, hcomplete⟩ := resume_in_place (sampleSource 1 (by decide)) _ (fun _ => True)
    (resumes_sample (by decide) (by decide)) (by decide +kernel) (by decide +kernel) hs
  refine ⟨s, hs, hplace,
    hcomplete (fun _ => trivial) (by decide) (by decide +kernel) ?_ hexited hread⟩
  intro k c hk hno
  match k with
  | 0 => exact (by decide +kernel : pread [7] 0 1 = [7])
  | 1 => cases hk; cases hno
  | k + 2 => cases hk

/-- With another one the second chunk goes to the wrong place, and nobody notices. -/
theorem resume_fails :
    (sampleSource 2 (by decide)).Resumes sampleMetadata (sampleResumed 2) ∧
    (machine fun _ => Buffer.zero _).Along (Calm fun _ => True) (sampleResumed 2) sampleUpload ∧
    (machine fun _ => Buffer.zero _).Along NoSigint (sampleResumed 2) sampleUpload ∧
    ((machine fun _ => Buffer.zero _).run (sampleResumed 2) sampleUpload).map
        (fun s => ((s.workers 0).pc, (s.conns 0).toServer, s.table.map ChunkInfo.status,
          s.dir [97])) =
      some (.exited, [], [.chOk, .chOk], some (.file [7, 0, 8])) ∧
    [7, 0, 8].take 2 ≠ [7, 8] :=
  ⟨resumes_sample (by decide) (by decide), by decide +kernel, by decide +kernel, by decide +kernel,
    by decide⟩

end Mhftp.Upload
