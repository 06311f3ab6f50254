import Mhftp.FinishedLength
import Mhftp.InUse
import Mhftp.UploadTermination

/-! # Uploads that do their work

Over connections that do not fail nobody waits for ever in an upload: the workers wait for
the lock only, and the parent for the workers; when these have ended the servers read what
has been sent, up to the end of the stream (`Source.Smooth.moves`).  As an upload has an end,
it comes to the one where the server has the file (`upload_succeeds`).
-/

namespace Mhftp.Upload
open Library

/-- The bytes that a server reads come in pieces. -/
def Act.InPieces : Act → Prop
  | .server _ script _ => Pieces script
  | _ => True

instance : (a : Act) → Decidable a.InPieces
  | .server _ script _ => inferInstanceAs (Decidable (∀ rs ∈ script, ∀ r ∈ rs, r.Piece))
  | .parent _ | .worker _ _ => isTrue trivial

/-- The step that it would be if they came at once. -/
def Act.whole : Act → Act
  | .server w _ junk => .server w [] junk
  | a => a

/-- No SIGPIPE arrives. -/
def Act.unbroken : Act → Bool
  | .parent .sigpipe | .worker _ .sigpipe => false
  | _ => true

/-- Nobody interrupts mhclient, it can fork, and no SIGPIPE arrives. -/
def Act.ordinary : Act → Bool
  | .parent .sigint | .parent .forkFails | .parent .sigpipe | .worker _ .sigpipe => false
  | _ => true

/-- Every write is accepted in full, and a server waits for what it wants to read until mhclient
and its workers have ended. -/
structure Blocking (s : State) (a : Act) (s' : State) : Prop where
  pieces : a.InPieces
  calm : Calm (fun _ => True) s a.whole s'

instance (s : State) (a : Act) (s' : State) : Decidable (Blocking s a s') :=
  decidable_of_iff (a.InPieces ∧ Calm (fun _ => True) s a.whole s')
    ⟨fun h => ⟨h.1, h.2⟩, fun h => ⟨h.pieces, h.calm⟩⟩

/-- A process can take a step, over connections that do not fail and without interruption. -/
def Moves (md5 : Md5) (s : State) : Prop :=
  ∃ a s', a.within s.numClient = true ∧ a.ordinary = true ∧ (machine md5).step s a = some s' ∧
    Blocking s a s'

/-- The worker has been killed. -/
def WorkerPc.harmed : WorkerPc → Bool
  | killed | dead _ => true
  | _ => false

section Run
variable {src : Source} {md5 : Md5} {t₀ : List ChunkInfo} {s s' : State} {a : Act}
  {pending : Nat → List Nat}

/-- How the bytes come makes no difference. -/
theorem step_whole (ha : a.InPieces) (h : (machine md5).step s a = some s') :
    (machine md5).step s a.whole = some s' := by
  cases a with
  | parent | worker => exact h
  | server w script junk =>
    obtain ⟨q, hq, rfl⟩ := Option.map_eq_some_iff.mp h
    have halike : (Wire.mk (s.conns w).toServer [] (s.conns w).short).Alike
        ⟨(s.conns w).toServer, script, (s.conns w).short⟩ :=
      ⟨rfl, rfl, fun _ h => (by cases h), ha⟩
    obtain ⟨r, hr, hserver, hdir, -, hwire⟩ := MhProtoServer.step_alike halike hq
    refine Option.map_eq_some_iff.mpr ⟨r, hr, ?_⟩
    rw [hserver, hdir, hwire.unread, hwire.short]

/-- What the parent does while nobody interrupts it. -/
structure Uninterrupted (s : State) : Prop where
  workers : Forked s
  loop : ∀ i, s.pc = .loop i → i ≤ s.numClient
  pc : s.pc ≠ .aborted ∧ s.pc ≠ .killWait

theorem uninterrupted_step (hs : Uninterrupted s) (ho : Orderly t₀ s) (hone : 1 ≤ s.numClient)
    (hfew : s.numClient ≤ nproc) (ha : a.ordinary = true)
    (h : (machine md5).step s a = some s') : Uninterrupted s' := by
  have hforked := forked_step hs.workers h
  cases step_cases h with
  | init | save | wait | finish => exact ⟨hforked, by simp, by simp⟩
  | refuse _ hlt => exact absurd hfew (by omega)
  | @fork i hpc =>
    refine ⟨hforked, fun j hj => ?_, by simp⟩
    obtain rfl := ParentPc.loop.inj hj
    exact ho.turn i (.inr hpc)
  | waitFails hpc _ hm =>
    -- there is an .mdata file after the first turn
    rcases (ho.file (hm.resolve_right (by omega))).2 with he | he | he
    · have := ParentPc.loop.inj (hpc.symm.trans he)
      omega
    · exact absurd he hs.pc.1
    · exact absurd he hs.pc.2
  | exit hpc => exact absurd hpc hs.pc.2
  | sigint | forkFails | sigpipe => cases ha
  | _ => exact ⟨hforked, hs.loop, hs.pc⟩

/-- A chunk fits into the buffer of a worker. -/
theorem Source.Described.readChunk_isSome (hs : src.Described t₀ s)
    (hsize : src.chunkSize ≤ maxChunkSize) {w k : Nat} (hw : (s.workers w).pc = .send k) :
    (Upload.readChunk s.localFile (s.workers w) k).isSome = true := by
  have hk := hs.has (w := w) (k := k) (by simp [State.Holds, hw])
  have hpay := (hs.worker w).payLoadArray (by simp [hw])
  have hle : src.size k ≤ src.chunkSize := ChunkedFile.size_le k
  have hlength (pos : Nat) : (pread s.localFile pos (src.size k)).length ≤ maxChunkSize := by
    rw [pread]
    exact (List.length_take_le _ _).trans (hle.trans hsize)
  rw [Upload.readChunk, hpay, getElem?_getPayLoadArray hk, hk.payLoad_eq src.length_lt]
  dsimp only
  rw [if_neg (by omega), Int.toNat_natCast, if_pos (hlength _)]
  rfl

theorem unbroken_of_ordinary (ha : a.ordinary = true) : a.unbroken = true := by
  unfold Act.unbroken
  split
  · cases ha
  · cases ha
  · rfl

/-- Nobody is killed. -/
theorem harmed_step (hs : src.Described t₀ s) (hsize : src.chunkSize ≤ maxChunkSize)
    (ha : a.unbroken = true) (h : (machine md5).step s a = some s')
    (hw : ∀ w, (s.workers w).pc.harmed = false) : ∀ w, (s'.workers w).pc.harmed = false := by
  have moved {v : Nat} {wk : Worker} (hwk : wk.pc.harmed = false) :
      ∀ w, (update s.workers v wk w).pc.harmed = false :=
    forall_update (Q := fun wk : Worker => wk.pc.harmed = false) hwk hw
  cases step_cases h with
  | overrun hw hread =>
    have hsome := hs.readChunk_isSome hsize hw
    rw [hread] at hsome
    cases hsome
  | sigpipeStart | sigpipeSend => cases ha
  | test =>
    refine moved ?_
    dsimp only
    split <;> rfl
  | fork | «open» | lockClaim | lockUpdate | loadClaim | loadUpdate | claim | giveUp
  | releaseClaim | releaseUpdate | send | update => exact moved rfl
  | _ => exact hw

/-! ### The invariant -/

/-- **The invariant of an upload over connections that do not fail.** -/
structure Source.Smooth (src : Source) (t₀ : List ChunkInfo) (n : Nat) (s : State)
    (pending : Nat → List Nat) : Prop extends src.Completing t₀ s pending, Uninterrupted s where
  numClient : s.numClient = n
  unharmed : ∀ w, (s.workers w).pc.harmed = false

theorem exited_of_finished {pc : WorkerPc} (hforked : pc ≠ .notForked)
    (hunharmed : pc.harmed = false) (hfinished : pc.finished = true) : pc = .exited := by
  cases pc with
  | exited => rfl
  | notForked => exact absurd rfl hforked
  | killed | dead => cases hunharmed
  | _ => cases hfinished

/-- Everybody has ended, the workers at the end of their loops. -/
structure State.Idling (s : State) : Prop where
  pc : s.pc = .ended
  workers : ∀ w < s.numClient, (s.workers w).pc = .exited
  servers : ∀ w < s.numClient, (s.servers w).pc = .exited ∨ (s.servers w).pc = .faulted

theorem Initial.uninterrupted (h : Initial s) : Uninterrupted s where
  workers := fun w hw => by
    rw [h.pc] at hw
    exact absurd hw (Nat.not_lt_zero w)
  loop := fun i hi => by
    rw [h.pc] at hi
    obtain rfl := ParentPc.loop.inj hi
    exact Nat.zero_le _
  pc := by rw [h.pc]; simp

theorem noSigint_of_ordinary (ha : a.ordinary = true) : NoSigint s a s' := by
  unfold NoSigint
  split
  · cases ha
  · trivial

theorem Source.smooth_step {n : Nat} (hs : src.Smooth t₀ n s pending)
    (hsize : src.chunkSize ≤ maxChunkSize) (hn : 1 ≤ n ∧ n ≤ nproc)
    (hblocking : Blocking s a s') (hplaced : ClaimsPlaced (fun _ => True) src.chunkSize s a s')
    (ha : a.ordinary = true) (h : (machine md5).step s a = some s') :
    ∃ pending', src.Smooth t₀ n s' pending' := by
  have hnum := hs.numClient
  have hgoes := uninterrupted_step hs.toUninterrupted hs.toOrderly (by omega) (by omega) ha h
  have hunharmed := harmed_step hs.toDescribed hsize (unbroken_of_ordinary ha) h hs.unharmed
  have hplaced' : ClaimsPlaced (fun _ => True) src.chunkSize s a.whole s' := by
    cases a <;> exact hplaced
  obtain ⟨pending', hcompleting⟩ := completing_step hs.toCompleting hblocking.calm hplaced'
    (by cases a <;> exact noSigint_of_ordinary ha) (step_whole hblocking.pieces h)
  exact ⟨pending', hcompleting, hgoes, (fixed_step h).1.trans hnum, hunharmed⟩

/-! ### Who can go on -/

theorem Moves.worker {w : Nat} (a : WorkerAct) (ha : (Act.worker w a).ordinary = true)
    (hcalm : ∀ s', Calm (fun _ => True) s (.worker w a) s')
    (h : (workerStep s w a).isSome = true) : Moves md5 s := by
  obtain ⟨s', hs'⟩ := Option.isSome_iff_exists.mp h
  exact ⟨.worker w a, s', rfl, ha, hs', trivial, hcalm s'⟩

theorem Moves.parent (a : ParentAct) (ha : (Act.parent a).ordinary = true)
    (hcalm : ∀ s', Calm (fun _ => True) s (.parent a) s')
    (h : (parentStep md5 s a).isSome = true) : Moves md5 s := by
  obtain ⟨s', hs'⟩ := Option.isSome_iff_exists.mp h
  exact ⟨.parent a, s', rfl, ha, hs', trivial, hcalm s'⟩

theorem allFull_nil (ps : List (List UInt8)) : allFull ps [] = true := by
  cases ps <;> rfl

/-- Nobody waits inside the critical section. -/
theorem moves_of_critical (hs : Orderly t₀ s) {w : Nat}
    (hw : (phase (s.workers w)).critical = true) : Moves md5 s := by
  have hactive : (s.workers w).pc.finished = false := by
    unfold phase at hw
    cases hpc : (s.workers w).pc <;> rw [hpc] at hw <;> first | rfl | cases hw
  obtain ⟨-, -, -, -, m, hm⟩ := hs.active hactive
  unfold phase at hw
  cases hpc : (s.workers w).pc <;> rw [hpc] at hw <;> try cases hw
  case claimLocked | updateLocked =>
    exact .worker (w := w) .load rfl (fun _ => trivial) (by simp [workerStep, hpc, hm])
  case claimLoaded =>
    cases hk : (s.workers w).metadata.getNextPendingChunk with
    | none =>
      exact .worker (w := w) (.giveUp []) rfl (fun _ _ => allFull_nil _)
        (by simp [workerStep, hpc, hk])
    | some k =>
      exact .worker (w := w) .claim rfl (fun _ => trivial) (by simp [workerStep, hpc, hk])
  case claimed | updated =>
    exact .worker (w := w) .release rfl (fun _ => trivial) (by simp [workerStep, hpc])
  case updateLoaded =>
    exact .worker (w := w) .update rfl (fun _ => trivial) (by simp [workerStep, hpc])

namespace Source.Smooth
variable {n : Nat}

/-- Who waits for the lock waits for one that can go on. -/
theorem moves_of_lock (hs : src.Smooth t₀ n s pending) {w : Nat}
    (hw : s.lock = none → (workerStep s w .lock).isSome = true) : Moves md5 s := by
  cases hl : s.lock with
  | none => exact .worker (w := w) .lock rfl (fun _ => trivial) (hw hl)
  | some v => exact moves_of_critical hs.toOrderly (w := v) ((hs.stale.owner v).mpr hl)

/-- **While a worker is there somebody can go on.** -/
theorem worker_moves (hs : src.Smooth t₀ n s pending) (hsize : src.chunkSize ≤ maxChunkSize)
    {w : Nat} (hw : (s.workers w).pc.finished = false) : Moves md5 s := by
  obtain ⟨-, -, -, -, m, hm⟩ := hs.toOrderly.active hw
  cases hpc : (s.workers w).pc <;> rw [hpc] at hw <;> try cases hw
  case start =>
    exact .worker (w := w) (.open []) rfl (fun _ _ => allFull_nil _)
      (by simp [workerStep, hpc, hm])
  case loop | update => exact hs.moves_of_lock (w := w) fun hl => by simp [workerStep, hl, hpc]
  case claimLocked | claimLoaded | claimed | updateLocked | updateLoaded | updated =>
    exact moves_of_critical hs.toOrderly (w := w) (by simp [phase, hpc, ClaimTable.Phase.critical])
  case send k =>
    obtain ⟨⟨br, data⟩, hread⟩ :=
      Option.isSome_iff_exists.mp (hs.toDescribed.readChunk_isSome hsize hpc)
    exact .worker (w := w) (.send []) rfl (fun _ _ => allFull_nil _)
      (by simp [workerStep, hpc, hread])
  case looping => exact .worker (w := w) .test rfl (fun _ => trivial) (by simp [workerStep, hpc])

/-- When the workers have ended the parent can go on. -/
theorem parent_moves (hs : src.Smooth t₀ n s pending) (hn : 1 ≤ n ∧ n ≤ nproc)
    (hall : s.AllFinished) : Moves md5 s ∨ s.pc = .ended := by
  have hnum := hs.numClient
  cases hpc : s.pc with
  | loop i =>
    have hi := hs.loop i hpc
    by_cases he : i = s.numClient
    · refine .inl (.parent .wait rfl (fun _ => trivial) ?_)
      simp only [parentStep, hpc, he, hall, and_self, if_true]
      cases s.mdata with
      | none => rfl
      | some m => simp [show s.numClient ≠ 0 by omega]
    · refine .inl (.parent (.init (fun _ => 0) []) rfl (fun _ _ => allFull_nil _) ?_)
      have hlt : s.numClient ≤ nproc ∧ i < s.numClient := by omega
      simp [parentStep, hpc, hlt]
  | inited i => exact .inl (.parent .save rfl (fun _ => trivial) (by simp [parentStep, hpc]))
  | saved i => exact .inl (.parent .fork rfl (fun _ => trivial) (by simp [parentStep, hpc]))
  | finalLoaded =>
    exact .inl (.parent .finish rfl (fun _ => trivial) (by simp [parentStep, hpc]))
  | ended => exact .inr rfl
  | aborted => exact absurd hpc hs.pc.1
  | killWait => exact absurd hpc hs.pc.2

/-- When all of mhclient has ended a server reads what is left, up to the end of the stream. -/
theorem server_moves (hclosed : s.Closed) {w : Nat} (hw : w < s.numClient)
    (hserver : (s.servers w).pc ≠ .exited ∧ (s.servers w).pc ≠ .faulted) : Moves md5 s := by
  obtain ⟨r, hr⟩ : ∃ r, (s.servers w).step md5 (fun _ => 0) s.dir
      ⟨(s.conns w).toServer, [], (s.conns w).short⟩ = some r := by
    unfold MhProtoServer.step
    split
    · exact ⟨_, rfl⟩
    · exact ⟨_, rfl⟩
    · exact ⟨_, rfl⟩
    · next he => exact absurd he hserver.1
    · next he => exact absurd he hserver.2
  exact ⟨.server w [] fun _ => 0, _, by simp [Act.within, hw], rfl,
    Option.map_eq_some_iff.mpr ⟨r, hr, rfl⟩, nofun, fun _ => ⟨rfl, fun _ => hclosed⟩⟩

/-- **Where nobody can go on all have ended.** -/
theorem idling (hs : src.Smooth t₀ n s pending) (hsize : src.chunkSize ≤ maxChunkSize)
    (hn : 1 ≤ n ∧ n ≤ nproc) (hstuck : ¬ Moves md5 s) : s.Idling := by
  have hall : s.AllFinished := fun w _ => by
    by_contra hw
    exact hstuck (hs.worker_moves hsize (Bool.not_eq_true _ ▸ hw))
  have hended := (hs.parent_moves hn hall).resolve_left hstuck
  refine ⟨hended, fun w hw => ?_, fun w hw => ?_⟩
  · have hforked := hs.workers w (by rw [hended]; exact hw)
    exact exited_of_finished hforked (hs.unharmed w) (hall w hw)
  · by_contra hno
    exact hstuck (server_moves ⟨.inl hended, hall⟩ hw (not_or.mp hno))

/-- Then the servers have read all that was sent. -/
theorem read (hs : src.Smooth t₀ n s pending) (hidling : s.Idling) {w : Nat}
    (hw : w < s.numClient) : (s.conns w).toServer = [] ∧ (s.servers w).pc = .exited := by
  have hlink := hs.link w trivial
  have hserver := hidling.servers w hw
  unfold Connects at hlink
  generalize pending w = ks at hlink
  cases hlink with
  | idle _ _ _ hpc | init _ _ hpc | ready _ hpc | loop _ hpc => simp [hpc] at hserver
  | done _ _ hunread hpc =>
    rcases hpc with hpc | hpc
    · simp [hpc] at hserver
    · exact ⟨hunread, hpc⟩

/-- The upload has been made. -/
theorem made (hs : src.Smooth t₀ n s pending) (hsize : src.chunkSize ≤ maxChunkSize)
    (hn : 1 ≤ n ∧ n ≤ nproc) (hstuck : ¬ Moves md5 s) : s.pc = .ended ∧
      (∀ w < n, (s.workers w).pc = .exited ∧ (s.servers w).pc = .exited) ∧
      (∃ m, s.mdata = some m ∧ ∀ (k : Nat) (c₀ c : ChunkInfo), t₀[k]? = some c₀ →
        Metadata.claimable c₀ = true → m.chunkInfo[k]? = some c → c.status = .chOk) ∧
      ∃ g, s.dir src.remote = some (.file g) ∧ g.take src.content.length = src.content := by
  have hidling := hs.idling hsize hn hstuck
  have hnum := hs.numClient
  obtain ⟨hok, hfile⟩ := hs.complete (by omega) hidling.workers fun w hw => (hs.read hidling hw).1
  refine ⟨hidling.pc, fun w hw => ⟨hidling.workers w (by omega), ?_⟩, hok, hfile⟩
  exact (hs.read hidling (by omega)).2

end Source.Smooth

theorem Source.smooth_run {n : Nat} {as : List Act} (hs : src.Smooth t₀ n s pending)
    (hsize : src.chunkSize ≤ maxChunkSize) (hn : 1 ≤ n ∧ n ≤ nproc)
    (hblocking : (machine md5).Along Blocking s as)
    (hplaced : (machine md5).Along (ClaimsPlaced (fun _ => True) src.chunkSize) s as)
    (hordinary : ∀ a ∈ as, a.ordinary = true) (hr : (machine md5).run s as = some s') :
    (∃ pending', src.Smooth t₀ n s' pending') ∧
      src.Grown (src.remoteFile s) (src.remoteFile s') := by
  have hord : (machine md5).Along (fun _ a _ => a.ordinary = true) s as :=
    Machine.along_of_at_step fun bs a cs _ _ he _ _ => hordinary a (by simp [he])
  refine Machine.run_invariant (I := fun u => (∃ pending', src.Smooth t₀ n u pending') ∧
    src.Grown (src.remoteFile s) (src.remoteFile u)) ?_ ⟨⟨pending, hs⟩, ChunkedFile.grown_self _⟩
    ((hblocking.and hplaced).and hord) hr
  rintro u a u' ⟨⟨pending', hu⟩, hgrown⟩ ⟨⟨hblocking, hplaced⟩, ha⟩ h
  exact ⟨smooth_step hu hsize hn hblocking hplaced ha h,
    hgrown.writes (hu.toLinked.writes hblocking.calm (step_whole hblocking.pieces h))⟩

theorem orderly_run {as : List Act} (hs : Orderly t₀ s) (hr : (machine md5).run s as = some s') :
    Orderly t₀ s' :=
  Machine.run_invariant_of_step (I := Orderly t₀) (fun _ _ _ hs h => orderly_step hs h) hs hr

/-- The servers have ended. -/
def State.AllServed (s : State) : Prop := ∀ w < s.numClient, (s.servers w).pc.rank = 0

instance (s : State) : Decidable s.AllServed :=
  inferInstanceAs (Decidable (∀ w < s.numClient, _))

theorem not_moves_of_ended (hs : Orderly t₀ s) (hpc : s.pc = .ended) (hserved : s.AllServed) :
    ¬ Moves md5 s := by
  have hall := hs.late (.inr hpc)
  have absent {w : Nat} {pc : WorkerPc} (hw : (s.workers w).pc = pc)
      (hunfinished : pc.finished = false) : False := by
    have hlt := (hs.active (hw ▸ hunfinished)).2.2.2.1
    have hfinished := hall w hlt
    rw [hw, hunfinished] at hfinished
    cases hfinished
  rintro ⟨a, s', hwithin, -, h, -⟩
  cases step_cases h with
  | @server w _ _ r hr =>
    have hrank := hserved w (of_decide_eq_true hwithin)
    unfold MhProtoServer.step at hr
    split at hr <;> simp_all [ServerPc.rank]
  | init he | sigpipe he | save he | fork he | forkFails he | refuse he | wait he | waitFails he
  | finish he | exit he => cases hpc.symm.trans he
  | sigint he => simp [hpc] at he
  | «open» hw | lockClaim _ hw | lockUpdate _ hw | loadClaim hw | loadUpdate hw | claim hw
  | giveUp hw | releaseClaim hw | releaseUpdate hw | overrun hw | send hw | sigpipeStart hw
  | sigpipeSend hw | update hw | test hw => exact absent hw rfl

/-- **Where nobody can go on** the upload has been made. -/
theorem uploaded_of_stuck {s₀ : State} {as : List Act} (h₀ : Initial s₀)
    (hfresh : s₀.mdata = none) (hc : 1 ≤ s₀.chunk_size ∧ s₀.chunk_size ≤ maxChunkSize)
    (hchunks : 32 * chunkCount s₀.localFile.length s₀.chunk_size < 2 ^ 31)
    (hfolder : s₀.dir.isFolder (absoluteFile s₀.local_file.path) = false)
    (hn : 1 ≤ s₀.numClient ∧ s₀.numClient ≤ nproc)
    (hblocking : (machine md5).Along Blocking s₀ as) (hordinary : ∀ a ∈ as, a.ordinary = true)
    (hr : (machine md5).run s₀ as = some s) (hstuck : ¬ Moves md5 s) : s.pc = .ended ∧
      (∀ w < s₀.numClient, (s.workers w).pc = .exited ∧ (s.servers w).pc = .exited) ∧
      (∃ m, s.mdata = some m ∧ m.chunks = chunkCount s₀.localFile.length s₀.chunk_size ∧
        ∀ c ∈ m.chunkInfo, c.status = .chOk) ∧
      ∃ g, s.dir (absoluteFile s₀.local_file.path) = some (.file g) ∧
        g.take s₀.localFile.length = s₀.localFile ∧
        (g = s₀.localFile ↔ (s₀.dir.content (absoluteFile s₀.local_file.path)).length ≤
          s₀.localFile.length) := by
  let src := freshSource s₀ hc hchunks
  have hsize : src.chunkSize ≤ maxChunkSize := by
    have hmax := hc.2
    show s₀.chunk_size.toNat ≤ maxChunkSize
    omega
  have hstart : src.Smooth s₀.table s₀.numClient s₀ fun _ => [] :=
    ⟨completing_freshSource h₀ hfresh hc hchunks hfolder, h₀.uninterrupted, rfl,
      fun w => by rw [h₀.workers w]; rfl⟩
  obtain ⟨⟨pending, hend⟩, hgrown⟩ := Source.smooth_run hstart hsize hn hblocking
    (claimsPlaced_freshSource hc hchunks as) hordinary hr
  obtain ⟨hpc, hended, ⟨m, hm, hok⟩, g, hg, htake⟩ := hend.made hsize hn hstuck
  refine ⟨hpc, hended, ⟨m, hm, hend.fresh_ok hfresh hc.1 hm hok⟩, g, hg, htake, ?_⟩
  -- a file that begins with the file and has its length is the file
  have hfile : src.remoteFile s = g := content_of_file hg
  have hlength := hgrown.length_eq_iff (hfile.symm ▸ htake)
  rw [hfile] at hlength
  refine Iff.trans ⟨fun he => by rw [he]; rfl, fun he => ?_⟩ hlength
  exact (List.take_of_length_le he.le).symm.trans htake

end Run

/-- **An upload does its work.**  There is no .mdata file yet, the chunk size is one that the
servers take, the table is one that can be written and read, the servers have no folder of the
name, no connection fails and nobody interrupts mhclient.  Then, in whatever order its
one to ten workers and their servers go on, this takes a bounded number of steps; and when none
of them can take another step all have ended, every chunk is CH_OK, and the server has the
file: all of it in its place, and nothing behind it unless there was something before. -/
theorem upload_succeeds (md5 : Md5) {s₀ s : State} {as : List Act} (h₀ : Initial s₀)
    (hfresh : s₀.mdata = none) (hc : 1 ≤ s₀.chunk_size ∧ s₀.chunk_size ≤ maxChunkSize)
    (hchunks : 32 * chunkCount s₀.localFile.length s₀.chunk_size ≤ maxCount)
    (hfolder : s₀.dir.isFolder (absoluteFile s₀.local_file.path) = false)
    (hn : 1 ≤ s₀.numClient ∧ s₀.numClient ≤ nproc)
    (hblocking : (machine md5).Along Blocking s₀ as) (hordinary : ∀ a ∈ as, a.ordinary = true)
    (hr : (machine md5).run s₀ as = some s) :
    as.countP (Act.within s₀.numClient) ≤
        (3 * maxChunkSize + 58) * (s₀.table.countP Metadata.claimable * (s₀.numClient + 1)) +
          6281 * s₀.numClient + 3 ∧
      (¬ Moves md5 s → s.pc = .ended ∧
        (∀ w < s₀.numClient, (s.workers w).pc = .exited ∧ (s.servers w).pc = .exited) ∧
        (∃ m, s.mdata = some m ∧ m.chunks = chunkCount s₀.localFile.length s₀.chunk_size ∧
          ∀ c ∈ m.chunkInfo, c.status = .chOk) ∧
        ∃ g, s.dir (absoluteFile s₀.local_file.path) = some (.file g) ∧
          g.take s₀.localFile.length = s₀.localFile ∧
          (g = s₀.localFile ↔ (s₀.dir.content (absoluteFile s₀.local_file.path)).length ≤
            s₀.localFile.length)) :=
  ⟨steps_le h₀ hr, uploaded_of_stuck h₀ hfresh hc (lt_of_le_maxCount hchunks) hfolder hn hblocking
    hordinary hr⟩

/-- To the end of all processes. -/
def sampleToEnd : List Act :=
  sampleTwice ++ [.parent .wait, .parent .finish, sampleServer 0, sampleServer 1]

theorem upload_succeeds_sample : ∃ s,
    (machine fun _ => Buffer.zero _).run (.begin 2 1 sampleName [7] none fun _ => none)
      sampleToEnd = some s ∧ s.pc = .ended ∧ ∃ g, s.dir [97] = some (.file g) ∧ g = [7] := by
  obtain ⟨s, hs, hpc, hserved⟩ : ∃ s,
      (machine fun _ => Buffer.zero _).run (.begin 2 1 sampleName [7] none fun _ => none)
        sampleToEnd = some s ∧ s.pc = .ended ∧ s.AllServed := Machine.exists_run
          (by decide +kernel)
  have h₀ := initial_begin 2 1 sampleName [7] none fun _ => none
  obtain ⟨-, -, -, g, hg, -, hfile⟩ := (upload_succeeds _ h₀ rfl
    ⟨by decide, by rw [maxChunkSize_eq]; decide⟩ (by rw [maxCount_eq]; decide) rfl (by decide)
    (by decide +kernel) (by decide +kernel) hs).2
      (not_moves_of_ended (orderly_run h₀.orderly hs) hpc hserved)
  exact ⟨s, hs, hpc, g, hg, hfile.mpr (by decide)⟩

end Mhftp.Upload
