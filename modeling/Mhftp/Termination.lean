import Mhftp.CheckResume
import Mhftp.Session
import Mhftp.Library.Potential

/-! # How long everything takes

Each step of a server process reads a byte of its connection or takes it out of a loop, so
a connection gets it only so far (`session_ends`).  A worker of a download goes round its
loop once for each claim, and the claims are bounded (`claims_bounded`), so that a download
has no infinite run, whatever fails (`terminates`).
-/

namespace Mhftp
open Library

namespace Wire
variable {w : Wire} {n : Nat}

/-- A `so_read` takes away the bytes that it returns. -/
theorem length_soRead :
    (w.soRead n).wire.unread.length + (w.soRead n).br.toNat = w.unread.length := by
  obtain ⟨k, hk, -, hrest, hbr⟩ := soRead_spec w.unread n (w.script.headD [])
  show (Mhftp.soRead _ _ _).rest.length + (Mhftp.soRead _ _ _).br.toNat = _
  rw [hrest, List.length_drop]
  omega

theorem soRead_length_le : (w.soRead n).wire.unread.length ≤ w.unread.length := by
  have := length_soRead (w := w) (n := n)
  omega

theorem soRead_length_lt (h : ¬ (w.soRead n).br ≤ 0) :
    (w.soRead n).wire.unread.length < w.unread.length := by
  have := length_soRead (w := w) (n := n)
  omega

theorem readMetadataHeader_length_le (g : Header) :
    (g.readMetadataHeader w).2.unread.length ≤ w.unread.length :=
  soRead_length_le.trans <| soRead_length_le.trans <| soRead_length_le.trans <|
    soRead_length_le.trans soRead_length_le

end Wire

/-- The loops that the process is still in. -/
def ServerPc.rank : ServerPc → Nat
  | rcvCmd => 1
  | sendChunk _ _ _ | receiveChunk _ _ _ _ _ => 2
  | exited | faulted => 0

namespace MhProtoServer
variable {md5 : Md5} {junk : Nat → UInt8} {srv : MhProtoServer} {dir : Dir} {w : Wire} {r : Served}

theorem readPath_length_le {size : Int} :
    (readPath size w).wire.unread.length ≤ w.unread.length := by
  unfold readPath
  split
  · exact le_rfl
  · exact Wire.soRead_length_le

theorem rank_le (pc : ServerPc) : pc.rank ≤ 2 := by
  cases pc <;> simp [ServerPc.rank]

theorem rcvCmd_rank :
    (srv.rcvCmd md5 junk dir w).server.pc.rank +
      3 * (srv.rcvCmd md5 junk dir w).wire.unread.length < 1 + 3 * w.unread.length := by
  by_cases hbr : (w.soRead 1).br ≤ 0
  · -- `exit`
    have hle := Wire.soRead_length_le (w := w) (n := 1)
    simp only [rcvCmd, hbr, if_true]
    show 0 + _ < _
    omega
  · have hlt := Wire.soRead_length_lt hbr
    have hrank := rank_le (srv.rcvCmd md5 junk dir w).server.pc
    suffices h : (srv.rcvCmd md5 junk dir w).wire.unread.length ≤
        (w.soRead 1).wire.unread.length by omega
    unfold rcvCmd
    simp only [hbr, if_false]
    split
    · rw [sendChunkToClient_wire]
      exact Wire.readMetadataHeader_length_le _
    · split
      · unfold sendMetadataToClient
        dsimp only
        split
        · exact Wire.soRead_length_le.trans Wire.soRead_length_le
        · split <;> exact readPath_length_le.trans
            (Wire.soRead_length_le.trans Wire.soRead_length_le)
      · split
        · exact le_rfl
        · split
          · unfold initUpload
            dsimp only
            split
            · exact Wire.soRead_length_le
            · exact Wire.soRead_length_le.trans <| Wire.soRead_length_le.trans <|
                Wire.soRead_length_le.trans <| readPath_length_le.trans
                  Wire.soRead_length_le
          · exact le_rfl

theorem sendChunkTurn_rank {file : Path} {wait pos : Nat} :
    (srv.sendChunkTurn md5 junk file wait pos dir w).server.pc.rank +
      3 * (srv.sendChunkTurn md5 junk file wait pos dir w).wire.unread.length <
        2 + 3 * w.unread.length := by
  rw [sendChunkTurn_wire]
  by_cases hbr : (w.readBuffer (Buffer.zero 7)).br ≤ 0
  · have hle := Wire.soRead_length_le (w := w) (n := 7)
    simp only [sendChunkTurn, hbr, if_true]
    show 1 + 3 * (w.soRead 7).wire.unread.length < _
    omega
  · have hlt : (w.readBuffer (Buffer.zero 7)).wire.unread.length < w.unread.length :=
      Wire.soRead_length_lt hbr
    have := rank_le (srv.sendChunkTurn md5 junk file wait pos dir w).server.pc
    omega

theorem receiveChunkTurn_rank {file : Option Path} {pos : Nat} {chunkNumber chunkSize : Int}
    {buffer : Nat → UInt8} :
    (srv.receiveChunkTurn file pos chunkNumber chunkSize buffer dir w).server.pc.rank +
      3 * (srv.receiveChunkTurn file pos chunkNumber chunkSize buffer dir w).wire.unread.length <
        2 + 3 * w.unread.length := by
  by_cases hbr : (w.readInt64 chunkNumber).br ≤ 0
  · have hle := Wire.soRead_length_le (w := w) (n := 8)
    simp only [receiveChunkTurn, hbr, if_true]
    show 1 + 3 * (w.soRead 8).wire.unread.length < _
    omega
  · have hlt : (w.readInt64 chunkNumber).wire.unread.length < w.unread.length :=
      Wire.soRead_length_lt hbr
    have hrank := rank_le
      (srv.receiveChunkTurn file pos chunkNumber chunkSize buffer dir w).server.pc
    suffices h : (srv.receiveChunkTurn file pos chunkNumber chunkSize buffer dir
        w).wire.unread.length ≤ (w.readInt64 chunkNumber).wire.unread.length by omega
    simp only [receiveChunkTurn, hbr, if_false]
    split
    · exact le_rfl
    · split
      · exact Wire.soRead_length_le
      · split
        · rw [writeChunk_wire]
          exact Wire.soRead_length_le
        · rw [writeChunk_wire]
          exact Wire.soRead_length_le.trans Wire.soRead_length_le

/-- **Each step of a server process reads something or leaves a loop.** -/
theorem step_rank (hr : srv.step md5 junk dir w = some r) :
    r.server.pc.rank + 3 * r.wire.unread.length < srv.pc.rank + 3 * w.unread.length := by
  unfold step at hr
  split at hr <;> cases hr
  · next hpc =>
    rw [hpc]
    exact rcvCmd_rank
  · next hpc =>
    rw [hpc]
    exact sendChunkTurn_rank
  · next hpc =>
    rw [hpc]
    exact receiveChunkTurn_rank

end MhProtoServer

/-- A step of the process, not of others. -/
def SessionAct.serves : SessionAct → Bool
  | serve _ _ => true
  | files _ => false

/-- **A session ends.**  Whatever its client has sent, however its reads fail and whatever
others do to the files, a process of mhftp takes at most three steps for each byte and one
more. -/
theorem session_ends (md5 : Md5) {metadata : Header} {localFile : Path} {uploadDigest : Digest}
    {dir : Dir} {unread : List UInt8} {s : Session} {as : List SessionAct}
    (hr : (Session.machine md5).run (.accept metadata localFile uploadDigest dir unread) as =
      some s) : as.countP SessionAct.serves ≤ 3 * unread.length + 1 := by
  have hstep : ∀ (s : Session) (a : SessionAct) (s' : Session), True →
      (Session.machine md5).step s a = some s' → True ∧
        s'.server.pc.rank + 3 * s'.unread.length + (if a.serves then 1 else 0) ≤
          s.server.pc.rank + 3 * s.unread.length := by
    intro s a s' _ h
    cases a with
    | serve junk script =>
      obtain ⟨r, hr, rfl⟩ := Option.map_eq_some_iff.mp h
      exact ⟨trivial, MhProtoServer.step_rank hr⟩
    | files dir =>
      cases h
      exact ⟨trivial, le_rfl⟩
  have hbound := Machine.countP_le_start hstep trivial hr
  have hstart : (Session.accept metadata localFile uploadDigest dir unread).server.pc.rank = 1 :=
    rfl
  have hunread : (Session.accept metadata localFile uploadDigest dir unread).unread = unread := rfl
  rw [hstart, hunread] at hbound
  omega

/-- A connection with an unknown command. -/
def sampleUnknown : Session :=
  .accept ⟨Buffer.zero _, 0, Buffer.zero _, 0, 0⟩ [] (Buffer.zero _) (fun _ => none) [9]

/-- The command, and the connection is closed. -/
theorem session_ends_sample :
    [SessionAct.serve (fun _ => 0) [], .files fun _ => none,
      .serve (fun _ => 0) []].countP SessionAct.serves ≤ 3 * [9].length + 1 := by
  obtain ⟨s, hs⟩ : ∃ s, (Session.machine fun _ => Buffer.zero _).run sampleUnknown
    [.serve (fun _ => 0) [], .files fun _ => none, .serve (fun _ => 0) []] = some s := ⟨_, rfl⟩
  exact session_ends _ hs

/-! ### A download -/

theorem length_writeMetadataHeader (h : Header) : h.writeMetadataHeader.length = 2088 := by
  simp [Header.writeMetadataHeader, h.digest.length, h.fileFull.length, digestSize, fnameSize,
    length_encodeInt]

namespace Download
variable {md5 : Md5} {s s' : State} {a : Act} {n : Nat}

/-- A worker that has ended takes no step. -/
theorem unfinished_of_step {w : Nat} {a : WorkerAct}
    (h : (machine md5).step s (.worker w a) = some s') :
    (s.workers w).pc.finished = false := by
  cases step_cases h <;> simp only [*] <;> rfl

/-- How many steps a worker and its server may take before the worker claims a chunk; the
server reads each byte that the worker has sent. -/
def WorkerPc.rank : WorkerPc → Nat
  | notForked | start => 3 * 2089 + 4
  | claimed _ => 33
  | request _ => 32
  | receive _ => 10
  | store _ _ => 9
  | update _ => 8
  | updateLocked _ => 7
  | updateLoaded _ => 6
  | updated _ => 5
  | looping _ => 4
  | loop => 3
  | claimLocked => 2
  | claimLoaded => 1
  | exited | killed | dead _ => 0

def ParentPc.rank (numClient : Nat) : ParentPc → Nat
  | start => numClient + 6
  | loaded => numClient + 5
  | forking i => numClient - i + 4
  | finalLoaded => 3
  | killWait => 2
  | killLoaded => 1
  | ended | aborted | reset _ => 0

def State.connRank (s : State) (w : Nat) : Nat :=
  (s.workers w).pc.rank + ((s.servers w).pc.rank + 3 * (s.conns w).toServer.length)

def State.potential (n : Nat) (s : State) : Nat :=
  s.pc.rank n + (Finset.range n).sum s.connRank

/-- A step of a process of the download: mhclient, its workers, and the servers of its
connections. -/
def Act.within (n : Nat) : Act → Bool
  | .parent _ | .worker _ _ => true
  | .server w _ _ => w < n

/-- A step on one connection. -/
theorem potential_move {w : Nat} (hw : w < n) (hpc : s'.pc = s.pc)
    (h : ∀ v, v ≠ w → s'.connRank v = s.connRank v) :
    s'.potential n + s.connRank w = s.potential n + s'.connRank w := by
  have hsum := sum_move (Finset.mem_range.mpr hw) h
  unfold State.potential
  rw [hpc]
  omega

/-- A step of a worker that sends nothing. -/
theorem potential_worker {w : Nat} {wk : Worker} (hw : w < n) (hpc : s'.pc = s.pc)
    (hworkers : s'.workers = update s.workers w wk) (hservers : s'.servers = s.servers)
    (hconns : ∀ v, (s'.conns v).toServer = (s.conns v).toServer) :
    s'.potential n + (s.workers w).pc.rank = s.potential n + wk.pc.rank := by
  have hmove := potential_move hw hpc fun v hv => by
    simp only [State.connRank, hworkers, hservers, hconns, update_of_ne _ _ hv]
  have hself : s'.connRank w + (s.workers w).pc.rank = s.connRank w + wk.pc.rank := by
    simp only [State.connRank, hworkers, hservers, hconns, update_self]
    omega
  omega

/-- A step of a worker that sends something. -/
theorem potential_send {w : Nat} {wk : Worker} {bytes : List UInt8} (hw : w < n)
    (hpc : s'.pc = s.pc) (hworkers : s'.workers = update s.workers w wk)
    (hservers : s'.servers = s.servers)
    (hconns : s'.conns = update s.conns w
      { s.conns w with toServer := (s.conns w).toServer ++ bytes }) :
    s'.potential n + (s.workers w).pc.rank = s.potential n + (wk.pc.rank + 3 * bytes.length) := by
  have hmove := potential_move hw hpc fun v hv => by
    simp only [State.connRank, hworkers, hservers, hconns, update_of_ne _ _ hv]
  have hself : s'.connRank w + (s.workers w).pc.rank =
      s.connRank w + (wk.pc.rank + 3 * bytes.length) := by
    simp only [State.connRank, hworkers, hservers, hconns, update_self, List.length_append]
    omega
  omega

/-- A step of a server. -/
theorem potential_server {w : Nat} {script : List (List ReadResult)} {junk : Nat → UInt8}
    {r : Served} {conn : Conn} (hw : w < n) (hr : (s.servers w).step md5 junk (s.hosts w)
      ⟨(s.conns w).toServer, script, (s.conns w).short⟩ = some r) (hpc : s'.pc = s.pc)
    (hworkers : s'.workers = s.workers) (hservers : s'.servers = update s.servers w r.server)
    (hconns : s'.conns = update s.conns w conn) (hunread : conn.toServer = r.wire.unread) :
    s'.potential n < s.potential n := by
  have hmove := potential_move hw hpc fun v hv => by
    simp only [State.connRank, hworkers, hservers, hconns, update_of_ne _ _ hv]
  have hself : s'.connRank w < s.connRank w := by
    simp only [State.connRank, hworkers, hservers, hconns, update_self, hunread]
    exact Nat.add_lt_add_left (MhProtoServer.step_rank hr) _
  omega

/-- A step of the parent. -/
theorem potential_parent (hrank : s'.pc.rank n < s.pc.rank n)
    (hworkers : ∀ w, (s'.workers w).pc.rank = (s.workers w).pc.rank)
    (hservers : s'.servers = s.servers) (hconns : s'.conns = s.conns) :
    s'.potential n < s.potential n := by
  have hconn : s'.connRank = s.connRank := by
    funext w
    simp only [State.connRank, hworkers, hservers, hconns]
  unfold State.potential
  rw [hconn]
  omega

/-- Each step takes one from the potential, and a claim adds the way to the next one. -/
theorem potential_step (hs : Orderly s) (hn : s.numClient = n)
    (h : (machine md5).step s a = some s') :
    s'.potential n + (if a.within n then 1 else 0) ≤
      s.potential n + 33 * (claimedChunk s a).toList.length := by
  have lt {w : Nat} (hw : (s.workers w).pc.finished = false) : w < n :=
    hn ▸ hs.lt_numClient hw
  -- the steps that claim nothing
  have quiet (hlt : s'.potential n < s.potential n) :
      s'.potential n + (if a.within n then 1 else 0) ≤
        s.potential n + 33 * (claimedChunk s a).toList.length := by
    split <;> omega
  have moves {w : Nat} {pc : WorkerPc} (hw : (s.workers w).pc = pc) {wk : Worker}
      (hunfinished : pc.finished = false) (hpc : s'.pc = s.pc)
      (hworkers : s'.workers = update s.workers w wk) (hservers : s'.servers = s.servers)
      (hconns : ∀ v, (s'.conns v).toServer = (s.conns v).toServer) :
      s'.potential n + pc.rank = s.potential n + wk.pc.rank :=
    hw ▸ potential_worker (lt (hw ▸ hunfinished)) hpc hworkers hservers hconns
  have lower {w : Nat} {pc : WorkerPc} (hw : (s.workers w).pc = pc) {wk : Worker}
      (hunfinished : pc.finished = false) (hrank : wk.pc.rank < pc.rank) (hpc : s'.pc = s.pc)
      (hworkers : s'.workers = update s.workers w wk) (hservers : s'.servers = s.servers)
      (hconns : ∀ v, (s'.conns v).toServer = (s.conns v).toServer) :
      s'.potential n < s.potential n := by
    have hmove := moves hw hunfinished hpc hworkers hservers hconns
    omega
  have parent {pc : ParentPc} (hpc : s.pc = pc) (hrank : s'.pc.rank n < pc.rank n)
      (hworkers : ∀ w, (s'.workers w).pc.rank = (s.workers w).pc.rank)
      (hservers : s'.servers = s.servers) (hconns : s'.conns = s.conns) :
      s'.potential n < s.potential n :=
    potential_parent (hpc ▸ hrank) hworkers hservers hconns
  have sends {w : Nat} {pc : WorkerPc} (hw : (s.workers w).pc = pc) {wk : Worker}
      {bytes : List UInt8} (hunfinished : pc.finished = false)
      (hrank : wk.pc.rank + 3 * bytes.length < pc.rank) (hpc : s'.pc = s.pc)
      (hworkers : s'.workers = update s.workers w wk) (hservers : s'.servers = s.servers)
      (hconns : s'.conns = update s.conns w
        { s.conns w with toServer := (s.conns w).toServer ++ bytes }) :
      s'.potential n < s.potential n := by
    have hmove := potential_send (lt (hw ▸ hunfinished)) hpc hworkers hservers hconns
    rw [hw] at hmove
    omega
  cases step_cases h with
  | load hpc | finish hpc | killLoad hpc | killSave hpc =>
    exact quiet (parent hpc (by simp [ParentPc.rank]) (fun _ => rfl) rfl rfl)
  | save hpc => exact quiet (parent hpc (by simp [ParentPc.rank]) (fun _ => rfl) rfl rfl)
  | refuse hpc | forkFails hpc =>
    exact quiet (parent hpc (by simp [ParentPc.rank]) (fun _ => rfl) rfl rfl)
  | wait hpc => exact quiet (parent hpc (by simp [ParentPc.rank]) (fun _ => rfl) rfl rfl)
  | sigint hpc =>
    rcases hpc with hpc | hpc | ⟨i, hpc⟩ | hpc <;>
      exact quiet (parent hpc (by simp [ParentPc.rank]) (fun _ => rfl) rfl rfl)
  | @fork i hpc _ hi =>
    -- the worker has the rank that it had before there was one
    have habsent := hs.forked i hpc i le_rfl
    refine quiet (parent hpc (by simp only [ParentPc.rank]; omega) ?_ rfl rfl)
    exact apply_update_of_eq (g := fun wk : Worker => wk.pc.rank) (by rw [habsent]; rfl)
  | @«open» w hw =>
    refine quiet (sends hw rfl ?_ rfl rfl rfl rfl)
    simp [WorkerPc.rank, length_writeMetadataHeader]
  | @request w k hw =>
    refine quiet (sends hw rfl ?_ rfl rfl rfl rfl)
    simp [WorkerPc.rank, (requestChunk k).length]
  | @receive w k script hw =>
    obtain ⟨wk, toClient, he, -, -, hcase⟩ := receive_cases s w k script
    have hrank : wk.pc.rank < (WorkerPc.receive k).rank := by
      rcases hcase with ⟨hpc, -⟩ | hpc | ⟨data, size, hpc, -⟩ <;> rw [hpc] <;>
        simp [WorkerPc.rank]
    rw [he] at quiet lower ⊢
    refine quiet (lower hw rfl hrank rfl rfl rfl fun v => ?_)
    exact apply_update_of_eq (g := Conn.toServer) (p := w) (v := { s.conns w with toClient }) rfl v
  | @claim w k m hw hk hm =>
    have hmove := moves hw rfl rfl rfl rfl fun _ => rfl
    simp only [WorkerPc.rank] at hmove
    simp only [Act.within, if_true, claimedChunk, hk, Option.toList_some, List.length_singleton]
    omega
  | @test w c hw =>
    refine quiet (lower hw rfl ?_ rfl rfl rfl fun _ => rfl)
    dsimp only
    split <;> simp [WorkerPc.rank]
  | @server w script junk r hr =>
    by_cases hw : w < n
    · exact quiet (potential_server hw hr rfl rfl rfl rfl rfl)
    · -- no connection of the download
      simp only [Act.within, hw, decide_false, Bool.false_eq_true, if_false, claimedChunk]
      refine Nat.le_of_eq (congrArg (s.pc.rank n + ·) (Finset.sum_congr rfl fun v hv => ?_))
      have hne : v ≠ w := fun he => hw (he ▸ Finset.mem_range.mp hv)
      simp only [State.connRank, update_of_ne _ _ hne]
  | lockClaim _ hw | lockUpdate _ hw | loadClaim hw | loadUpdate hw | giveUp hw
  | releaseClaim hw | releaseUpdate hw | sigpipeStart hw | sigpipeRequest hw | store hw
  | update hw =>
    exact quiet (lower hw rfl (by simp [WorkerPc.rank]) rfl rfl rfl fun _ => rfl)

theorem Initial.potential (h : Initial s) :
    s.potential s.numClient = s.numClient + 6 + s.numClient * 6272 := by
  have hconn : s.connRank = fun _ => 6272 := by
    funext w
    simp [State.connRank, h.workers w, h.conns w, h.servers w, WorkerPc.rank, ServerPc.rank]
  rw [State.potential, h.pc, hconn]
  simp [ParentPc.rank]

/-- The claims pay for the steps. -/
theorem steps_le_claims {s₀ : State} {as : List Act} (h₀ : Initial s₀)
    (hr : (machine md5).run s₀ as = some s) :
    as.countP (Act.within s₀.numClient) ≤
      33 * ((machine md5).events claimedChunk s₀ as).length + 6273 * s₀.numClient + 6 := by
  have hbound := Machine.countP_le_of_potential (p := Act.within s₀.numClient) (f := claimedChunk)
    (I := fun s => Orderly s ∧ s.numClient = s₀.numClient) (P := fun _ _ _ => True)
    (fun s a s' hs _ h => ⟨⟨orderly_step hs.1 h, (numClient_step h).trans hs.2⟩,
      potential_step hs.1 hs.2 h⟩) ⟨h₀.orderly, rfl⟩
    (Machine.along_of_forall (fun _ _ _ _ => trivial) _ _) hr
  rw [h₀.potential] at hbound
  omega

/-- Each worker puts back one chunk at most. -/
theorem claims_le {s₀ : State} {as : List Act} (h₀ : Initial s₀)
    (hr : (machine md5).run s₀ as = some s) :
    ((machine md5).events claimedChunk s₀ as).length ≤ s₀.pendingChunks.card + s₀.numClient := by
  have hnum : s.numClient = s₀.numClient :=
    Machine.run_invariant_of_step (I := fun s => s.numClient = s₀.numClient)
      (fun _ _ _ hn h => (numClient_step h).trans hn) rfl hr
  apply (claims_bounded md5 h₀ hr).trans
  apply Nat.add_le_add_left
  exact (Finset.card_filter_le _ _).trans_eq (by rw [Finset.card_range, hnum])

/-- **A download ends.**  Whatever fails and however the processes interleave, mhclient, its
workers and their servers take at most so many steps, and there is no other run. -/
theorem terminates (md5 : Md5) {s₀ : State} {as : List Act} (h₀ : Initial s₀)
    (hr : (machine md5).run s₀ as = some s) :
    as.countP (Act.within s₀.numClient) ≤
      33 * s₀.pendingChunks.card + 6306 * s₀.numClient + 6 := by
  have hsteps := steps_le_claims h₀ hr
  have hclaims := claims_le h₀ hr
  omega

theorem terminates_sample : ∃ s, sampleMachine.run (sampleStart 2) sampleFailover = some s ∧
    sampleFailover.countP (Act.within 2) ≤
      33 * (sampleStart 2).pendingChunks.card + 6306 * 2 + 6 := by
  obtain ⟨s, hs⟩ := Option.isSome_iff_exists.mp
    (show (sampleMachine.run (sampleStart 2) sampleFailover).isSome = true by decide +kernel)
  exact ⟨s, hs, terminates _ (initial_begin _ _ _ _) hs⟩

end Download
end Mhftp
