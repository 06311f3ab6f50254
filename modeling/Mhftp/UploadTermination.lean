import Mhftp.Termination
import Mhftp.UploadClaims

/-! # How long an upload takes

A worker of an upload goes round its loop once for each claim, as in a download.  But here the
parent's saves put back the chunks that have been claimed, so that a chunk may be sent once for
each of them and once more (`Library.ClaimTable.waning_step`).  There is one save for each
connection, and so there is no infinite run (`upload_ends`).
-/

namespace Mhftp.Upload
open Library

/-- No more is on its way than was written. -/
theorem length_writeAll_le (ps : List (List UInt8)) (rs : List WriteResult) :
    (writeAll ps rs).length ≤ ps.flatten.length := by
  induction ps generalizing rs with
  | nil => exact le_rfl
  | cons p ps ih =>
    cases rs with
    | nil =>
      rw [writeAll, List.flatten_cons, List.length_append, List.length_append]
      exact Nat.add_le_add_left (ih []) _
    | cons r rs =>
      have haccepted : (r.accepted p).length ≤ p.length := by
        cases r with
        | count n => exact List.length_take_le' _ _
        | error => exact Nat.zero_le _
      rw [writeAll, List.flatten_cons, List.length_append, List.length_append]
      exact Nat.add_le_add haccepted (ih rs)

theorem length_initPieces_lt (s : State) (m : Metadata) :
    (initPieces s m).flatten.length < 35 + fnameSize := by
  have hpath := s.local_file.length
  simp only [initPieces, List.flatten_cons, List.flatten_nil, List.length_append, length_encodeInt,
    m.digest.length, List.length_singleton, List.append_nil, digestSize]
  omega

theorem length_sendPieces (k : Nat) (br : Int) (data : List UInt8) :
    (sendPieces k br data).flatten.length = 16 + data.length := by
  simp only [sendPieces, List.flatten_cons, List.flatten_nil, List.length_append, length_encodeInt,
    List.append_nil]
  omega

theorem readChunk_length_le {localFile data : List UInt8} {wk : Worker} {k : Nat} {br : Int}
    (h : readChunk localFile wk k = some (br, data)) : data.length ≤ maxChunkSize := by
  unfold readChunk at h
  split at h
  · cases h
  · split at h
    · cases h
      exact Nat.zero_le _
    · dsimp only at h
      split at h
      · next hle =>
        cases h
        exact hle
      · cases h

/-! ### The potential -/

/-- How many steps a worker and its server may take before the worker claims a chunk; the
server reads each byte that the worker has sent. -/
def WorkerPc.rank : WorkerPc → Nat
  | notForked | start => 31
  | claimed _ => 3 * (16 + maxChunkSize) + 34
  | send _ => 3 * (16 + maxChunkSize) + 33
  | update _ => 32
  | updateLocked _ => 31
  | updateLoaded _ => 30
  | updated _ => 29
  | looping _ => 28
  | loop => 27
  | claimLocked => 26
  | claimLoaded => 25
  | exited | killed | dead _ => 0

/-- A turn of the parent sends UPLOAD_INIT, which has less than 35 + FNAME_SIZE bytes. -/
def ParentPc.rank (numClient : Nat) : ParentPc → Nat
  | loop i => (numClient - i) * 6249 + 3
  | inited i => (numClient - i - 1) * 6249 + 5
  | saved i => (numClient - i - 1) * 6249 + 4
  | finalLoaded => 2
  | killWait => 1
  | ended | aborted => 0

/-- The saves that the parent will still make while workers are at work. -/
def ParentPc.saves (numClient : Nat) : ParentPc → Nat
  | loop i | inited i => numClient - i
  | saved i => numClient - i - 1
  | _ => 0

/-- The steps that a claim pays for. -/
def claimCost : Nat := 3 * (16 + maxChunkSize) + 10

namespace State

def connRank (s : State) (w : Nat) : Nat :=
  (s.workers w).pc.rank + ((s.servers w).pc.rank + 3 * (s.conns w).toServer.length)

/-- What is on offer, now and after the saves to come; each of them offers `offered`. -/
def offers (n offered : Nat) (s : State) : Nat :=
  ClaimTable.onOffer rules s.table + offered * s.pc.saves n

/-- What the processes may still do before the next claim. -/
def work (n : Nat) (s : State) : Nat := s.pc.rank n + (Finset.range n).sum s.connRank

def potential (n offered : Nat) (s : State) : Nat := s.work n + claimCost * s.offers n offered

end State

/-- A step of a process of the upload: mhclient, its workers, and the servers of its
connections. -/
def Act.within (n : Nat) : Act → Bool
  | .parent _ | .worker _ _ => true
  | .server w _ _ => w < n

def Act.claims : Act → Bool
  | .worker _ .claim => true
  | _ => false

section Step
variable {md5 : Md5} {t₀ : List ChunkInfo} {s s' : State} {a : Act} {n : Nat}

theorem saves_step (hs : Orderly t₀ s) (hn : s.numClient = n)
    (h : (machine md5).step s a = some s') :
    s'.pc.saves n ≤ s.pc.saves n ∧ (a = .parent .save → s'.pc.saves n + 1 = s.pc.saves n) := by
  cases step_cases h with
  | @save i hpc =>
    have hi := hs.turn i (Or.inl hpc)
    simp only [hpc, ParentPc.saves]
    omega
  | init hpc | fork hpc =>
    simp only [hpc, ParentPc.saves]
    exact ⟨by omega, fun ha => nomatch ha⟩
  | sigint =>
    exact ⟨Nat.zero_le _, fun ha => nomatch ha⟩
  | sigpipe | forkFails | refuse | wait | waitFails | finish | exit =>
    exact ⟨Nat.zero_le _, fun ha => nomatch ha⟩
  | _ => exact ⟨le_rfl, fun ha => nomatch ha⟩

/-- **What is on offer wanes**, by one with each claim. -/
theorem offers_step (hs : Orderly t₀ s) (hw : ClaimTable.Waning rules t₀ (view s))
    (hn : s.numClient = n) (h : (machine md5).step s a = some s') :
    ClaimTable.Waning rules t₀ (view s') ∧
      s'.offers n (ClaimTable.onOffer rules t₀) + (if a.claims then 1 else 0) ≤
        s.offers n (ClaimTable.onOffer rules t₀) := by
  obtain ⟨hsaves, hsave⟩ := saves_step hs hn h
  have hfollows := view_step hs h
  have hmul := Nat.mul_le_mul_left (ClaimTable.onOffer rules t₀) hsaves
  cases hlabel : label s a with
  | none =>
    rw [hlabel] at hfollows
    have hview : view s' = view s := hfollows
    have htable : s'.table = s.table := congrArg ClaimTable.State.table hview
    have hclaims : a.claims = false := by
      unfold Act.claims
      split
      · cases hlabel
      · rfl
    refine ⟨hview ▸ hw, ?_⟩
    rw [State.offers, State.offers, htable, hclaims]
    exact Nat.add_le_add_left hmul _
  | some b =>
    rw [hlabel] at hfollows
    have hstep : (ClaimTable.machine rules).step (view s) b = some (view s') := hfollows
    have hoverwrite := (label_write hlabel).2.2
    obtain ⟨hw', hless⟩ := ClaimTable.waning_step hw (hs.label_restores h hlabel) hstep
    refine ⟨hw', ?_⟩
    by_cases ha : a = .parent .save
    · -- a save puts the table of the start back
      subst ha
      have htable : ClaimTable.onOffer rules s'.table ≤ ClaimTable.onOffer rules t₀ := hw'.table
      have hturn := hsave rfl
      simp only [State.offers, Act.claims, Bool.false_eq_true, if_false, ← hturn, Nat.mul_add]
      omega
    · have hno : ∀ t, b ≠ .overwrite t := fun t hb => ha (hoverwrite t hb).1
      have hclaims : (if a.claims then 1 else 0) ≤ if b.claims then 1 else 0 := by
        unfold Act.claims
        split
        · obtain rfl := Option.some.inj hlabel
          exact le_rfl
        · exact Nat.zero_le _
      have hless : ClaimTable.onOffer rules s'.table + (if b.claims then 1 else 0) ≤
        ClaimTable.onOffer rules s.table := hless hno
      rw [State.offers, State.offers]
      omega

/-- A step on one connection. -/
theorem work_move {w : Nat} (hw : w < n) (hothers : ∀ v, v ≠ w → s'.connRank v = s.connRank v) :
    s'.work n + (s.pc.rank n + s.connRank w) = s.work n + (s'.pc.rank n + s'.connRank w) := by
  have hsum := sum_move (Finset.mem_range.mpr hw) hothers
  unfold State.work
  omega

/-- A step of a worker, which may send something. -/
theorem work_worker {w : Nat} {wk : Worker} {bytes : List UInt8} (hw : w < n)
    (hpc : s'.pc = s.pc) (hworkers : s'.workers = update s.workers w wk)
    (hservers : s'.servers = s.servers)
    (hconns : ∀ v, (s'.conns v).toServer =
      (s.conns v).toServer ++ if v = w then bytes else []) :
    s'.work n + (s.workers w).pc.rank = s.work n + (wk.pc.rank + 3 * bytes.length) := by
  have hothers : ∀ v, v ≠ w → s'.connRank v = s.connRank v := fun v hv => by
    simp only [State.connRank, hworkers, hservers, hconns, update_of_ne _ _ hv, if_neg hv,
      List.append_nil]
  have hmove := work_move hw hothers
  have hself : s'.connRank w + (s.workers w).pc.rank =
      s.connRank w + (wk.pc.rank + 3 * bytes.length) := by
    simp only [State.connRank, hworkers, hservers, hconns, update_self, if_true,
      List.length_append]
    omega
  rw [hpc] at hmove
  omega

/-- A step of a server. -/
theorem work_server {w : Nat} {script : List (List ReadResult)} {junk : Nat → UInt8}
    {r : Served} (hw : w < n) (hr : (s.servers w).step md5 junk s.dir
      ⟨(s.conns w).toServer, script, (s.conns w).short⟩ = some r) (hpc : s'.pc = s.pc)
    (hworkers : s'.workers = s.workers) (hservers : s'.servers = update s.servers w r.server)
    (hconns : s'.conns = update s.conns w ⟨r.wire.unread, r.wire.short⟩) :
    s'.work n < s.work n := by
  have hothers : ∀ v, v ≠ w → s'.connRank v = s.connRank v := fun v hv => by
    simp only [State.connRank, hworkers, hservers, hconns, update_of_ne _ _ hv]
  have hmove := work_move hw hothers
  have hself : s'.connRank w < s.connRank w := by
    simp only [State.connRank, hworkers, hservers, hconns, update_self]
    exact Nat.add_lt_add_left (MhProtoServer.step_rank hr) _
  rw [hpc] at hmove
  omega

/-- A step of the parent that sends nothing. -/
theorem work_parent (hrank : s'.pc.rank n < s.pc.rank n)
    (hworkers : ∀ w, (s'.workers w).pc.rank = (s.workers w).pc.rank)
    (hservers : s'.servers = s.servers) (hconns : s'.conns = s.conns) :
    s'.work n < s.work n := by
  have hconn : s'.connRank = s.connRank := by
    funext w
    simp only [State.connRank, hworkers, hservers, hconns]
  unfold State.work
  rw [hconn]
  omega

/-- UPLOAD_INIT. -/
theorem work_init {i : Nat} {bytes : List UInt8} (hi : i < n) (hpc : s.pc = .loop i)
    (hpc' : s'.pc = .inited i) (hlength : bytes.length < 35 + fnameSize)
    (hworkers : s'.workers = s.workers) (hservers : s'.servers = s.servers)
    (hconns : s'.conns = update s.conns i
      { s.conns i with toServer := (s.conns i).toServer ++ bytes }) : s'.work n < s.work n := by
  have hothers : ∀ v, v ≠ i → s'.connRank v = s.connRank v := fun v hv => by
    simp only [State.connRank, hworkers, hservers, hconns, update_of_ne _ _ hv]
  have hmove := work_move hi hothers
  have hself : s'.connRank i = s.connRank i + 3 * bytes.length := by
    simp only [State.connRank, hworkers, hservers, hconns, update_self, List.length_append]
    omega
  rw [hpc, hpc'] at hmove
  simp only [ParentPc.rank, fnameSize] at hmove hlength
  omega

/-- Each step takes one from what the processes may do, and a claim adds the way to the next
one. -/
theorem work_step (hs : Orderly t₀ s) (hn : s.numClient = n)
    (h : (machine md5).step s a = some s') :
    s'.work n + (if a.within n then 1 else 0) ≤
      s.work n + claimCost * (if a.claims then 1 else 0) := by
  have lt {w : Nat} {pc : WorkerPc} (hw : (s.workers w).pc = pc)
      (hunfinished : pc.finished = false) : w < n :=
    hn ▸ (hs.active (hw ▸ hunfinished)).2.2.2.1
  -- the steps that claim nothing
  have lower (hlt : s'.work n < s.work n) : s'.work n + (if a.within n then 1 else 0) ≤
      s.work n + claimCost * (if a.claims then 1 else 0) := by
    split <;> omega
  have sends {w : Nat} {pc : WorkerPc} (hw : (s.workers w).pc = pc) {wk : Worker}
      {bytes : List UInt8} (hunfinished : pc.finished = false)
      (hrank : wk.pc.rank + 3 * bytes.length < pc.rank) (hpc : s'.pc = s.pc)
      (hworkers : s'.workers = update s.workers w wk) (hservers : s'.servers = s.servers)
      (hconns : s'.conns = update s.conns w
        { s.conns w with toServer := (s.conns w).toServer ++ bytes }) : s'.work n < s.work n := by
    have hsent : ∀ v, (s'.conns v).toServer =
        (s.conns v).toServer ++ if v = w then bytes else [] := fun v => by
      rw [hconns]
      by_cases hv : v = w
      · rw [hv, update_self, if_pos rfl]
      · rw [update_of_ne _ _ hv, if_neg hv, List.append_nil]
    have hmove := work_worker (lt hw hunfinished) hpc hworkers hservers hsent
    rw [hw] at hmove
    omega
  have moves {w : Nat} {pc : WorkerPc} (hw : (s.workers w).pc = pc) {wk : Worker}
      (hunfinished : pc.finished = false) (hpc : s'.pc = s.pc)
      (hworkers : s'.workers = update s.workers w wk) (hservers : s'.servers = s.servers)
      (hconns : s'.conns = s.conns) : s'.work n + pc.rank = s.work n + wk.pc.rank := by
    have hsent : ∀ v, (s'.conns v).toServer =
        (s.conns v).toServer ++ if v = w then [] else [] := fun v => by
      rw [hconns, ite_self, List.append_nil]
    have hmove := work_worker (lt hw hunfinished) hpc hworkers hservers hsent
    rw [hw] at hmove
    exact hmove
  have quiet {w : Nat} {pc : WorkerPc} (hw : (s.workers w).pc = pc) {wk : Worker}
      (hunfinished : pc.finished = false) (hrank : wk.pc.rank < pc.rank) (hpc : s'.pc = s.pc)
      (hworkers : s'.workers = update s.workers w wk) (hservers : s'.servers = s.servers)
      (hconns : s'.conns = s.conns) : s'.work n < s.work n := by
    have hmove := moves hw hunfinished hpc hworkers hservers hconns
    omega
  have parent {pc : ParentPc} (hpc : s.pc = pc) (hrank : s'.pc.rank n < pc.rank n)
      (hworkers : ∀ w, (s'.workers w).pc.rank = (s.workers w).pc.rank)
      (hservers : s'.servers = s.servers) (hconns : s'.conns = s.conns) :
      s'.work n < s.work n :=
    work_parent (hpc ▸ hrank) hworkers hservers hconns
  cases step_cases h with
  | @init junk script i m mdata hpc _ hi =>
    have hlength := (length_writeAll_le (initPieces s m) script).trans_lt
      (length_initPieces_lt s m)
    exact lower (work_init (hn ▸ hi) hpc rfl hlength rfl rfl rfl)
  | save hpc | finish hpc | wait hpc | waitFails hpc | exit hpc | forkFails hpc | refuse hpc
  | sigpipe hpc =>
    exact lower (parent hpc (by simp [ParentPc.rank]) (fun _ => rfl) rfl rfl)
  | sigint hpc =>
    rcases hpc with ⟨i, hpc | hpc | hpc⟩ | hpc <;>
      exact lower (parent hpc (by simp [ParentPc.rank]) (fun _ => rfl) rfl rfl)
  | @fork i hpc =>
    -- the worker has the rank that it had before there was one
    have habsent := hs.forked i (by rw [hpc]; rfl) i le_rfl
    refine lower (parent hpc (by simp only [ParentPc.rank]; omega) ?_ rfl rfl)
    exact apply_update_of_eq (g := fun wk : Worker => wk.pc.rank) (by rw [habsent]; rfl)
  | @«open» w script m hw =>
    have hlength : (writeAll [[3]] script).length ≤ 1 := length_writeAll_le [[3]] script
    refine lower (sends hw rfl ?_ rfl rfl rfl rfl)
    simp only [WorkerPc.rank]
    omega
  | @giveUp w script hw =>
    have hlength : (writeAll [uploadEnd] script).length ≤ 8 := length_writeAll_le [uploadEnd] script
    refine lower (sends hw rfl ?_ rfl rfl rfl rfl)
    simp only [WorkerPc.rank]
    omega
  | @send w k script br data pos hw hread =>
    have hlength := length_writeAll_le (sendPieces k br data) script
    rw [length_sendPieces] at hlength
    have hdata := readChunk_length_le hread
    refine lower (sends hw rfl ?_ rfl rfl rfl rfl)
    simp only [WorkerPc.rank]
    omega
  | @claim w k m hw =>
    have hmove := moves hw rfl rfl rfl rfl rfl
    simp only [WorkerPc.rank] at hmove
    simp only [Act.within, Act.claims, if_true, claimCost]
    omega
  | @test w c hw =>
    refine lower (quiet hw rfl ?_ rfl rfl rfl rfl)
    dsimp only
    split <;> simp [WorkerPc.rank]
  | @server w script junk r hr =>
    by_cases hw : w < n
    · exact lower (work_server hw hr rfl rfl rfl rfl)
    · -- no connection of the upload
      simp only [Act.within, hw, decide_false, Bool.false_eq_true, if_false]
      refine (Nat.le_of_eq (congrArg (s.pc.rank n + ·) (Finset.sum_congr rfl fun v hv => ?_))).trans
        (Nat.le_add_right _ _)
      have hne : v ≠ w := fun he => hw (he ▸ Finset.mem_range.mp hv)
      simp only [State.connRank, update_of_ne _ _ hne]
  | lockClaim _ hw | lockUpdate _ hw | loadClaim hw | loadUpdate hw | releaseClaim hw
  | releaseUpdate hw | sigpipeStart hw | sigpipeSend hw | overrun hw | update hw =>
    exact lower (quiet hw rfl (by simp [WorkerPc.rank]) rfl rfl rfl rfl)

/-- What the induction along a run carries. -/
structure Ending (t₀ : List ChunkInfo) (n : Nat) (s : State) : Prop extends Orderly t₀ s where
  waning : ClaimTable.Waning rules t₀ (view s)
  numClient : s.numClient = n

theorem Initial.ending (h : Initial s) : Ending s.table s.numClient s where
  toOrderly := h.orderly
  waning := h.view ▸ ClaimTable.waning_initial
  numClient := rfl

theorem ending_step (hs : Ending t₀ n s) (h : (machine md5).step s a = some s') :
    Ending t₀ n s' ∧
      s'.offers n (ClaimTable.onOffer rules t₀) + (if a.claims then 1 else 0) ≤
        s.offers n (ClaimTable.onOffer rules t₀) ∧
      s'.potential n (ClaimTable.onOffer rules t₀) + (if a.within n then 1 else 0) ≤
        s.potential n (ClaimTable.onOffer rules t₀) := by
  obtain ⟨hwaning, hoffers⟩ := offers_step hs.toOrderly hs.waning hs.numClient h
  have hwork := work_step hs.toOrderly hs.numClient h
  have hnum : s'.numClient = n := by
    cases step_cases h <;> exact hs.numClient
  refine ⟨⟨orderly_step hs.toOrderly h, hwaning, hnum⟩, hoffers, ?_⟩
  have hcost := Nat.mul_le_mul_left claimCost hoffers
  rw [Nat.mul_add] at hcost
  unfold State.potential
  omega

theorem Initial.offers (h : Initial s) : s.offers s.numClient (ClaimTable.onOffer rules s.table) =
    s.table.countP Metadata.claimable * (s.numClient + 1) := by
  rw [State.offers, h.pc, ParentPc.saves, Nat.sub_zero, Nat.mul_succ, Nat.add_comm]
  rfl

theorem Initial.work (h : Initial s) : s.work s.numClient = 6281 * s.numClient + 3 := by
  have hconn : s.connRank = fun _ => 32 := by
    funext w
    simp [State.connRank, h.workers w, h.conns w, h.servers w, WorkerPc.rank, ServerPc.rank]
  have hsum : (Finset.range s.numClient).sum s.connRank = s.numClient * 32 := by
    rw [hconn]
    simp
  rw [State.work, h.pc, hsum, ParentPc.rank]
  omega

/-- Every claim takes from what is on offer. -/
theorem claims_le {s₀ s : State} {as : List Act} (h₀ : Initial s₀)
    (hr : (machine md5).run s₀ as = some s) :
    as.countP Act.claims ≤ s₀.table.countP Metadata.claimable * (s₀.numClient + 1) := by
  have hstep : ∀ s a s', Ending s₀.table s₀.numClient s → (machine md5).step s a = some s' →
      Ending s₀.table s₀.numClient s' ∧
        s'.offers s₀.numClient (ClaimTable.onOffer rules s₀.table) + (if a.claims then 1 else 0) ≤
          s.offers s₀.numClient (ClaimTable.onOffer rules s₀.table) :=
    fun s a s' hs h => ⟨(ending_step hs h).1, (ending_step hs h).2.1⟩
  have hle := Machine.countP_le_start hstep h₀.ending hr
  rwa [h₀.offers] at hle

/-- Every step takes from the potential. -/
theorem steps_le {s₀ s : State} {as : List Act} (h₀ : Initial s₀)
    (hr : (machine md5).run s₀ as = some s) :
    as.countP (Act.within s₀.numClient) ≤
      (3 * maxChunkSize + 58) * (s₀.table.countP Metadata.claimable * (s₀.numClient + 1)) +
        6281 * s₀.numClient + 3 := by
  have hstep : ∀ s a s', Ending s₀.table s₀.numClient s → (machine md5).step s a = some s' →
      Ending s₀.table s₀.numClient s' ∧
        s'.potential s₀.numClient (ClaimTable.onOffer rules s₀.table) +
          (if a.within s₀.numClient then 1 else 0) ≤
            s.potential s₀.numClient (ClaimTable.onOffer rules s₀.table) :=
    fun s a s' hs h => ⟨(ending_step hs h).1, (ending_step hs h).2.2⟩
  have hle := Machine.countP_le_start hstep h₀.ending hr
  have hcost : claimCost = 3 * maxChunkSize + 58 := by
    unfold claimCost
    omega
  have hpotential : s₀.potential s₀.numClient (ClaimTable.onOffer rules s₀.table) =
      6281 * s₀.numClient + 3 + (3 * maxChunkSize + 58) *
        (s₀.table.countP Metadata.claimable * (s₀.numClient + 1)) := by
    rw [State.potential, h₀.work, h₀.offers, hcost]
  omega

end Step

/-- **An upload ends.**  Whatever fails and however the processes interleave, the chunks that
may be claimed are claimed at most once for each connection and once more each, and mhclient,
its workers and their servers take at most so many steps. -/
theorem upload_ends (md5 : Md5) {s₀ s : State} {as : List Act} (h₀ : Initial s₀)
    (hr : (machine md5).run s₀ as = some s) :
    as.countP Act.claims ≤ s₀.table.countP Metadata.claimable * (s₀.numClient + 1) ∧
      as.countP (Act.within s₀.numClient) ≤
        (3 * maxChunkSize + 58) * (s₀.table.countP Metadata.claimable * (s₀.numClient + 1)) +
          6281 * s₀.numClient + 3 :=
  ⟨claims_le h₀ hr, steps_le h₀ hr⟩

/-- Two connections, and the only chunk is claimed on both, because the second save puts it
back. -/
def sampleReclaimed : List Act :=
  sampleFork ++ .worker 0 (.open []) :: sampleChunk 0 ++ sampleFork ++
    .worker 1 (.open []) :: sampleChunk 1

theorem upload_ends_sample :
    ∃ s, (machine fun _ => Buffer.zero _).run (.begin 2 1 sampleName [7] none fun _ => none)
        sampleReclaimed = some s ∧ sampleReclaimed.countP Act.claims = 2 ∧
      sampleReclaimed.countP (Act.within 2) ≤ (3 * maxChunkSize + 58) *
        ((State.begin 2 1 sampleName [7] none fun _ => none).table.countP Metadata.claimable *
          (2 + 1)) + 6281 * 2 + 3 := by
  obtain ⟨s, hs⟩ := Option.isSome_iff_exists.mp
    (show ((machine fun _ => Buffer.zero _).run (.begin 2 1 sampleName [7] none fun _ => none)
      sampleReclaimed).isSome = true by decide +kernel)
  exact ⟨s, hs, rfl, (upload_ends _ (initial_begin _ _ _ _ _ _) hs).2⟩

end Mhftp.Upload
