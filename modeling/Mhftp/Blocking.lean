import Mhftp.MetadataPipeline
import Mhftp.Termination

/-! # Downloads over blocking connections

On a connection that does not fail a `so_read` waits until it has what it asks for, and it
waits for ever where nothing comes any more.  mhftp keeps every connection that it has
accepted open in its first process, so that not even the end of a server process is seen at
the other end.

A download may therefore hang, and it does so for one reason: a worker has claimed a chunk
and its server has ended because its host does not have the file (`hangs_iff`).
-/

namespace Mhftp.Download
open Library

/-- No connection fails, and every `so_read` waits for all its bytes. -/
def blocking (_ : State) (a : Act) (s' : State) : Bool :=
  match a with
  | .worker _ .sigpipe => false
  | .worker w (.receive _) =>
    match (s'.workers w).pc with
    | .store _ _ => true
    | _ => false
  | .server w _ _ => !(s'.conns w).short
  | _ => true

/-- Nobody interrupts mhclient, and it can fork. -/
def Act.ordinary : Act → Bool
  | .parent .sigint | .parent .forkFails => false
  | _ => true

/-- The steps that use a connection that may fail. -/
def WorkerAct.reads : WorkerAct → Bool
  | receive _ | sigpipe => true
  | _ => false

/-- The parent has ended. -/
def ParentPc.over : ParentPc → Bool
  | ended | aborted | reset _ => true
  | _ => false

/-! ### The connections -/

namespace Source
variable (src : Source) (md5 : Md5)

/-- What is on a connection, in a run in which every `so_read` gets its bytes: where the
host has the file the server answers, and otherwise it ends when it has read the header. -/
inductive Connected (engaged : Bool) (awaits : Option Nat) (conn : Conn) (srv : MhProtoServer)
    (dir : Dir) : Prop
  | served : dir src.path = some (.file src.content) → src.Intact md5 engaged awaits conn srv →
      Connected engaged awaits conn srv dir
  | unheard : dir src.path = none → srv.pc = .rcvCmd →
      conn.toServer =
        (if engaged then 1 :: ((src.header md5).writeMetadataHeader ++ request awaits) else []) →
      (engaged = false → awaits = none) → conn.toClient = [] →
      Connected engaged awaits conn srv dir
  | gone : dir src.path = none → engaged = true → srv.pc = .exited → conn.toClient = [] →
      Connected engaged awaits conn srv dir

variable {src} {md5} {engaged : Bool} {awaits : Option Nat} {conn : Conn} {srv : MhProtoServer}
  {dir : Dir} {junk : Nat → UInt8} {r : Served}

theorem Intact.linkOk (h : src.Intact md5 engaged awaits conn srv) :
    src.LinkOk md5 engaged awaits conn srv := by
  refine ⟨?_, fun _ => h⟩
  cases h with
  | silent _ _ _ hclient | header _ _ _ hclient | request _ _ _ _ _ hclient =>
    exact Or.inl hclient
  | answered k _ _ _ _ hk _ hclient => exact Or.inr ⟨k, hk, hclient⟩

theorem Connected.open (h : src.Connected md5 false none conn srv dir)
    (hshort : conn.short = false) : src.Connected md5 true none
      { conn with toServer := conn.toServer ++ 1 :: (src.header md5).writeMetadataHeader }
      srv dir := by
  cases h with
  | served hdir hintact => exact .served hdir (hintact.linkOk.open.intact hshort)
  | unheard hdir hpc hserver _ hclient =>
    refine .unheard hdir hpc ?_ nofun hclient
    rw [hserver]
    simp [Source.request]
  | gone _ he => cases he

theorem Connected.request {k : Nat} (h : src.Connected md5 true none conn srv dir)
    (hshort : conn.short = false) : src.Connected md5 true (some k)
      { conn with toServer := conn.toServer ++ (requestChunk k).bytes } srv dir := by
  cases h with
  | served hdir hintact => exact .served hdir (hintact.linkOk.request.intact hshort)
  | unheard hdir hpc hserver _ hclient =>
    refine .unheard hdir hpc ?_ nofun hclient
    rw [hserver]
    simp [Source.request]
  | gone hdir he hpc hclient => exact .gone hdir he hpc hclient

/-- What a worker reads it has asked for. -/
theorem Connected.receive {k : Nat} {md5sum : Digest} {size data rest : List UInt8}
    (hk : src.Has k) (h : src.Connected md5 true (some k) conn srv dir)
    (hshort : conn.short = false) (hsize : size.length = 8)
    (hread : conn.toClient = md5sum.bytes ++ (size ++ (data ++ rest)))
    (hdata : decodeInt size = data.length ∨ decodeInt size = -1 ∧ data = []) :
    src.Connected md5 true none { conn with toClient := rest } srv dir := by
  cases h with
  | served hdir hintact =>
    exact .served hdir ((hintact.linkOk.receive hk hsize hread hdata).2.2.intact hshort)
  | unheard _ _ _ _ hclient | gone _ _ _ hclient =>
    have hlen := congrArg List.length (hread.symm.trans hclient)
    simp [hsize] at hlen

/-- The command to download, read in full. -/
theorem rcvCmd_header {w : Wire} {ys : List UInt8}
    (hu : w.unread = 1 :: ((src.header md5).writeMetadataHeader ++ ys))
    (hintact : (srv.rcvCmd md5 junk dir w).wire.short = false) :
    srv.rcvCmd md5 junk dir w = srv.sendChunkToClient dir
      ⟨(src.header md5).writeMetadataHeader ++ ys, w.script.tail, w.short⟩ := by
  have hcmd : (w.soRead 1).br = 1 := by
    by_contra hne
    rw [rcvCmd_short hne] at hintact
    cases hintact
  have hread := Wire.soRead_of_full (show w.unread = [1] ++ _ from hu) hcmd
  rw [MhProtoServer.rcvCmd]
  simp only [List.length_singleton] at hread
  simp [hread]

/-- A server without the file ends. -/
theorem rcvCmd_missing {w : Wire} {ys : List UInt8}
    (hu : w.unread = 1 :: ((src.header md5).writeMetadataHeader ++ ys))
    (hdir : dir src.path = none) (hintact : (srv.rcvCmd md5 junk dir w).wire.short = false) :
    (srv.rcvCmd md5 junk dir w).server.pc = .exited ∧ (srv.rcvCmd md5 junk dir w).out = [] := by
  have hrcv := rcvCmd_header hu hintact
  rw [hrcv] at hintact ⊢
  rw [MhProtoServer.sendChunkToClient_wire] at hintact
  obtain ⟨-, hheader, -⟩ :=
    Header.readMetadataHeader_of_intact (src.header_inRange md5) rfl hintact
  rw [MhProtoServer.sendChunkToClient]
  simp only [hheader]
  have hnone : ¬ (dir (cString (src.header md5).fileFull.bytes)).isSome = true := by
    show ¬ (dir src.path).isSome = true
    simp [hdir]
  rw [if_neg (src.chunks_lt md5).not_ge, if_neg hnone]
  exact ⟨rfl, rfl⟩

/-- No file is written. -/
theorem Intact.server_dir (h : src.Intact md5 engaged awaits conn srv)
    {script : List (List ReadResult)}
    (hr : srv.step md5 junk dir ⟨conn.toServer, script, conn.short⟩ = some r)
    (hintact : r.wire.short = false) : r.dir = dir := by
  cases h with
  | silent _ hpc hserver =>
    cases hintact.symm.trans (step_short_of_nil (hserver ▸ hr))
  | header _ hpc hserver =>
    rw [MhProtoServer.step, hpc] at hr
    obtain rfl := Option.some.inj hr
    rw [rcvCmd_header hserver hintact, MhProtoServer.sendChunkToClient_dir]
  | request _ _ hpc | answered _ _ _ hpc =>
    rw [MhProtoServer.step, hpc] at hr
    obtain rfl := Option.some.inj hr
    exact MhProtoServer.sendChunkTurn_dir

theorem Connected.server_dir (h : src.Connected md5 engaged awaits conn srv dir)
    {script : List (List ReadResult)}
    (hr : srv.step md5 junk dir ⟨conn.toServer, script, conn.short⟩ = some r)
    (hintact : r.wire.short = false) : r.dir = dir := by
  cases h with
  | served _ h => exact h.server_dir hr hintact
  | unheard _ hpc hserver =>
    cases engaged with
    | false => cases hintact.symm.trans (step_short_of_nil (hserver ▸ hr))
    | true =>
      rw [MhProtoServer.step, hpc] at hr
      obtain rfl := Option.some.inj hr
      rw [rcvCmd_header hserver hintact, MhProtoServer.sendChunkToClient_dir]
  | gone _ _ hpc =>
    rw [MhProtoServer.step, hpc] at hr
    cases hr

theorem Connected.server (h : src.Connected md5 engaged awaits conn srv dir)
    (hawaits : ∀ k, awaits = some k → src.Has k) {script : List (List ReadResult)}
    (hr : srv.step md5 junk dir ⟨conn.toServer, script, conn.short⟩ = some r)
    (hintact : r.wire.short = false) :
    src.Connected md5 engaged awaits ⟨r.wire.unread, conn.toClient ++ r.out, r.wire.short⟩
      r.server r.dir := by
  rw [h.server_dir hr hintact]
  cases h with
  | served hdir h => exact .served hdir (h.server hawaits hdir hr hintact)
  | unheard hdir hpc hserver hawaits hclient =>
    cases engaged with
    | false => cases hintact.symm.trans (step_short_of_nil (hserver ▸ hr))
    | true =>
      rw [MhProtoServer.step, hpc] at hr
      obtain rfl := Option.some.inj hr
      obtain ⟨hexited, hout⟩ := rcvCmd_missing hserver hdir hintact
      exact .gone hdir rfl hexited (by rw [hclient, hout]; rfl)
  | gone _ _ hpc =>
    rw [MhProtoServer.step, hpc] at hr
    cases hr

/-- A server that has not answered a request can go on, if its host has the file or it has
not looked for it. -/
theorem Connected.moves {k : Nat} (h : src.Connected md5 true (some k) conn srv dir)
    (hshort : conn.short = false) :
    conn.toClient = chunkMessage md5 (src.chunk k) ∨
      (dir src.path = none ∧ srv.pc = .exited) ∨
      ∃ r, srv.step md5 (fun _ => 0) dir ⟨conn.toServer, [], conn.short⟩ = some r ∧
        r.wire.short = false := by
  -- the header is there in full
  have heard (hpc : srv.pc = .rcvCmd) (hserver : conn.toServer =
      1 :: ((src.header md5).writeMetadataHeader ++ Source.request (some k))) :
      ∃ r, srv.step md5 (fun _ => 0) dir ⟨conn.toServer, [], conn.short⟩ = some r ∧
        r.wire.short = false := by
    refine ⟨_, by rw [MhProtoServer.step, hpc], ?_⟩
    have hcmd : (Wire.mk conn.toServer [] conn.short).soRead 1 =
        ⟨1, [1], (src.header md5).writeMetadataHeader ++ Source.request (some k), [],
          conn.short⟩ := by
      rw [hserver]
      exact Wire.soRead_clean_append [1]
    unfold MhProtoServer.rcvCmd
    rw [hcmd]
    simp only [if_neg (show ¬ (1 : Int) ≤ 0 by decide), if_true]
    rw [MhProtoServer.sendChunkToClient_wire, readMetadataHeader_clean (src.header_inRange md5)]
    exact hshort
  cases h with
  | served hdir h =>
    cases h with
    | silent he => cases he
    | header _ hpc hserver => exact .inr (.inr (heard hpc hserver))
    | request pos _ hpc hmeta hserver =>
      refine .inr (.inr ⟨_, by rw [MhProtoServer.step, hpc], ?_⟩)
      rw [MhProtoServer.sendChunkTurn_wire]
      have hread : (Wire.mk conn.toServer [] conn.short).readBuffer (Buffer.zero 7) =
          ⟨7, requestChunk k, [], [], conn.short⟩ := by
        rw [hserver]
        exact (congrArg (fun u => (Wire.mk u [] conn.short).readBuffer (Buffer.zero 7))
          (List.append_nil _).symm).trans Wire.readBuffer_clean
      rw [hread]
      exact hshort
    | answered j pos _ _ _ hj _ hclient =>
      obtain rfl := Option.some.inj hj
      exact .inl hclient
  | unheard _ hpc hserver => exact .inr (.inr (heard hpc hserver))
  | gone hdir _ hpc => exact .inr (.inl ⟨hdir, hpc⟩)

end Source

/-! ### The invariant -/

/-- **The invariant of a run over blocking connections.** -/
structure Source.Calm (src : Source) (md5 : Md5) (t₀ : List ChunkInfo) (s : State) : Prop
    extends Sound t₀ s where
  header : s.mdata.header = src.header md5
  copy : s.pc = .loaded ∨ s.pc = .finalLoaded ∨ s.pc = .killLoaded →
    s.metadata.header = src.header md5
  forking : ∀ i, s.pc = .forking i → i ≤ s.numClient
  short : ∀ w < s.numClient, (s.conns w).short = false
  conn : ∀ w < s.numClient, src.Connected md5 (s.workers w).pc.engaged (s.workers w).pc.awaits
    (s.conns w) (s.servers w) (s.hosts w)

/-- A host has the file, or no file of this name. -/
def Source.Placed (src : Source) (s : State) : Prop :=
  ∀ w < s.numClient, s.hosts w src.path = some (.file src.content) ∨ s.hosts w src.path = none

section Run
variable {src : Source} {md5 : Md5} {t₀ : List ChunkInfo} {s s' : State} {a : Act}

theorem Initial.calm (h : Initial s) (hheader : s.mdata.header = src.header md5)
    (hplaced : src.Placed s) : src.Calm md5 s.mdata.chunkInfo s where
  toSound := h.sound
  header := hheader
  copy := fun hpc => by rw [h.pc] at hpc; simp at hpc
  forking := fun i hi => by rw [h.pc] at hi; cases hi
  short := fun w _ => by rw [h.conns w]
  conn := fun w hw => by
    rw [h.workers w, h.conns w]
    rcases hplaced w hw with hdir | hdir
    · exact .served hdir (.silent rfl (h.servers w) rfl rfl)
    · exact .unheard hdir (h.servers w) rfl (fun _ => rfl) rfl

/-- The chunk of a worker is one of the file. -/
theorem Source.Calm.has (hs : src.Calm md5 t₀ s) {w k : Nat}
    (hw : (s.workers w).pc.finished = false) (hk : (s.workers w).pc.chunk = some k) :
    src.Has k := by
  obtain ⟨c, hc, -⟩ := hs.marked (hs.not_reset hw) hk
  have hlt := (List.getElem?_eq_some_iff.mp hc).1
  have hcount : (s.mdata.chunkInfo.length : Int) = chunkCount src.content.length src.chunkSize :=
    congrArg Header.chunks hs.header
  unfold ChunkedFile.Has
  omega

/-- A worker writes its table to the .mdata file. -/
theorem header_updateControlData {m file : Metadata}
    (hlength : m.chunkInfo.length = file.chunkInfo.length) :
    (m.updateControlData file).header = file.header := by
  simp [Metadata.header, Metadata.chunks, Metadata.updateControlData, hlength]

/-- A step that no connection sees. -/
theorem Source.Calm.quiet (hs : src.Calm md5 t₀ s) (hsound : Sound t₀ s')
    (hnum : s'.numClient = s.numClient) (hheader : s'.mdata.header = src.header md5)
    (hcopy : s'.pc = .loaded ∨ s'.pc = .finalLoaded ∨ s'.pc = .killLoaded →
      s'.metadata.header = src.header md5) (hforking : ∀ i, s'.pc = .forking i → i ≤ s.numClient)
    (hengaged : ∀ w, (s'.workers w).pc.engaged = (s.workers w).pc.engaged)
    (hawaits : ∀ w, (s'.workers w).pc.awaits = (s.workers w).pc.awaits)
    (hconns : s'.conns = s.conns) (hservers : s'.servers = s.servers)
    (hhosts : s'.hosts = s.hosts) : src.Calm md5 t₀ s' := by
  refine ⟨hsound, hheader, hcopy, hnum ▸ hforking, by rw [hnum, hconns]; exact hs.short, ?_⟩
  rw [hnum, hconns, hservers, hhosts]
  intro w hw
  rw [hengaged, hawaits]
  exact hs.conn w hw

/-- A step on the connection of a worker. -/
theorem Source.Calm.link (hs : src.Calm md5 t₀ s) (hsound : Sound t₀ s') {w : Nat} {wk : Worker}
    {conn : Conn} (hnum : s'.numClient = s.numClient) (hpc : s'.pc = s.pc)
    (hmdata : s'.mdata = s.mdata) (hmetadata : s'.metadata = s.metadata)
    (hworkers : s'.workers = update s.workers w wk) (hconns : s'.conns = update s.conns w conn)
    (hservers : s'.servers = s.servers) (hhosts : s'.hosts = s.hosts)
    (hshort : conn.short = (s.conns w).short)
    (hconn : w < s.numClient →
      src.Connected md5 wk.pc.engaged wk.pc.awaits conn (s.servers w) (s.hosts w)) :
    src.Calm md5 t₀ s' := by
  refine ⟨hsound, hmdata ▸ hs.header, by rw [hpc, hmetadata]; exact hs.copy,
    by rw [hpc, hnum]; exact hs.forking, fun v hv => ?_, fun v hv => ?_⟩
  · rw [hconns, apply_update_of_eq (g := Conn.short) hshort]
    exact hs.short v (hnum ▸ hv)
  · rw [hworkers, hconns, hservers, hhosts]
    by_cases he : v = w
    · subst v
      rw [update_self, update_self]
      exact hconn (hnum ▸ hv)
    · rw [update_of_ne _ _ he, update_of_ne _ _ he]
      exact hs.conn v (hnum ▸ hv)

/-- A step of the server of a connection. -/
theorem Source.Calm.serve (hs : src.Calm md5 t₀ s) (hsound : Sound t₀ s') {w : Nat}
    {script : List (List ReadResult)} {junk : Nat → UInt8} {r : Served}
    (hr : (s.servers w).step md5 junk (s.hosts w)
      ⟨(s.conns w).toServer, script, (s.conns w).short⟩ = some r) (hshort : r.wire.short = false)
    (hnum : s'.numClient = s.numClient) (hpc : s'.pc = s.pc) (hmdata : s'.mdata = s.mdata)
    (hmetadata : s'.metadata = s.metadata) (hworkers : s'.workers = s.workers)
    (hconns : s'.conns = update s.conns w
      ⟨r.wire.unread, (s.conns w).toClient ++ r.out, r.wire.short⟩)
    (hlinks : s'.servers = update s.servers w r.server ∧ s'.hosts = update s.hosts w r.dir) :
    src.Calm md5 t₀ s' := by
  refine ⟨hsound, hmdata ▸ hs.header, by rw [hpc, hmetadata]; exact hs.copy,
    by rw [hpc, hnum]; exact hs.forking, fun v hv => ?_, fun v hv => ?_⟩
  · rw [hconns]
    by_cases he : v = w
    · rw [he, update_self]
      exact hshort
    · rw [update_of_ne _ _ he]
      exact hs.short v (hnum ▸ hv)
  · rw [hworkers, hconns, hlinks.1, hlinks.2]
    by_cases he : v = w
    · subst v
      rw [update_self, update_self, update_self]
      refine (hs.conn w (hnum ▸ hv)).server (fun k hk => ?_) hr hshort
      cases hw : (s.workers w).pc <;> rw [hw] at hk <;> cases hk
      exact hs.has (w := w) (by rw [hw]; rfl) (by rw [hw]; rfl)
    · rw [update_of_ne _ _ he, update_of_ne _ _ he, update_of_ne _ _ he]
      exact hs.conn v (hnum ▸ hv)

/-- **Every step over blocking connections keeps the invariant.** -/
theorem calm_step (hs : src.Calm md5 t₀ s) (ha : blocking s a s' = true)
    (h : (machine md5).step s a = some s') : src.Calm md5 t₀ s' := by
  have hsound := sound_step hs.toSound h
  have lt {w : Nat} (hw : (s.workers w).pc.finished = false) : w < s.numClient :=
    hs.toOrderly.lt_numClient hw
  -- a worker that neither sends nor receives
  have worker {w : Nat} {wk : Worker} (hnum : s'.numClient = s.numClient) (hpc : s'.pc = s.pc)
      (hheader : s'.mdata.header = s.mdata.header) (hmetadata : s'.metadata = s.metadata)
      (hworkers : s'.workers = update s.workers w wk)
      (hengaged : wk.pc.engaged = (s.workers w).pc.engaged)
      (hawaits : wk.pc.awaits = (s.workers w).pc.awaits)
      (hconns : s'.conns = s.conns) (hservers : s'.servers = s.servers)
      (hhosts : s'.hosts = s.hosts) : src.Calm md5 t₀ s' := by
    refine hs.quiet hsound hnum (hheader.trans hs.header) (by rw [hpc, hmetadata]; exact hs.copy)
      (by rw [hpc]; exact hs.forking) ?_ ?_ hconns hservers hhosts
    · rw [hworkers]
      exact apply_update_of_eq (g := fun wk : Worker => wk.pc.engaged) hengaged
    · rw [hworkers]
      exact apply_update_of_eq (g := fun wk : Worker => wk.pc.awaits) hawaits
  cases step_cases h with
  | load | wait | killLoad =>
    exact hs.quiet hsound rfl hs.header (fun _ => hs.header) (by simp) (fun _ => rfl)
      (fun _ => rfl) rfl rfl rfl
  | save hpc =>
    exact hs.quiet hsound rfl (hs.copy (.inl hpc)) (by simp) (by simp) (fun _ => rfl)
      (fun _ => rfl) rfl rfl rfl
  | finish hpc =>
    exact hs.quiet hsound rfl (hs.copy (.inr (.inl hpc))) (by simp) (by simp) (fun _ => rfl)
      (fun _ => rfl) rfl rfl rfl
  | killSave hpc =>
    refine hs.quiet hsound rfl ?_ (by simp) (by simp) (fun _ => rfl) (fun _ => rfl) rfl rfl rfl
    rw [← hs.copy (.inr (.inr hpc))]
    simp [Metadata.header, Metadata.chunks, Metadata.resetDownloadingChunks]
  | refuse | forkFails | sigint =>
    exact hs.quiet hsound rfl hs.header (by simp) (by simp) (fun _ => rfl) (fun _ => rfl)
      rfl rfl rfl
  | @fork i hpc hn hi =>
    have habsent := hs.forked i hpc i le_rfl
    refine hs.quiet hsound rfl hs.header (by simp) (fun j hj => ?_) ?_ ?_ rfl rfl rfl
    · obtain rfl := ParentPc.forking.inj hj
      exact hi
    · exact apply_update_of_eq (g := fun wk : Worker => wk.pc.engaged) (by rw [habsent]; rfl)
    · exact apply_update_of_eq (g := fun wk : Worker => wk.pc.awaits) (by rw [habsent]; rfl)
  | @«open» w hw =>
    refine hs.link hsound rfl rfl rfl rfl rfl rfl rfl rfl rfl fun hlt => ?_
    have hconn := hs.conn w hlt
    rw [hw] at hconn
    rw [hs.header]
    exact hconn.open (hs.short w hlt)
  | @request w k hw =>
    refine hs.link hsound rfl rfl rfl rfl rfl rfl rfl rfl rfl fun hlt => ?_
    have hconn := hs.conn w hlt
    rw [hw] at hconn
    exact hconn.request (hs.short w hlt)
  | @receive w k script hw =>
    have hlt := lt (w := w) (by rw [hw]; rfl)
    have hconn := hs.conn w hlt
    have hk := hs.has (w := w) (k := k) (by rw [hw]; rfl) (by rw [hw]; rfl)
    rw [hw] at hconn
    obtain ⟨wk, toClient, he, -, -, hcase⟩ := receive_cases s w k script
    have hpc' : ((receive s w k script).workers w).pc = wk.pc := by
      rw [he]
      exact congrArg Worker.pc (update_self _ _ _)
    rcases hcase with ⟨hpc, -⟩ | hpc | ⟨data, size, hpc, -, hsize, hread, hdata⟩
    · simp [blocking, hpc', hpc] at ha
    · simp [blocking, hpc', hpc] at ha
    · rw [he] at hsound ⊢
      refine hs.link hsound rfl rfl rfl rfl rfl rfl rfl rfl rfl fun _ => ?_
      rw [hpc]
      exact hconn.receive hk (hs.short w hlt) hsize hread hdata
  | sigpipeStart | sigpipeRequest => cases ha
  | @claim w k m hw hk hm =>
    refine worker rfl rfl ?_ rfl rfl (by rw [hw]; rfl) (by rw [hw]; rfl) rfl rfl rfl
    exact header_updateControlData (hsound.length.trans hs.length.symm)
  | @update w k m hw hm =>
    refine worker rfl rfl ?_ rfl rfl (by rw [hw]; rfl) (by rw [hw]; rfl) rfl rfl rfl
    exact header_updateControlData (hsound.length.trans hs.length.symm)
  | @test w c hw =>
    refine worker rfl rfl rfl rfl rfl ?_ ?_ rfl rfl rfl <;> rw [hw] <;> dsimp only <;>
      split <;> rfl
  | server hr =>
    exact hs.serve hsound hr (by simpa [blocking] using ha) rfl rfl rfl rfl rfl rfl ⟨rfl, rfl⟩
  | lockClaim _ hw | lockUpdate _ hw | loadClaim hw | loadUpdate hw | giveUp hw
  | releaseClaim hw | releaseUpdate hw | store hw =>
    exact worker rfl rfl rfl rfl rfl (by rw [hw]; rfl) (by rw [hw]; rfl) rfl rfl rfl

/-! ### Who can go on -/

/-- A process of the download can take a step, over blocking connections and without
interruption. -/
def Moves (md5 : Md5) (s : State) : Prop :=
  ∃ a s', a.within s.numClient = true ∧ a.ordinary = true ∧ (machine md5).step s a = some s' ∧
    blocking s a s' = true

/-- Worker `w` waits for a server that has ended. -/
def State.Hangs (s : State) (w : Nat) : Prop :=
  (∃ k, (s.workers w).pc = .receive k) ∧ (s.servers w).pc = .exited

/-- A worker that neither waits for its server nor loses its connection. -/
theorem Moves.worker {w : Nat} (a : WorkerAct) (ha : a.reads = false)
    (h : (workerStep s w a).isSome = true) : Moves md5 s := by
  obtain ⟨s', hs'⟩ := Option.isSome_iff_exists.mp h
  refine ⟨.worker w a, s', rfl, rfl, hs', ?_⟩
  cases a <;> first | rfl | cases ha

theorem Moves.parent (a : ParentAct) (ha : (Act.parent a).ordinary = true)
    (h : (parentStep s a).isSome = true) : Moves md5 s := by
  obtain ⟨s', hs'⟩ := Option.isSome_iff_exists.mp h
  exact ⟨.parent a, s', rfl, ha, hs', rfl⟩

/-- Nobody waits inside the critical section. -/
theorem moves_of_critical {w : Nat} (hw : (phase (s.workers w)).critical = true) :
    Moves md5 s := by
  unfold phase at hw
  cases hpc : (s.workers w).pc <;> rw [hpc] at hw <;> try cases hw
  case claimLocked | updateLocked =>
    exact .worker (w := w) .load rfl (by simp [workerStep, hpc])
  case claimLoaded =>
    cases hk : (s.workers w).metadata.getNextPendingChunk with
    | none => exact .worker (w := w) .giveUp rfl (by simp [workerStep, hpc, hk])
    | some k => exact .worker (w := w) .claim rfl (by simp [workerStep, hpc, hk])
  case claimed | updated =>
    exact .worker (w := w) .release rfl (by simp [workerStep, hpc])
  case updateLoaded =>
    exact .worker (w := w) .update rfl (by simp [workerStep, hpc])
  case looping c =>
    by_cases hc : c = -1 <;> simp [hc, ClaimTable.Phase.resume, ClaimTable.Phase.critical] at hw

/-- Who waits for the lock waits for one that can go on. -/
theorem Source.Calm.moves_of_lock (hs : src.Calm md5 t₀ s) {w : Nat}
    (hw : s.lock = none → (workerStep s w .lock).isSome = true) : Moves md5 s := by
  cases hl : s.lock with
  | none => exact .worker (w := w) .lock rfl (hw hl)
  | some v => exact moves_of_critical (w := v) ((hs.valid.owner v).mpr hl)

/-- A worker reads the whole chunk that it has been sent. -/
theorem receive_message {w k : Nat} (hk : src.Has k)
    (hclient : (s.conns w).toClient = chunkMessage md5 (src.chunk k)) :
    ((receive s w k []).workers w).pc = .store k (src.chunk k) := by
  have hle := (src.size_le_max k).trans_eq maxChunkSize_eq
  have hlength := hk.length_chunk
  have hbmod : ((src.chunk k).length : Int).bmod (2 ^ 32) = (src.chunk k).length :=
    Int.bmod_eq_of_le_mul_two (by omega) (by omega)
  have hdigest : (Wire.mk (s.conns w).toClient [] false).readBuffer (s.workers w).rcv_md5sum =
      ⟨digestSize, md5 (src.chunk k), encodeInt 8 (src.chunk k).length ++ src.chunk k, [],
        false⟩ := by
    rw [hclient]
    exact Wire.readBuffer_clean
  have hsize : (Wire.mk (encodeInt 8 (src.chunk k).length ++ src.chunk k) [] false).readInt64 0 =
      ⟨8, (src.chunk k).length, src.chunk k, [], false⟩ :=
    Wire.readInt64_clean (by omega)
  have hdata : (Wire.mk (src.chunk k) [] false).soRead (src.chunk k).length =
      ⟨(src.chunk k).length, src.chunk k, [], [], false⟩ := by
    rw [Wire.soRead_clean]
    simp
  unfold receive
  dsimp only
  have hneg : ¬ ((src.chunk k).length : Int) < 0 := by omega
  simp only [hdigest, hsize, ne_eq, not_true_eq_false, if_false]
  rw [hbmod, maxChunkSize_eq, if_neg (by omega), if_neg hneg, Int.toNat_natCast, hdata]
  simp only [not_true_eq_false, if_false]
  exact congrArg Worker.pc (update_self _ _ _)

/-- **A worker that is still there can go on, or somebody else can, or it waits for a server
that has ended because its host does not have the file.** -/
theorem Source.Calm.moves_or_hangs (hs : src.Calm md5 t₀ s) {w : Nat}
    (hw : (s.workers w).pc.finished = false) :
    Moves md5 s ∨ s.Hangs w ∧ s.hosts w src.path = none := by
  have hlt := hs.toOrderly.lt_numClient hw
  cases hpc : (s.workers w).pc <;> rw [hpc] at hw <;> try cases hw
  case start => exact .inl (.worker (w := w) .open rfl (by simp [workerStep, hpc]))
  case loop | update =>
    exact .inl (hs.moves_of_lock (w := w) fun hl => by simp [workerStep, hl, hpc])
  case claimLocked | claimLoaded | claimed | updateLocked | updateLoaded | updated =>
    exact .inl (moves_of_critical (w := w) (by simp [phase, hpc, ClaimTable.Phase.critical]))
  case request => exact .inl (.worker (w := w) .request rfl (by simp [workerStep, hpc]))
  case store => exact .inl (.worker (w := w) .store rfl (by simp [workerStep, hpc]))
  case looping => exact .inl (.worker (w := w) .test rfl (by simp [workerStep, hpc]))
  case receive k =>
    have hconn := hs.conn w hlt
    have hk := hs.has (w := w) (k := k) (by rw [hpc]; rfl) (by rw [hpc]; rfl)
    rw [hpc] at hconn
    rcases hconn.moves (hs.short w hlt) with hclient | ⟨hdir, hexited⟩ | ⟨r, hr, hshort⟩
    · refine .inl ⟨.worker w (.receive []), receive s w k [], rfl, rfl, ?_, ?_⟩
      · simp [machine, step, workerStep, hpc]
      · simp [blocking, receive_message hk hclient]
    · exact .inr ⟨⟨⟨k, hpc⟩, hexited⟩, hdir⟩
    · refine .inl ⟨.server w [] fun _ => 0, _, by simp [Act.within, hlt], rfl,
        Option.map_eq_some_iff.mpr ⟨r, hr, rfl⟩, ?_⟩
      simp [blocking, hshort]

/-- A step, if no worker is there any more. -/
theorem Source.Calm.parent_moves (hs : src.Calm md5 t₀ s) (hall : s.AllFinished) :
    Moves md5 s ∨ s.pc.over = true := by
  cases hpc : s.pc with
  | start => exact .inl (.parent .load rfl (by simp [parentStep, hpc]))
  | loaded => exact .inl (.parent .save rfl (by simp [parentStep, hpc]))
  | forking i =>
    have hi := hs.forking i hpc
    by_cases hn : s.numClient ≤ nproc
    · by_cases he : i = s.numClient
      · exact .inl (.parent .wait rfl (by simp [parentStep, hpc, he, hall]))
      · exact .inl (.parent .fork rfl (by simp [parentStep, hpc, hn]; omega))
    · exact .inl (.parent .refuse rfl (by simp [parentStep, hpc]; omega))
  | finalLoaded => exact .inl (.parent .finish rfl (by simp [parentStep, hpc]))
  | killWait => exact .inl (.parent .killLoad rfl (by simp [parentStep, hpc, hall]))
  | killLoaded => exact .inl (.parent .killSave rfl (by simp [parentStep, hpc]))
  | ended | aborted | reset => exact .inr rfl

/-! ### Whole runs -/

/-- The hosts keep what they have. -/
theorem Source.Calm.hosts_step (hs : src.Calm md5 t₀ s) (ha : blocking s a s' = true)
    (h : (machine md5).step s a = some s') {v : Nat} (hv : v < s.numClient) :
    s'.hosts v = s.hosts v := by
  cases step_cases h with
  | @server w script junk r hr =>
    by_cases he : v = w
    · subst v
      exact (update_self _ _ _).trans
        ((hs.conn w hv).server_dir hr (by simpa [blocking] using ha))
    · exact update_of_ne _ _ he
  | receive =>
    obtain ⟨wk, toClient, he, -⟩ := receive_cases s _ _ _
    rw [he]
    rfl
  | _ => rfl

theorem calm_run {as : List Act} (hs : src.Calm md5 t₀ s)
    (hblocking : (machine md5).Along (fun s a s' => blocking s a s' = true) s as)
    (hr : (machine md5).run s as = some s') :
    src.Calm md5 t₀ s' ∧ s'.numClient = s.numClient ∧ ∀ v < s.numClient, s'.hosts v = s.hosts v :=
  Machine.run_invariant
    (I := fun u => src.Calm md5 t₀ u ∧ u.numClient = s.numClient ∧
      ∀ v < s.numClient, u.hosts v = s.hosts v)
    (fun _ _ _ hu ha h => ⟨calm_step hu.1 ha h, (numClient_step h).trans hu.2.1,
      fun v hv => (hu.1.hosts_step ha h (hu.2.1.symm ▸ hv)).trans (hu.2.2 v hv)⟩)
    ⟨hs, rfl, fun _ _ => rfl⟩ hblocking hr

/-- The worker has claimed a chunk and has not read it yet. -/
def WorkerPc.asking : WorkerPc → Bool
  | claimed _ | request _ | receive _ => true
  | _ => false

/-- The chunk of a worker that claims none. -/
theorem chunk_step {w : Nat} (h : (machine md5).step s a = some s') (ha : a ≠ .worker w .claim)
    (hw : (s.workers w).pc.chunk = none) : (s'.workers w).pc.chunk = none := by
  have moved {v : Nat} {wk : Worker} (hwk : v = w → wk.pc.chunk = none) :
      (update s.workers v wk w).pc.chunk = none := by
    by_cases hv : w = v
    · subst v
      rw [update_self]
      exact hwk rfl
    · rw [update_of_ne _ _ hv]
      exact hw
  cases step_cases h with
  | @claim v => exact moved fun he => absurd (he ▸ rfl) ha
  | @receive v k script hv =>
    obtain ⟨wk, toClient, he, -⟩ := receive_cases s v k script
    rw [he]
    refine moved fun he => ?_
    subst v
    rw [hv] at hw
    cases hw
  | @test v c hv =>
    refine moved fun _ => ?_
    dsimp only
    split <;> rfl
  | @lockUpdate v k _ hv | @loadUpdate v k hv | @releaseClaim v k hv | @request v k hv
  | @sigpipeRequest v k hv | @store v k _ _ hv | @update v k _ hv =>
    refine moved fun he => ?_
    subst v
    rw [hv] at hw
    cases hw
  | fork | «open» | lockClaim | loadClaim | giveUp | releaseUpdate | sigpipeStart =>
    exact moved fun _ => rfl
  | _ => exact hw

/-- Without a server a worker that has claimed a chunk stays where it is. -/
theorem Source.Calm.asking_step (hs : src.Calm md5 t₀ s) (ha : blocking s a s' = true)
    (h : (machine md5).step s a = some s') {w : Nat} (hlt : w < s.numClient)
    (hdir : s.hosts w src.path = none) (hw : (s.workers w).pc.asking = true) :
    (s'.workers w).pc.asking = true := by
  have moved {v : Nat} {wk : Worker} (hwk : v = w → wk.pc.asking = true) :
      (update s.workers v wk w).pc.asking = true := by
    by_cases hv : w = v
    · subst v
      rw [update_self]
      exact hwk rfl
    · rw [update_of_ne _ _ hv]
      exact hw
  have other {v : Nat} {pc : WorkerPc} (hv : (s.workers v).pc = pc) (hpc : pc.asking = false)
      (wk : Worker) : (update s.workers v wk w).pc.asking = true := by
    refine moved fun he => ?_
    rw [← he, hv, hpc] at hw
    cases hw
  cases step_cases h with
  | @receive v k script hv =>
    obtain ⟨wk, toClient, he, -, -, hcase⟩ := receive_cases s v k script
    have hpc' : ((receive s v k script).workers v).pc = wk.pc := by
      rw [he]
      exact congrArg Worker.pc (update_self _ _ _)
    rcases hcase with ⟨hpc, -⟩ | hpc | ⟨data, size, hpc, -, hsize, hread, -⟩
    · simp [blocking, hpc', hpc] at ha
    · simp [blocking, hpc', hpc] at ha
    · rw [he]
      refine moved fun he => ?_
      -- nothing comes on this connection
      subst v
      have hclient : (s.conns w).toClient = [] := by
        cases hs.conn w hlt with
        | served hsome => cases hdir.symm.trans hsome
        | unheard _ _ _ _ hclient | gone _ _ _ hclient => exact hclient
      have hlen := congrArg List.length (hread.symm.trans hclient)
      simp [hsize] at hlen
  | @releaseClaim v k | @request v k => exact moved fun _ => rfl
  | @claim v k => exact moved fun _ => rfl
  | @fork i hpc =>
    have habsent := hs.forked i hpc i le_rfl
    exact other habsent rfl _
  | sigpipeStart | sigpipeRequest => cases ha
  | «open» hv | lockClaim _ hv | lockUpdate _ hv | loadClaim hv | loadUpdate hv | giveUp hv
  | releaseUpdate hv | store hv | update hv | test hv => exact other hv rfl _
  | _ => exact hw

theorem unfinished_of_asking {pc : WorkerPc} (h : pc.asking = true) : pc.finished = false := by
  cases pc <;> first | rfl | cases h

/-- A worker that has claimed a chunk and has no server is there for good. -/
theorem asking_of_claim {s₀ : State} {as : List Act} (hs : src.Calm md5 t₀ s₀)
    (hr : (machine md5).run s₀ as = some s)
    (hblocking : (machine md5).Along (fun s a s' => blocking s a s' = true) s₀ as) {w : Nat}
    (hlt : w < s₀.numClient) (hdir : s₀.hosts w src.path = none)
    (hclaim : Act.worker w .claim ∈ as) : (s.workers w).pc.asking = true := by
  obtain ⟨bs, cs, rfl⟩ := List.append_of_mem hclaim
  obtain ⟨t, ht, hr'⟩ := Option.bind_eq_some_iff.mp ((Machine.run_append _ _ _).symm.trans hr)
  obtain ⟨u, hu, hr'⟩ := Machine.run_cons hr'
  obtain ⟨hcalm, hnum, hhosts⟩ := calm_run hs hblocking.append_left ht
  obtain ⟨ha, hrest⟩ := hblocking.of_append ht u hu
  have hasking : (u.workers w).pc.asking = true := by
    cases step_cases hu with
    | claim => exact congrArg (fun wk : Worker => wk.pc.asking) (update_self _ _ _)
  have hdir' : u.hosts w src.path = none := by
    rw [hcalm.hosts_step ha hu (hnum.symm ▸ hlt), hhosts w hlt]
    exact hdir
  exact (Machine.run_invariant (I := fun v => src.Calm md5 t₀ v ∧ w < v.numClient ∧
      v.hosts w src.path = none ∧ (v.workers w).pc.asking = true)
    (fun v b v' hv hb h => ⟨calm_step hv.1 hb h, (numClient_step h).symm ▸ hv.2.1,
      hv.1.hosts_step hb h hv.2.1 ▸ hv.2.2.1, hv.1.asking_step hb h hv.2.1 hv.2.2.1 hv.2.2.2⟩)
    ⟨calm_step hcalm ha hu, by rw [numClient_step hu, hnum]; exact hlt, hdir', hasking⟩
    hrest hr').2.2.2

/-- Where nobody can move, whoever is still there waits for a server without the file. -/
theorem Source.Calm.hanging (hs : src.Calm md5 t₀ s) (hstuck : ¬ Moves md5 s)
    (hthere : ¬ (s.AllFinished ∧ s.pc.over = true)) :
    ∃ w < s.numClient, (∃ k, (s.workers w).pc = .receive k) ∧ s.hosts w src.path = none := by
  obtain ⟨w, hlt, hw⟩ : ∃ w < s.numClient, (s.workers w).pc.finished = false := by
    by_contra hnone
    have hall : s.AllFinished := fun w hw => by
      by_contra hfinished
      exact hnone ⟨w, hw, Bool.not_eq_true _ ▸ hfinished⟩
    exact hthere ⟨hall, (hs.parent_moves hall).resolve_left hstuck⟩
  obtain ⟨⟨hreceive, -⟩, hdir⟩ := (hs.moves_or_hangs hw).resolve_left hstuck
  exact ⟨w, hlt, hreceive, hdir⟩

/-- **When a download hangs.**  Each host has the file or has no such file, every `so_read`
waits for its bytes, and the download has gone on, whatever the order and with a SIGINT or
not, until no process of it can take a step.  Then something of mhclient is still there if
and only if a worker whose host does not have the file has claimed a chunk. -/
theorem hangs_iff (md5 : Md5) (src : Source) {s₀ : State} {as : List Act} (h₀ : Initial s₀)
    (hheader : s₀.mdata.header = src.header md5) (hplaced : src.Placed s₀)
    (hr : (machine md5).run s₀ as = some s)
    (hblocking : (machine md5).Along (fun s a s' => blocking s a s' = true) s₀ as)
    (hstuck : ¬ Moves md5 s) :
    ¬ (s.AllFinished ∧ s.pc.over = true) ↔
      ∃ w < s₀.numClient, s₀.hosts w src.path = none ∧ Act.worker w .claim ∈ as := by
  have hcalm₀ := h₀.calm hheader hplaced
  obtain ⟨hcalm, hnum, hhosts⟩ := calm_run hcalm₀ hblocking hr
  constructor
  · intro hthere
    obtain ⟨w, hlt, ⟨k, hk⟩, hdir⟩ := hcalm.hanging hstuck hthere
    refine ⟨w, hnum ▸ hlt, hhosts w (hnum ▸ hlt) ▸ hdir, ?_⟩
    by_contra hno
    -- who claims nothing asks for nothing
    have hchunk := Machine.run_invariant (I := fun u => (u.workers w).pc.chunk = none)
      (P := fun _ a _ => a ≠ .worker w .claim)
      (fun _ _ _ hu ha h => chunk_step h ha hu) (by rw [h₀.workers w]; rfl)
      (Machine.along_of_at_step fun bs a cs t u he _ _ ha => hno (by simp [he, ha])) hr
    rw [hk] at hchunk
    cases hchunk
  · rintro ⟨w, hlt, hdir, hclaim⟩ ⟨hall, -⟩
    have hasking := asking_of_claim hcalm₀ hr hblocking hlt hdir hclaim
    exact Bool.false_ne_true ((unfinished_of_asking hasking).symm.trans (hall w (hnum.symm ▸ hlt)))

/-! ### States in which nobody can go on -/

theorem not_moves (hparent : ∀ a, (Act.parent a).ordinary = true → parentStep s a = none)
    (hworkers : ∀ w, (s.workers w).pc.finished = true ∨
      (∃ k, (s.workers w).pc = .receive k) ∧ (s.conns w).toClient = [])
    (hservers : ∀ w < s.numClient, (s.servers w).pc.rank = 0 ∨ (s.conns w).toServer = []) :
    ¬ Moves md5 s := by
  rintro ⟨a, s', hwithin, hord, h, ha⟩
  cases a with
  | parent a => cases (hparent a hord).symm.trans h
  | worker w a =>
    rcases hworkers w with hw | ⟨⟨k, hw⟩, hclient⟩
    · cases (unfinished_of_step h).symm.trans hw
    · cases step_cases h with
      | @receive _ j script _ =>
        obtain ⟨wk, toClient, he, -, -, hcase⟩ := receive_cases s w j script
        have hpc' : ((receive s w j script).workers w).pc = wk.pc := by
          rw [he]
          exact congrArg Worker.pc (update_self _ _ _)
        rcases hcase with ⟨hpc, -⟩ | hpc | ⟨data, size, -, -, hsize, hread, -⟩
        · simp [blocking, hpc', hpc] at ha
        · simp [blocking, hpc', hpc] at ha
        · have hlen := congrArg List.length (hread.symm.trans hclient)
          simp [hsize] at hlen
      | sigpipeStart | sigpipeRequest => cases ha
      | lockClaim _ he | lockUpdate _ he | «open» he | loadClaim he | loadUpdate he | claim he
      | giveUp he | releaseClaim he | releaseUpdate he | request he | store he | update he
      | test he => cases hw.symm.trans he
  | server w script junk =>
    have hlt : w < s.numClient := of_decide_eq_true hwithin
    cases step_cases h with
    | @server _ _ _ r hr =>
      rcases hservers w hlt with hrank | hnil
      · have := MhProtoServer.step_rank hr
        unfold MhProtoServer.step at hr
        split at hr <;> simp_all [ServerPc.rank]
      · rw [hnil] at hr
        have hshort := Source.step_short_of_nil hr
        simp [blocking, hshort] at ha

end Run

/-! ### Sample runs -/

/-- One worker, and nobody has the file. -/
def sampleMissing : State :=
  .begin 1 ((sampleSource.header fun _ => Buffer.zero _).fresh 0) [] fun _ => none

/-- The server ends, and the worker asks it for the first chunk. -/
def sampleAsk : List Act :=
  sampleOpen ++ [.worker 0 .lock, .worker 0 .load, .worker 0 .claim, .worker 0 .release,
    .worker 0 .request]

theorem hangs_iff_sample : ∃ s,
    (machine fun _ => Buffer.zero _).run sampleMissing sampleAsk = some s ∧
    ¬ Moves (fun _ => Buffer.zero _) s ∧ ¬ (s.AllFinished ∧ s.pc.over = true) := by
  obtain ⟨s, hs, hnum, hpc, hw, hclient, hrank⟩ : ∃ s,
      (machine fun _ => Buffer.zero _).run sampleMissing sampleAsk = some s ∧ s.numClient = 1 ∧
        s.pc = .forking 1 ∧ (s.workers 0).pc = .receive 0 ∧ (s.conns 0).toClient = [] ∧
        (s.servers 0).pc.rank = 0 := Machine.exists_run (by decide +kernel)
  have houtside := (sound_run (initial_begin _ _ _ _).sound hs).outside
  have hthere : ¬ s.AllFinished := fun hall => by
    have := hall 0 (by omega)
    rw [hw] at this
    cases this
  have hstuck : ¬ Moves (fun _ => Buffer.zero _) s := by
    refine not_moves (fun a ha => ?_) (fun w => ?_) fun w hlt => ?_
    · cases a <;> first | (simp [parentStep, hpc, hnum, hthere, nproc]; done) | cases ha
    · cases w with
      | zero => exact .inr ⟨⟨0, hw⟩, hclient⟩
      | succ w =>
        left
        rw [houtside (w + 1) (by omega)]
        rfl
    · obtain rfl : w = 0 := by omega
      exact .inl hrank
  refine ⟨s, hs, hstuck, (hangs_iff _ sampleSource (initial_begin _ _ _ _) ?_ (fun _ _ => .inr rfl)
    hs (by decide +kernel) hstuck).mpr ⟨0, by decide, rfl, by simp [sampleAsk]⟩⟩
  exact Header.fresh_header sampleSource.count_nonneg

end Mhftp.Download
