import Mhftp.CheckResume
import Mhftp.Completion
import Mhftp.FinishedLength
import Mhftp.Md5Utils

/-! # DownloadFile

`DownloadFile` of mhclient: without an .mdata file it asks the first host for the metadata
(`DownloadMetadataFromServer`), then it runs the download, and in the end it compares the MD5
of the local file with the one in the metadata and says so if they differ.

Nothing that goes wrong on the way gets past the last check (`verdict_iff`), and over blocking
connections nothing does go wrong (`download_file`).
-/

namespace Mhftp
open Library

/-! ### The metadata -/

/-- `DownloadMetadataFromServer` after its request: the metadata that it saves, or none where
the process ends, and what it leaves on the connection. -/
def receiveMetadata (mem : ClientMemory) (w : Wire) : Option Metadata × Wire :=
  let response := w.readBuffer mem.response
  if decodeInt response.value.bytes = 1 then (none, response.wire)
  else
    let header := mem.metadata.readMetadataHeader response.wire
    (if header.1.NoTable then none else some (header.1.fresh mem.inUse), header.2)

theorem downloadMetadataFromServer_eq (mem : ClientMemory) (file : List UInt8) (w : Wire) :
    downloadMetadataFromServer mem file w = (receiveMetadata mem w).1.map fun m =>
      (m.saveMetadata file, (receiveMetadata mem w).2) := by
  unfold downloadMetadataFromServer receiveMetadata
  dsimp only
  split
  · rfl
  · dsimp only
    split <;> rfl

section Metadata
variable {md5 : Md5} {junk : Nat → UInt8} {srv : MhProtoServer} {dir : Dir} {w : Wire}
  {r : MetadataRequest} {h : Header}

/-- What mhclient may ask for. -/
structure MetadataRequest.Sendable (r : MetadataRequest) : Prop where
  length : r.file_path.length < fnameSize
  nul : 0 ∉ r.file_path
  chunk_size : -2 ^ 63 ≤ r.chunk_size ∧ r.chunk_size < 2 ^ 63

/-- The request with the chunk size that the server takes. -/
def MetadataRequest.taken (r : MetadataRequest) : MetadataRequest :=
  { r with chunk_size := if r.chunk_size = 0 then defaultChunkSize else r.chunk_size }

/-- A path is read in full. -/
theorem readPath_of_intact {p : Path} (hnul : 0 ∉ p) (hu : w.unread = p)
    (hintact : (MhProtoServer.readPath p.length w).wire.short = false) :
    (MhProtoServer.readPath p.length w).value = p ∧
      (MhProtoServer.readPath p.length w).wire.unread = [] := by
  rw [MhProtoServer.readPath, if_neg (by omega)] at hintact ⊢
  dsimp only [Int.toNat_natCast] at hintact ⊢
  have hread := Wire.soRead_of_full (hu.trans (List.append_nil p).symm)
    (Wire.soRead_full_of_intact hintact).2
  rw [hread]
  exact ⟨cString_of_notMem hnul, rfl⟩

/-- What is read for the metadata, in full. -/
theorem sendMetadataToClient_of_intact (hr : r.Sendable)
    (hu : w.unread = encodeInt 8 r.chunk_size ++ (encodeInt 2 r.file_path.length ++ r.file_path))
    (hdir : dir r.file_path = some (.file r.content))
    (hintact : (srv.sendMetadataToClient md5 junk dir w).wire.short = false) :
    ∃ v : Wire, v.unread = [] ∧ srv.sendMetadataToClient md5 junk dir w =
      ⟨{ srv with pc := .rcvCmd, chunkSize := r.taken.chunk_size }, dir, v, encodeInt 2 0 ++
        (MhProtoServer.metadataFor md5 junk r.file_path r.content
          r.taken.chunk_size).writeMetadataHeader⟩ := by
  have hlength := hr.length
  unfold fnameSize at hlength
  let size : Buffer 2 := ⟨encodeInt 2 r.file_path.length, length_encodeInt _ _⟩
  have hsize : decodeInt size.bytes = r.file_path.length :=
    decodeInt_encodeInt_of_range (by omega) (by omega)
  unfold MhProtoServer.sendMetadataToClient at hintact ⊢
  dsimp only at hintact ⊢
  -- neither the chunk size nor the size of the path has come up short
  have hpath_size : ((w.readInt64 (decodeInt (unset junk 0 8))).wire.readBuffer
      (unsetBuffer junk 8 2)).wire.short = false := by
    by_contra hshort
    rw [Bool.not_eq_false] at hshort
    revert hintact
    split
    · simp [hshort]
    · split <;> simp [MhProtoServer.readPath_short hshort]
  obtain ⟨hchunk_size, hbr₂⟩ := Wire.readBuffer_full_of_intact hpath_size
  obtain ⟨-, hbr₁⟩ := Wire.readInt64_full_of_intact hchunk_size
  have hread₁ := Wire.readInt64_of_full hu hr.chunk_size hbr₁
  rw [hread₁] at hbr₂ hintact ⊢
  have hread₂ := Wire.readBuffer_of_full (c := size) rfl hbr₂
  rw [hread₂] at hintact ⊢
  simp only [hsize] at hintact ⊢
  rw [if_neg (by unfold fnameSize; omega)] at hintact ⊢
  have hpath : (MhProtoServer.readPath r.file_path.length
      ⟨r.file_path, w.script.tail.tail, w.short⟩).wire.short = false := by
    revert hintact
    split <;> exact id
  obtain ⟨hvalue, hunread⟩ := readPath_of_intact hr.nul rfl hpath
  rw [hvalue, hdir]
  exact ⟨_, hunread, rfl⟩

/-- A server that has read a request in full answers it. -/
theorem rcvCmd_metadata (hr : r.Sendable) (hu : w.unread = r.bytes)
    (hdir : dir r.file_path = some (.file r.content))
    (hintact : (srv.rcvCmd md5 junk dir w).wire.short = false) :
    ∃ h, r.taken.Describes md5 h ∧ (srv.rcvCmd md5 junk dir w).server.pc = .rcvCmd ∧
      (srv.rcvCmd md5 junk dir w).dir = dir ∧ (srv.rcvCmd md5 junk dir w).wire.unread = [] ∧
      (srv.rcvCmd md5 junk dir w).out = encodeInt 2 0 ++ h.writeMetadataHeader := by
  have hcmd : (w.soRead 1).br = 1 := by
    by_contra hne
    rw [Download.Source.rcvCmd_short hne] at hintact
    cases hintact
  have hread := Wire.soRead_of_full (show w.unread = [2] ++ _ from hu) hcmd
  rw [List.length_singleton] at hread
  have hrcv : srv.rcvCmd md5 junk dir w = srv.sendMetadataToClient md5 junk dir
      (w.soRead 1).wire := by
    rw [MhProtoServer.rcvCmd]
    simp [hread]
  rw [hrcv] at hintact ⊢
  obtain ⟨v, hunread, hsend⟩ :=
    sendMetadataToClient_of_intact hr (by rw [hread]; rfl) hdir hintact
  rw [hsend]
  exact ⟨_, ⟨cString_overlay hr.length hr.nul, rfl, rfl, rfl, rfl⟩, rfl, rfl, hunread, rfl⟩

/-- The client saves the metadata that it has read in full. -/
theorem receiveMetadata_of_intact (hh : h.InRange) (htable : ¬ h.NoTable)
    (hu : w.unread = encodeInt 2 0 ++ h.writeMetadataHeader) {mem : ClientMemory}
    (hintact : (receiveMetadata mem w).2.short = false) :
    (receiveMetadata mem w).1 = some (h.fresh mem.inUse) ∧
      (receiveMetadata mem w).2.unread = [] := by
  let response : Buffer 2 := ⟨encodeInt 2 0, length_encodeInt _ _⟩
  unfold receiveMetadata at hintact ⊢
  dsimp only at hintact ⊢
  have hresponse : (w.readBuffer mem.response).wire.short = false := by
    by_contra hshort
    rw [Bool.not_eq_false] at hshort
    revert hintact
    split
    · simp [hshort]
    · simp [Header.readMetadataHeader_short hshort]
  have hread := Wire.readBuffer_of_full (c := response) hu
    (Wire.readBuffer_full_of_intact hresponse).2
  have hfound : ¬ decodeInt response.bytes = 1 := by decide
  rw [hread] at hintact ⊢
  rw [if_neg hfound] at hintact ⊢
  obtain ⟨-, hheader, hunread⟩ := Header.readMetadataHeader_of_intact hh
    (List.append_nil h.writeMetadataHeader).symm hintact
  exact ⟨by rw [hheader, if_neg htable], hunread⟩

/-- Nothing can be read where nothing has been sent. -/
theorem receiveMetadata_short {mem : ClientMemory} {script : List (List ReadResult)}
    {short : Bool} : (receiveMetadata mem ⟨[], script, short⟩).2.short = true := by
  have hshort : ((Wire.mk [] script short).readBuffer mem.response).wire.short = true :=
    Download.Source.soRead_short (Download.Source.soRead_br_ne (by simp))
  unfold receiveMetadata
  dsimp only
  split
  · exact hshort
  · exact Header.readMetadataHeader_short hshort

/-- A server that reads without trouble reads a request in full. -/
theorem rcvCmd_metadata_clean (hr : r.Sendable) :
    (srv.rcvCmd md5 junk dir ⟨r.bytes, [], false⟩).wire.short = false := by
  rw [← List.append_nil r.bytes]
  simp only [MetadataRequest.bytes, List.cons_append, List.append_assoc]
  rw [rcvCmd_sendMetadata md5 junk hr.length hr.nul hr.chunk_size]

end Metadata

namespace DownloadFile

inductive Pc
  | start
  /-- the request for the metadata has been sent -/
  | asked
  /-- in `DownloadFileFromServer` -/
  | running
  /-- the process has ended with "Remote file not found.", or for want of a table -/
  | notFound
  /-- the last check has been made, with "Downloaded file is corrupted." or without -/
  | checked (corrupted : Bool)
  deriving DecidableEq

/-- What `DownloadFile` has and finds: its arguments, whether the .mdata file and the local file
exist, and the rest in `run`. -/
structure State where
  pc : Pc
  file : Path
  chunk_size : Int
  hasMdata : Bool
  hasLocal : Bool
  run : Download.State

inductive Act
  /-- there is an .mdata file -/
  | find
  | request
  | response (mem : ClientMemory) (script : List (List ReadResult))
  | run (a : Download.Act)
  /-- the check, with the results of its reads and the memory of its digest -/
  | check (results : List ReadResult) (memory : Digest)

/-- What the first host is asked for, and what it has. -/
def State.asks (s : State) (content : List UInt8) : MetadataRequest :=
  ⟨s.file, content, s.chunk_size⟩

/-- What `DownloadMetadataFromServer` sends. -/
def State.request (s : State) : List UInt8 := (s.asks []).bytes

theorem State.request_eq (s : State) (content : List UInt8) :
    s.request = (s.asks content).bytes :=
  rfl

/-- A step of a server process. -/
def serves : Download.Act → Bool
  | .server _ _ _ => true
  | _ => false

/-- The worker opens the local file with O_CREAT. -/
def opens : Download.Act → Bool
  | .worker _ .open => true
  | _ => false

variable (lib : Md5Library)

def step (s : State) : Act → Option State
  | .find =>
    match s.pc, s.hasMdata with
    | .start, true => some { s with pc := .running }
    | _, _ => none
  | .request =>
    match s.pc, s.hasMdata with
    | .start, false =>
      if 0 < s.run.numClient then some { s with pc := .asked, run := s.run.send 0 s.request }
      else none
    | _, _ => none
  | .response mem script =>
    match s.pc with
    | .asked =>
      let received := receiveMetadata mem ⟨(s.run.conns 0).toClient, script, false⟩
      let run := s.run.setConn 0 { s.run.conns 0 with toClient := received.2.unread }
      match received.1 with
      | none => some { s with pc := .notFound, run }
      | some m => some { s with pc := .running, hasMdata := true, run := { run with mdata := m } }
    | _ => none
  | .run a =>
    if s.pc = .running ∨ serves a = true then
      (Download.step lib.md5Buffer s.run a).map fun run =>
        { s with run, hasLocal := s.hasLocal || opens a }
    else none
  | .check results memory =>
    if s.pc = .running ∧ s.run.pc = .ended then
      -- where the file cannot be opened the digest is what the memory held
      (if s.hasLocal then lib.md5File s.run.localFile results else some memory).map fun digest =>
        { s with pc := .checked (s.run.metadata.digest ≠ digest) }
    else none

def machine : Machine State Act := ⟨step lib⟩

/-- The steps one by one. -/
inductive Step (s : State) : Act → State → Prop
  | find : s.pc = .start → s.hasMdata = true → Step s .find { s with pc := .running }
  | request : s.pc = .start → s.hasMdata = false → 0 < s.run.numClient →
      Step s .request { s with pc := .asked, run := s.run.send 0 s.request }
  | notFound {mem script} : s.pc = .asked →
      (receiveMetadata mem ⟨(s.run.conns 0).toClient, script, false⟩).1 = none →
      Step s (.response mem script)
        { s with
          pc := .notFound
          run := s.run.setConn 0 { s.run.conns 0 with toClient :=
            (receiveMetadata mem ⟨(s.run.conns 0).toClient, script, false⟩).2.unread } }
  | response {mem script m} : s.pc = .asked →
      (receiveMetadata mem ⟨(s.run.conns 0).toClient, script, false⟩).1 = some m →
      Step s (.response mem script)
        { s with
          pc := .running
          hasMdata := true
          run := { s.run.setConn 0 { s.run.conns 0 with toClient :=
            (receiveMetadata mem ⟨(s.run.conns 0).toClient, script, false⟩).2.unread } with
              mdata := m } }
  | run {a t} : (s.pc = .running ∨ serves a = true) →
      (Download.machine lib.md5Buffer).step s.run a = some t →
      Step s (.run a) { s with run := t, hasLocal := s.hasLocal || opens a }
  | check {results memory digest} : s.pc = .running → s.run.pc = .ended →
      (if s.hasLocal then lib.md5File s.run.localFile results else some memory) = some digest →
      Step s (.check results memory)
        { s with pc := .checked (s.run.metadata.digest ≠ digest) }

variable {lib} {s s' : State} {a : Act}

theorem step_cases (h : (machine lib).step s a = some s') : Step lib s a s' := by
  cases a with
  | find =>
    simp only [machine, step] at h
    split at h
    · next hpc hmdata =>
      cases h
      exact .find hpc hmdata
    · cases h
  | request =>
    simp only [machine, step] at h
    split at h
    · next hpc hmdata =>
      split at h
      · next hnum =>
        cases h
        exact .request hpc hmdata hnum
      · cases h
    · cases h
  | response mem script =>
    simp only [machine, step] at h
    split at h
    · next hpc =>
      split at h
      · next hnone =>
        cases h
        exact .notFound hpc hnone
      · next m hm =>
        cases h
        exact .response hpc hm
    · cases h
  | run a =>
    simp only [machine, step] at h
    split at h
    · next hrunning =>
      obtain ⟨t, ht, rfl⟩ := Option.map_eq_some_iff.mp h
      exact .run hrunning ht
    · cases h
  | check results memory =>
    simp only [machine, step] at h
    split at h
    · next hended =>
      obtain ⟨digest, hdigest, rfl⟩ := Option.map_eq_some_iff.mp h
      exact .check hended.1 hended.2 hdigest
    · cases h

/-- `DownloadFile` begins. -/
structure Initial (s : State) : Prop where
  pc : s.pc = .start
  run : Download.Initial s.run

/-- The metadata of this file can be had, for this chunk size. -/
structure Fetchable (s : State) (content : List UInt8) : Prop where
  wellFormed : (s.asks content).taken.WellFormed
  chunk_size : 0 ≤ s.chunk_size

theorem Fetchable.sendable {content : List UInt8} (hf : Fetchable s content) :
    (s.asks content).Sendable where
  length := hf.wellFormed.length
  nul := hf.wellFormed.nul
  chunk_size := by
    have hnonneg := hf.chunk_size
    have hlt := hf.wellFormed.chunk_size.2
    show -2 ^ 63 ≤ s.chunk_size ∧ s.chunk_size < 2 ^ 63
    by_cases hdefault : s.chunk_size = 0
    · omega
    · simp only [MetadataRequest.taken, State.asks] at hlt
      omega

/-! ### The exchange on the first connection -/

/-- How far the exchange is, while nothing has come up short. -/
inductive Exchange (md5 : Md5) (content : List UInt8) (s : State) : Prop
  | silent : s.pc = .start → s.run.conns 0 = {} → (s.run.servers 0).pc = .rcvCmd →
      Exchange md5 content s
  | asked : s.pc = .asked → s.run.conns 0 = ⟨s.request, [], false⟩ →
      (s.run.servers 0).pc = .rcvCmd → Exchange md5 content s
  | answered {h} : s.pc = .asked →
      s.run.conns 0 = ⟨[], encodeInt 2 0 ++ h.writeMetadataHeader, false⟩ →
      (s.run.servers 0).pc = .rcvCmd → (s.asks content).taken.Describes md5 h →
      Exchange md5 content s

section Exchange
variable {md5 : Md5} {content : List UInt8} {t : Download.State}

/-- The first server takes a step. -/
theorem Exchange.server (hs : Exchange md5 content s) (hf : Fetchable s content)
    (hhost : s.run.hosts 0 s.file = some (.file content)) {script : List (List ReadResult)}
    {junk : Nat → UInt8} {b : Bool}
    (h : (Download.machine md5).step s.run (.server 0 script junk) = some t)
    (hintact : (t.conns 0).short = false) :
    Exchange md5 content { s with run := t, hasLocal := b } ∧
      s.pc = .asked ∧ s.run.conns 0 = ⟨s.request, [], false⟩ ∧ (t.conns 0).toServer = [] ∧
      (t.servers 0).pc = .rcvCmd ∧ t = { s.run with
        conns := update s.run.conns 0 (t.conns 0)
        servers := update s.run.servers 0 (t.servers 0) } := by
  cases Download.step_cases h with
  | @server _ _ _ r hr =>
    have hintact : r.wire.short = false := by simpa using hintact
    -- there is nothing to read before the request, and nothing after it
    have silent {out : List UInt8} (hconn : s.run.conns 0 = ⟨[], out, false⟩)
        (hpc : (s.run.servers 0).pc = .rcvCmd) : False := by
      rw [hconn] at hr
      cases hintact.symm.trans (Download.Source.step_short_of_nil hr)
    cases hs with
    | silent _ hconn hpc => exact (silent hconn hpc).elim
    | answered _ hconn hpc => exact (silent hconn hpc).elim
    | asked hasked hconn hpc =>
      rw [MhProtoServer.step, hpc, hconn] at hr
      obtain rfl := Option.some.inj hr
      obtain ⟨header, hdescribes, hserver, hdir, hunread, hout⟩ :=
        rcvCmd_metadata (r := s.asks content) hf.sendable rfl hhost hintact
      refine ⟨.answered (h := header) hasked ?_ ?_ hdescribes, hasked, hconn, ?_, ?_, ?_⟩
      · simp [hunread, hout, hintact, hconn]
      · simpa using hserver
      · simpa using hunread
      · simpa using hserver
      · simp only [update_self]
        rw [update_eq_of_eq hdir.symm]

/-- The client reads the answer. -/
theorem Exchange.response (hs : Exchange md5 content s) (hf : Fetchable s content)
    (hasked : s.pc = .asked) {mem : ClientMemory} {script : List (List ReadResult)}
    (hintact : (receiveMetadata mem ⟨(s.run.conns 0).toClient, script, false⟩).2.short = false) :
    ∃ h, (s.asks content).taken.Describes md5 h ∧ s.run.conns 0 =
        ⟨[], encodeInt 2 0 ++ h.writeMetadataHeader, false⟩ ∧
      (s.run.servers 0).pc = .rcvCmd ∧
      (receiveMetadata mem ⟨(s.run.conns 0).toClient, script, false⟩).1 =
        some (h.fresh mem.inUse) ∧
      (receiveMetadata mem ⟨(s.run.conns 0).toClient, script, false⟩).2.unread = [] := by
  cases hs with
  | silent hstart => cases hasked.symm.trans hstart
  | asked _ hconn =>
    rw [hconn] at hintact
    rw [receiveMetadata_short] at hintact
    cases hintact
  | @answered header _ hconn hpc hdescribes =>
    obtain ⟨hsome, hunread⟩ :=
      receiveMetadata_of_intact (hdescribes.inRange hf.wellFormed).1
        (hdescribes.table hf.wellFormed) (by rw [hconn]) hintact
    exact ⟨header, hdescribes, hconn, hpc, hsome, hunread⟩

end Exchange

/-! ### The last check -/

/-- Up to the metadata nothing comes up short on the first connection, whose host has the file,
and in the end the local file can be read. -/
def Regular (content : List UInt8) (s : State) : Act → State → Prop
  | .run (.server 0 _ _), s' => s.pc = .start ∨ s.pc = .asked →
      s.run.hosts 0 s.file = some (.file content) ∧ (s'.run.conns 0).short = false
  | .response mem script, _ =>
      (receiveMetadata mem ⟨(s.run.conns 0).toClient, script, false⟩).2.short = false
  | .check results _, _ => ∀ r ∈ results, r.Piece
  | _, _ => True

/-- The MD5 of the file, in the .mdata file and in memory. -/
structure Digested (digest : Digest) (t : Download.State) : Prop where
  mdata : t.mdata.digest = digest
  metadata : t.pc = .start ∨ t.pc = .killWait ∨ t.metadata.digest = digest

theorem digested_step {md5 : Md5} {digest : Digest} {t t' : Download.State} {a : Download.Act}
    (hs : Digested digest t) (h : (Download.machine md5).step t a = some t') :
    Digested digest t' := by
  obtain ⟨hmdata, hmetadata⟩ := hs
  have loaded (hstart : t.pc ≠ .start) (hwait : t.pc ≠ .killWait) : t.metadata.digest = digest :=
    (hmetadata.resolve_left hstart).resolve_left hwait
  cases Download.step_cases h with
  | load | wait | killLoad => exact ⟨hmdata, .inr (.inr hmdata)⟩
  | save hpc | finish hpc | killSave hpc =>
    have hdigest := loaded (by simp [hpc]) (by simp [hpc])
    exact ⟨hdigest, .inr (.inr hdigest)⟩
  | refuse hpc | fork hpc | forkFails hpc =>
    exact ⟨hmdata, .inr (.inr (loaded (by simp [hpc]) (by simp [hpc])))⟩
  | sigint => exact ⟨hmdata, .inr (.inl rfl)⟩
  | receive =>
    obtain ⟨wk, toClient, he, -⟩ := Download.receive_cases t _ _ _
    rw [he]
    exact ⟨hmdata, hmetadata⟩
  | _ => exact ⟨hmdata, hmetadata⟩

/-- What `DownloadFile` knows of the MD5 of the file. -/
inductive Kept (lib : Md5Library) (content : List UInt8) (s : State) : Prop
  | exchange : Exchange lib.md5Buffer content s → Fetchable s content → s.run.pc = .start →
      (s.hasMdata = true → s.run.mdata.digest = lib.md5Buffer content) → Kept lib content s
  | running : s.pc = .running → Digested (lib.md5Buffer content) s.run → Kept lib content s
  | notFound : s.pc = .notFound → Kept lib content s
  | checked {corrupted} : s.pc = .checked corrupted →
      (s.hasLocal = true →
        (corrupted = true ↔ lib.md5Buffer s.run.localFile ≠ lib.md5Buffer content)) →
      Kept lib content s

theorem Exchange.pc {md5 : Md5} {content : List UInt8} (hs : Exchange md5 content s) :
    s.pc = .start ∨ s.pc = .asked := by
  cases hs with
  | silent hpc => exact .inl hpc
  | asked hpc | answered hpc => exact .inr hpc

/-- The steps of a server show on its own connection only. -/
theorem serves_cases {md5 : Md5} {t t' : Download.State} {a : Download.Act} (ha : serves a = true)
    (h : (Download.machine md5).step t a = some t') : ∃ w conn srv dir, t' =
      { t with
        conns := update t.conns w conn
        servers := update t.servers w srv
        hosts := update t.hosts w dir } ∧ (w = 0 → ∃ script junk, a = .server 0 script junk) := by
  cases a with
  | parent | worker => cases ha
  | server w script junk =>
    cases Download.step_cases h with
    | server hr =>
      refine ⟨w, _, _, _, rfl, ?_⟩
      rintro rfl
      exact ⟨script, junk, rfl⟩

theorem kept_step {content : List UInt8} (hlib : lib.Lawful) (hs : Kept lib content s)
    (ha : Regular content s a s') (h : (machine lib).step s a = some s') : Kept lib content s' := by
  cases step_cases h with
  | find hpc hmdata =>
    cases hs with
    | exchange _ _ hstart hdigest => exact .running rfl ⟨hdigest hmdata, .inl hstart⟩
    | running hpc' | notFound hpc' | checked hpc' => cases hpc.symm.trans hpc'
  | request hpc hmdata =>
    cases hs with
    | exchange hexchange hf hstart hdigest =>
      cases hexchange with
      | silent _ hconn hserver =>
        refine .exchange (.asked rfl ?_ hserver) ⟨hf.wellFormed, hf.chunk_size⟩ hstart ?_
        · simp [Download.State.send, Download.State.setConn, hconn, State.request, State.asks]
        · exact hdigest
      | asked hasked | answered hasked => cases hpc.symm.trans hasked
    | running hpc' | notFound hpc' | checked hpc' => cases hpc.symm.trans hpc'
  | notFound => exact .notFound rfl
  | @response mem script m hpc hm =>
    cases hs with
    | exchange hexchange hf hstart =>
      obtain ⟨header, hdescribes, -, -, hsome, -⟩ := hexchange.response hf hpc ha
      obtain rfl := Option.some.inj (hm.symm.trans hsome)
      exact .running rfl ⟨hdescribes.digest, .inl hstart⟩
    | running hpc' | notFound hpc' | checked hpc' => cases hpc.symm.trans hpc'
  | @run a t hrunning ht =>
    cases hs with
    | running hpc hdigested => exact .running hpc (digested_step hdigested ht)
    | notFound hpc => exact .notFound hpc
    | checked hpc hverdict =>
      have hserves : serves a = true := hrunning.resolve_left (by rw [hpc]; simp)
      obtain ⟨w, conn, srv, dir, rfl, -⟩ := serves_cases hserves ht
      have hopens : opens a = false := by
        cases a with
        | server => rfl
        | parent | worker => cases hserves
      refine .checked hpc ?_
      simpa [hopens] using hverdict
    | exchange hexchange hf hstart hdigest =>
      have hserves : serves a = true := hrunning.resolve_left fun hpc => by
        rcases hexchange.pc with hpc' | hpc' <;> cases hpc.symm.trans hpc'
      obtain ⟨w, conn, srv, dir, he, hfirst⟩ := serves_cases hserves ht
      by_cases hw : w = 0
      · obtain ⟨script, junk, rfl⟩ := hfirst hw
        obtain ⟨hhost, hintact⟩ := ha hexchange.pc
        obtain ⟨hexchange', -⟩ := hexchange.server (b := s.hasLocal || false) hf hhost ht hintact
        subst he
        exact .exchange hexchange' ⟨hf.wellFormed, hf.chunk_size⟩ hstart hdigest
      · subst he
        refine .exchange ?_ ⟨hf.wellFormed, hf.chunk_size⟩ hstart hdigest
        have hconn : update s.run.conns w conn 0 = s.run.conns 0 := update_of_ne _ _ (Ne.symm hw)
        have hserver : update s.run.servers w srv 0 = s.run.servers 0 :=
          update_of_ne _ _ (Ne.symm hw)
        cases hexchange with
        | silent hpc hc hsrv => exact .silent hpc (hconn.trans hc) (by rw [← hsrv, ← hserver])
        | asked hpc hc hsrv => exact .asked hpc (hconn.trans hc) (by rw [← hsrv, ← hserver])
        | answered hpc hc hsrv hd =>
          exact .answered hpc (hconn.trans hc) (by rw [← hsrv, ← hserver]) hd
  | @check results memory digest hpc hended hdigest =>
    cases hs with
    | exchange hexchange => rcases hexchange.pc with hpc' | hpc' <;> cases hpc.symm.trans hpc'
    | notFound hpc' | checked hpc' => cases hpc.symm.trans hpc'
    | running _ hdigested =>
      have hmetadata : s.run.metadata.digest = lib.md5Buffer content :=
        (hdigested.metadata.resolve_left (by simp [hended])).resolve_left (by simp [hended])
      refine .checked rfl fun hlocal => ?_
      have hlocal : s.hasLocal = true := hlocal
      rw [hlocal, if_pos rfl] at hdigest
      rw [Md5Library.md5File_of_pieces hlib ha hdigest, hmetadata, decide_eq_true_eq]
      exact ne_comm

theorem Kept.verdict {content : List UInt8} {corrupted : Bool} (hs : Kept lib content s)
    (hpc : s.pc = .checked corrupted) (hlocal : s.hasLocal = true) :
    corrupted = true ↔ lib.md5Buffer s.run.localFile ≠ lib.md5Buffer content := by
  cases hs with
  | exchange hexchange => rcases hexchange.pc with hpc' | hpc' <;> cases hpc.symm.trans hpc'
  | running hpc' | notFound hpc' => cases hpc.symm.trans hpc'
  | checked hpc' hverdict =>
    obtain rfl := Pc.checked.inj (hpc.symm.trans hpc')
    exact hverdict hlocal

/-- **The last check.**  The metadata of a file with fewer than 2^26 chunks, asked for with a
chunk size that is not negative, has come intact, or is there from before; after that anything
may go wrong: connections fail, servers answer what they were not asked, processes are killed.
Where `DownloadFile` comes to its end, and the local file is there and can be read, it says
"Downloaded file is corrupted." exactly if the MD5 of the local file is not that of the file on
the server; so if no other file has the same MD5 it says nothing exactly if the local file is
the file. -/
theorem verdict_iff (hlib : lib.Lawful) {content : List UInt8} {s₀ : State} {as : List Act}
    {corrupted : Bool} (h₀ : Initial s₀) (hf : Fetchable s₀ content)
    (hmdata : s₀.hasMdata = true → s₀.run.mdata.digest = lib.md5Buffer content)
    (hregular : (machine lib).Along (Regular content) s₀ as)
    (hr : (machine lib).run s₀ as = some s) (hpc : s.pc = .checked corrupted)
    (hlocal : s.hasLocal = true) :
    (corrupted = true ↔ lib.md5Buffer s.run.localFile ≠ lib.md5Buffer content) ∧
      ((∀ g, lib.md5Buffer g = lib.md5Buffer content → g = content) →
        (corrupted = false ↔ s.run.localFile = content)) := by
  have hkept : Kept lib content s := Machine.run_invariant (fun _ _ _ => kept_step hlib)
    (.exchange (.silent h₀.pc (h₀.run.conns 0) (h₀.run.servers 0)) hf h₀.run.pc hmdata) hregular hr
  have hverdict := hkept.verdict hpc hlocal
  refine ⟨hverdict, fun htells => ?_⟩
  rw [← Bool.not_eq_true, hverdict, not_not]
  constructor
  · exact htells _
  · intro he
    rw [he]

instance (content : List UInt8) (s : State) (a : Act) (s' : State) :
    Decidable (Regular content s a s') :=
  match a with
  | .run (.server 0 _ _) => inferInstanceAs (Decidable (s.pc = .start ∨ s.pc = .asked →
      s.run.hosts 0 s.file = some (.file content) ∧ (s'.run.conns 0).short = false))
  | .response mem script => inferInstanceAs (Decidable
      ((receiveMetadata mem ⟨(s.run.conns 0).toClient, script, false⟩).2.short = false))
  | .check results _ => inferInstanceAs (Decidable (∀ r ∈ results, r.Piece))
  | .find | .request | .run (.parent _) | .run (.worker _ _) | .run (.server (_ + 1) _ _) =>
    inferInstanceAs (Decidable True)

def sampleLibrary : Md5Library where
  Ctx := List UInt8
  init := []
  update := (· ++ ·)
  final := Download.sampleMd5

theorem lawful_sampleLibrary : sampleLibrary.Lawful where
  update_nil := List.append_nil
  update_append := List.append_assoc

/-- A download of two chunks from one host; no chunk is there if `hasMdata` does not hold. -/
def sampleDownload (hasMdata : Bool) (localFile : List UInt8) : State where
  pc := .start
  file := [97]
  chunk_size := 1
  hasMdata
  hasLocal := hasMdata
  run := .begin 1 Download.sampleCompleted localFile fun p =>
    if p = [97] then some (.file [1, 2]) else none

/-- Nothing is left to fetch. -/
def sampleAgain : List Act :=
  let as : List Download.Act :=
    Download.sampleOpen ++ Download.leave 0 ++ [.parent .wait, .parent .finish]
  .find :: as.map .run ++ [.check [.count 1, .count 5] (Buffer.zero _)]

/-- A byte of the local file has been lost. -/
theorem verdict_iff_sample : ∃ s,
    (machine sampleLibrary).run (sampleDownload true [1]) sampleAgain = some s ∧
    s.pc = .checked true ∧ s.run.localFile ≠ [1, 2] := by
  obtain ⟨s, hs, hpc, hlocal⟩ : ∃ s,
      (machine sampleLibrary).run (sampleDownload true [1]) sampleAgain = some s ∧
        s.pc = .checked true ∧ s.hasLocal = true := Machine.exists_run (by decide +kernel)
  have hfetchable : Fetchable (sampleDownload true [1]) [1, 2] :=
    ⟨⟨by decide, by decide, by decide, by decide, by decide⟩, by decide⟩
  obtain ⟨hverdict, -⟩ := verdict_iff lawful_sampleLibrary ⟨rfl, Download.initial_begin _ _ _ _⟩
    hfetchable (fun _ => by decide +kernel) (by decide +kernel) hs hpc hlocal
  refine ⟨s, hs, hpc, fun he => ?_⟩
  exact hverdict.mp rfl (by rw [he])

/-! ### Over blocking connections -/

/-- No connection fails, every `so_read` waits for all its bytes, and the local file can be
read. -/
def blocking (s : State) : Act → State → Prop
  | .run a, s' => Download.blocking s.run a s'.run = true
  | .response mem script, _ =>
      (receiveMetadata mem ⟨(s.run.conns 0).toClient, script, false⟩).2.short = false
  | .check results _, _ => ∀ r ∈ results, r.Piece
  | _, _ => True

/-- Nobody interrupts mhclient, and it can fork. -/
def Act.ordinary : Act → Bool
  | run a => a.ordinary
  | _ => true

/-- A step of mhclient, its workers or one of their servers. -/
def Act.within (n : Nat) : Act → Bool
  | run a => a.within n
  | _ => true

/-- Some process can take a step. -/
def Moves (lib : Md5Library) (s : State) : Prop :=
  ∃ a s', a.within s.run.numClient = true ∧ a.ordinary = true ∧
    (machine lib).step s a = some s' ∧ blocking s a s'

/-- The file can be transferred in these chunks. -/
structure Transferable (s : State) (content : List UInt8) : Prop extends Fetchable s content where
  le_max : (s.asks content).taken.chunk_size ≤ maxChunkSize
  requests : chunkCount content.length (s.asks content).taken.chunk_size ≤ 10 ^ 6

/-- The file in its chunks, with the name that the metadata gives it. -/
def Transferable.source {content : List UInt8} (ht : Transferable s content) (h : Header) :
    Download.Source where
  content := content
  chunkSize := (s.asks content).taken.chunk_size.toNat
  one_le := by
    have := ht.wellFormed.chunk_size.1
    omega
  fileFull := h.fileFull
  le_max := by
    have := ht.le_max
    omega
  requests := by
    rw [Int.toNat_of_nonneg (by have := ht.wellFormed.chunk_size.1; omega)]
    exact ht.requests

theorem Transferable.header {md5 : Md5} {content : List UInt8} (ht : Transferable s content)
    {h : Header} (hd : (s.asks content).taken.Describes md5 h) :
    (ht.source h).header md5 = h := by
  have hnonneg := ht.wellFormed.chunk_size.1
  obtain ⟨digest, fileSize, fileFull, chunkSize, chunks⟩ := h
  obtain ⟨-, hfileSize, hchunkSize, hchunks, hdigest⟩ := hd
  dsimp only at hfileSize hchunkSize hchunks hdigest
  subst hfileSize hchunkSize hchunks hdigest
  simp only [Download.Source.header, createHeader, Transferable.source]
  rw [Int.toNat_of_nonneg (by omega)]
  rfl

/-- Nothing has been used but the first connection. -/
structure Untouched (s₀ s : State) : Prop where
  pc : s.run.pc = .start
  lock : s.run.lock = none
  kill_proc : s.run.kill_proc = false
  workers : ∀ w, (s.run.workers w).pc = .notForked
  others : ∀ w, w ≠ 0 → s.run.conns w = {}
  servers : ∀ w, (s.run.servers w).pc = .rcvCmd
  numClient : s.run.numClient = s₀.run.numClient
  localFile : s.run.localFile = s₀.run.localFile
  hosts : s.run.hosts = s₀.run.hosts
  file : s.file = s₀.file

/-- The download `bs` has begun in `t`, with new metadata for the file. -/
structure Downloading (lib : Md5Library) (content : List UInt8) (s₀ s : State)
    (src : Download.Source) (t : Download.State) (bs : List Download.Act) : Prop where
  source : src.content = content ∧ src.path = s₀.file ∧
    (src.chunkSize : Int) = (s₀.asks content).taken.chunk_size
  initial : Download.Initial t
  mdata : ∃ inUse, t.mdata = (src.header lib.md5Buffer).fresh inUse
  localFile : t.localFile = s₀.run.localFile
  numClient : t.numClient = s₀.run.numClient
  hosts : t.hosts = s₀.run.hosts
  run : (Download.machine lib.md5Buffer).run t bs = some s.run
  blocking : (Download.machine lib.md5Buffer).Along
    (fun s a s' => Download.blocking s a s' = true) t bs
  ordinary : ∀ a ∈ bs, a.ordinary = true
  hasLocal : ∀ w, (s.run.workers w).pc.engaged = true → s.hasLocal = true

/-- What the steps `as` have come to. -/
inductive Stage (lib : Md5Library) (content : List UInt8) (s₀ : State) (as : List Act) (s : State) :
    Prop
  | exchange : Exchange lib.md5Buffer content s → Transferable s content → s.hasMdata = false →
      s.chunk_size = s₀.chunk_size → Untouched s₀ s → (s.pc = .start → as = []) →
      as.length ≤ (if (s.run.conns 0).toServer = [] then 2 else 1) → Stage lib content s₀ as s
  | download {src t bs} : Downloading lib content s₀ s src t bs →
      (s.pc = .running ∨ (∃ corrupted, s.pc = .checked corrupted) ∧ s.run.pc = .ended) →
      as.countP (Act.within s₀.run.numClient) ≤ bs.countP (Download.Act.within s₀.run.numClient) +
        (if s.pc = .running then 3 else 4) → Stage lib content s₀ as s

section Blocking
variable {content : List UInt8} {s₀ : State} {as : List Act}

/-- A worker gets as far as its loop by opening the local file. -/
theorem engaged_of_step {md5 : Md5} {t t' : Download.State} {a : Download.Act}
    (h : (Download.machine md5).step t a = some t') {w : Nat}
    (hw : (t'.workers w).pc.engaged = true) :
    (t.workers w).pc.engaged = true ∨ opens a = true := by
  have moved {v : Nat} {wk : Download.Worker}
      (hwk : wk.pc.engaged = true → (t.workers v).pc.engaged = true)
      (hw : (update t.workers v wk w).pc.engaged = true) : (t.workers w).pc.engaged = true := by
    by_cases hv : w = v
    · rw [hv, update_self] at hw
      rw [hv]
      exact hwk hw
    · rwa [update_of_ne _ _ hv] at hw
  cases Download.step_cases h with
  | «open» => exact .inr rfl
  | fork | sigpipeStart => exact .inl (moved (fun he => by cases he) hw)
  | @receive v k script hv =>
    obtain ⟨wk, toClient, he, -⟩ := Download.receive_cases t v k script
    rw [he] at hw
    exact .inl (moved (fun _ => by rw [hv]; rfl) hw)
  | lockClaim _ hv | lockUpdate _ hv | loadClaim hv | loadUpdate hv | claim hv | giveUp hv
  | releaseClaim hv | releaseUpdate hv | request hv | sigpipeRequest hv | store hv | update hv
  | test hv => exact .inl (moved (fun _ => by rw [hv]; rfl) hw)
  | _ => exact .inl hw

theorem countP_snoc (as : List Act) (a : Act) (n : Nat) :
    (as ++ [a]).countP (Act.within n) =
      as.countP (Act.within n) + (if a.within n = true then 1 else 0) := by
  rw [List.countP_append, List.countP_singleton]

/-- The connections are as in `s₀` but for the first one and its server. -/
theorem Untouched.first (hu : Untouched s₀ s) {t : Download.State} {conn : Download.Conn}
    {srv : MhProtoServer}
    (he : t = { s.run with
      conns := update s.run.conns 0 conn, servers := update s.run.servers 0 srv })
    (hpc : srv.pc = .rcvCmd) (hs' : s'.run = t) (hfile : s'.file = s.file) : Untouched s₀ s' := by
  subst he
  constructor
  case others =>
    intro w hw
    rw [hs']
    exact (update_of_ne _ _ hw).trans (hu.others w hw)
  case servers =>
    rw [hs']
    exact forall_update (Q := fun srv : MhProtoServer => srv.pc = .rcvCmd) hpc hu.servers
  case file => exact hfile.trans hu.file
  all_goals rw [hs']
  · exact hu.pc
  · exact hu.lock
  · exact hu.kill_proc
  · exact hu.workers
  · exact hu.numClient
  · exact hu.localFile
  · exact hu.hosts

/-- The download begins with the metadata that has come. -/
theorem Untouched.begins (hu : Untouched s₀ s) (ht : Transferable s content)
    (hsize : s.chunk_size = s₀.chunk_size) {header : Header} {inUse : UInt8} {conn : Download.Conn}
    (hd : (s.asks content).taken.Describes lib.md5Buffer header) (hconn : conn = {}) {pc : Pc} :
    Downloading lib content s₀
      { s with
        pc
        hasMdata := true
        run := { s.run.setConn 0 conn with mdata := header.fresh inUse } }
      (ht.source header) { s.run.setConn 0 conn with mdata := header.fresh inUse } [] where
  source := by
    refine ⟨rfl, hd.file_path.trans hu.file, ?_⟩
    have hone := ht.wellFormed.chunk_size.1
    show ((s.asks content).taken.chunk_size.toNat : Int) = _
    rw [Int.toNat_of_nonneg (by omega)]
    show (if s.chunk_size = 0 then defaultChunkSize else s.chunk_size) = _
    rw [hsize]
    rfl
  initial := by
    refine ⟨hu.pc, hu.lock, hu.kill_proc, hu.workers, fun w => ?_, hu.servers⟩
    show update s.run.conns 0 conn w = {}
    by_cases hw : w = 0
    · rw [hw, update_self, hconn]
    · rw [update_of_ne _ _ hw, hu.others w hw]
  mdata := ⟨inUse, by rw [ht.header hd]⟩
  localFile := hu.localFile
  numClient := hu.numClient
  hosts := hu.hosts
  run := rfl
  blocking := trivial
  ordinary := fun b hb => by cases hb
  hasLocal := fun w hw => by
    have hnone : (s.run.workers w).pc.engaged = true := hw
    rw [hu.workers w] at hnone
    cases hnone

/-- The download goes on. -/
theorem Downloading.step {src : Download.Source} {t t' : Download.State} {bs : List Download.Act}
    {b : Download.Act} (hd : Downloading lib content s₀ s src t bs)
    (ht : (Download.machine lib.md5Buffer).step s.run b = some t')
    (hblocking : Download.blocking s.run b t' = true) (hord : b.ordinary = true) :
    Downloading lib content s₀ { s with run := t', hasLocal := s.hasLocal || opens b } src t
      (bs ++ [b]) where
  source := hd.source
  initial := hd.initial
  mdata := hd.mdata
  localFile := hd.localFile
  numClient := hd.numClient
  hosts := hd.hosts
  run := Machine.run_snoc hd.run ht
  blocking := hd.blocking.snoc hd.run ht hblocking
  ordinary := by
    intro c hc
    rcases List.mem_append.mp hc with hc | hc
    · exact hd.ordinary c hc
    · rw [List.mem_singleton.mp hc]
      exact hord
  hasLocal := by
    intro w hw
    show (s.hasLocal || opens b) = true
    rcases engaged_of_step ht hw with he | he
    · rw [hd.hasLocal w he, Bool.true_or]
    · rw [he, Bool.or_true]

/-- While the exchange goes on, a server step is the answer. -/
theorem Stage.served (hexchange : Exchange lib.md5Buffer content s) (ht : Transferable s content)
    (hnone : s.hasMdata = false) (hsize : s.chunk_size = s₀.chunk_size) (hu : Untouched s₀ s)
    (hlength : as.length ≤ (if (s.run.conns 0).toServer = [] then 2 else 1))
    (hhost : s₀.run.hosts 0 s₀.file = some (.file content)) {w : Nat}
    {script : List (List ReadResult)} {junk : Nat → UInt8} {t : Download.State} {b : Bool}
    (h : (Download.machine lib.md5Buffer).step s.run (.server w script junk) = some t)
    (hintact : (t.conns w).short = false) :
    Stage lib content s₀ (as ++ [.run (.server w script junk)])
      { s with run := t, hasLocal := b } := by
  by_cases hw : w = 0
  · subst hw
    obtain ⟨hexchange', hasked, hconn, hserver, hpc, he⟩ := hexchange.server ht.toFetchable
      (by rw [hu.hosts, hu.file]; exact hhost) h hintact
    have ht' : Transferable { s with run := t, hasLocal := b } content :=
      ⟨⟨ht.wellFormed, ht.chunk_size⟩, ht.le_max, ht.requests⟩
    refine .exchange hexchange' ht' hnone hsize (hu.first he hpc rfl rfl)
      (fun hpc => by cases hasked.symm.trans hpc) ?_
    have hsent : (s.run.conns 0).toServer ≠ [] := by
      rw [hconn]
      simp [State.request, MetadataRequest.bytes]
    rw [if_neg hsent] at hlength
    rw [if_pos hserver, List.length_append, List.length_singleton]
    omega
  · -- nothing has been sent to the other servers
    cases Download.step_cases h with
    | @server _ _ _ r hr =>
      rw [hu.others w hw] at hr
      have hshort := Download.Source.step_short_of_nil hr
      simp [hshort] at hintact

theorem stage_step (hs : Stage lib content s₀ as s)
    (hhost : s₀.run.hosts 0 s₀.file = some (.file content)) (ha : blocking s a s')
    (hord : a.ordinary = true) (h : (machine lib).step s a = some s') :
    Stage lib content s₀ (as ++ [a]) s' := by
  have hle : as.countP (Act.within s₀.run.numClient) ≤ as.length := List.countP_le_length
  cases hs with
  | exchange hexchange ht hnone hsize hu has hlength =>
    have hrunning : s.pc ≠ .running := by
      rcases hexchange.pc with hpc | hpc <;> simp [hpc]
    cases step_cases h with
    | find hpc hmdata => cases hmdata.symm.trans hnone
    | check hpc => exact absurd hpc hrunning
    | request hpc =>
      cases hexchange with
      | asked hasked | answered hasked => cases hpc.symm.trans hasked
      | silent _ hconn hserver =>
        have hsend : s.run.send 0 s.request = { s.run with
            conns := update s.run.conns 0 ⟨s.request, [], false⟩
            servers := update s.run.servers 0 (s.run.servers 0) } := by
          simp [Download.State.send, Download.State.setConn, hconn, update_eq_of_eq]
        refine .exchange (.asked rfl ?_ hserver) ⟨⟨ht.wellFormed, ht.chunk_size⟩, ht.le_max,
          ht.requests⟩ hnone hsize (hu.first hsend hserver rfl rfl) (fun hpc => by cases hpc) ?_
        · simp [Download.State.send, Download.State.setConn, hconn, State.request, State.asks]
        · rw [has hpc]
          show 1 ≤ _
          split <;> omega
    | notFound hpc hnotFound =>
      obtain ⟨header, -, -, -, hsome, -⟩ := hexchange.response ht.toFetchable hpc ha
      cases hnotFound.symm.trans hsome
    | @response mem script m hpc hm =>
      obtain ⟨header, hd, hconn, hserver, hsome, hunread⟩ :=
        hexchange.response ht.toFetchable hpc ha
      obtain rfl := Option.some.inj (hm.symm.trans hsome)
      refine .download (hu.begins ht hsize hd ?_) (.inl rfl) ?_
      · rw [hunread, hconn]
      · rw [hconn, if_pos rfl] at hlength
        rw [countP_snoc]
        simp only [List.countP_nil, if_true]
        split <;> omega
    | @run b t hserves hb =>
      cases b with
      | parent | worker => cases hserves.resolve_left hrunning
      | server w script junk =>
        exact .served hexchange ht hnone hsize hu hlength hhost hb
          (by simpa [blocking, Download.blocking] using ha)
  | @download src t₀ bs hd hpc hlength =>
    have hstart : s.pc ≠ .start := by
      rcases hpc with hpc | ⟨⟨c, hpc⟩, -⟩ <;> simp [hpc]
    have hasked : s.pc ≠ .asked := by
      rcases hpc with hpc | ⟨⟨c, hpc⟩, -⟩ <;> simp [hpc]
    cases step_cases h with
    | find hpc | request hpc => exact absurd hpc hstart
    | notFound hpc | response hpc => exact absurd hpc hasked
    | @run b t hserves hb =>
      refine .download (hd.step hb ha hord) ?_ ?_
      · rcases hpc with hpc | ⟨hchecked, hended⟩
        · exact .inl hpc
        · obtain ⟨c, hc⟩ := hchecked
          obtain ⟨w, conn, srv, dir, rfl, -⟩ :=
            serves_cases (hserves.resolve_left (by rw [hc]; simp)) hb
          exact .inr ⟨⟨c, hc⟩, hended⟩
      · rw [countP_snoc, List.countP_append, List.countP_singleton]
        show _ + (if b.within _ = true then 1 else 0) ≤ _ + (if s.pc = .running then 3 else 4)
        omega
    | check hrunning hended =>
      refine .download { hd with } (.inr ⟨⟨_, rfl⟩, hended⟩) ?_
      rw [if_pos hrunning] at hlength
      rw [countP_snoc]
      show _ ≤ _ + 4
      split <;> omega

theorem regular_of_blocking (hs : Stage lib content s₀ as s)
    (hhost : s₀.run.hosts 0 s₀.file = some (.file content)) (ha : blocking s a s') :
    Regular content s a s' := by
  cases a with
  | run a =>
    cases a with
    | parent | worker => trivial
    | server w script junk =>
      cases w with
      | succ w => trivial
      | zero =>
        intro hpc
        refine ⟨?_, by simpa [blocking, Download.blocking] using ha⟩
        cases hs with
        | exchange _ _ _ _ hu => rw [hu.hosts, hu.file, hhost]
        | download _ hpc' =>
          rcases hpc' with hpc' | ⟨⟨c, hpc'⟩, -⟩ <;> rcases hpc with hpc | hpc <;>
            cases hpc.symm.trans hpc'
  | _ => exact ha

/-- The metadata can be had. -/
theorem Exchange.moves (hs : Exchange lib.md5Buffer content s) (ht : Transferable s content)
    (hmdata : s.hasMdata = false) (hnum : 0 < s.run.numClient) : Moves lib s := by
  cases hs with
  | silent hpc =>
    refine ⟨.request, { s with pc := .asked, run := s.run.send 0 s.request }, rfl, rfl, ?_,
      trivial⟩
    simp [machine, step, hpc, hmdata, hnum]
  | asked hpc hconn hserver =>
    obtain ⟨r, hr, hshort⟩ : ∃ r, (s.run.servers 0).step lib.md5Buffer (fun _ => 0)
        (s.run.hosts 0) ⟨(s.run.conns 0).toServer, [], (s.run.conns 0).short⟩ = some r ∧
          r.wire.short = false := by
      rw [MhProtoServer.step, hserver, hconn, s.request_eq content]
      exact ⟨_, rfl, rcvCmd_metadata_clean ht.sendable⟩
    obtain ⟨t, ht, hshort⟩ : ∃ t, Download.step lib.md5Buffer s.run
        (.server 0 [] fun _ => 0) = some t ∧ (t.conns 0).short = false :=
      ⟨_, Option.map_eq_some_iff.mpr ⟨r, hr, rfl⟩, by simp [hshort]⟩
    refine ⟨.run (.server 0 [] fun _ => 0), { s with run := t, hasLocal := s.hasLocal || false },
      decide_eq_true hnum, rfl, ?_, by simp [blocking, Download.blocking, hshort]⟩
    simp [machine, step, serves, opens, ht]
  | @answered header hpc hconn _ hd =>
    let mem : ClientMemory := ⟨Buffer.zero _, header, 0⟩
    obtain ⟨w, hdownload, -, hshort⟩ := downloadMetadata_clean
      (hd.inRange ht.wellFormed).1 (hd.table ht.wellFormed) mem []
      (fun _ h => (by cases h) : Pieces [])
    rw [downloadMetadataFromServer_eq] at hdownload
    obtain ⟨m, hm, hw⟩ := Option.map_eq_some_iff.mp hdownload
    refine ⟨.response mem [],
      { s with
        pc := .running
        hasMdata := true
        run := { s.run.setConn 0 { s.run.conns 0 with toClient :=
            (receiveMetadata mem ⟨(s.run.conns 0).toClient, [], false⟩).2.unread } with
          mdata := m } },
      rfl, rfl, ?_, ?_⟩
    · simp only [machine, step, hpc, hconn, hm]
    · simp only [blocking, hconn]
      rw [(Prod.mk.inj hw).2]
      exact hshort

variable {src : Download.Source} {t : Download.State} {bs : List Download.Act}

theorem Downloading.good (hd : Downloading lib content s₀ s src t bs) :
    src.Good lib.md5Buffer t.localFile t.mdata := by
  obtain ⟨inUse, hmdata⟩ := hd.mdata
  rw [hmdata]
  exact Download.good_fresh src lib.md5Buffer _ inUse

theorem Downloading.hosted (hd : Downloading lib content s₀ s src t bs)
    (hhosts : ∀ w < s₀.run.numClient, s₀.run.hosts w s₀.file = some (.file content)) :
    src.Hosted t := by
  intro w hw
  obtain ⟨hcontent, hpath, -⟩ := hd.source
  rw [hd.numClient] at hw
  rw [hd.hosts, hpath, hcontent]
  exact hhosts w hw

/-- What a download has left that has come to its end. -/
theorem Downloading.complete (hd : Downloading lib content s₀ s src t bs)
    (hclean : src.CleanRun lib.md5Buffer t.mdata t.localFile t bs s.run)
    (hexited : ∃ w, (s.run.workers w).pc = .exited) :
    (∀ c ∈ s.run.mdata.chunkInfo, c.status = .chOk) ∧
      s.run.localFile.take content.length = content ∧ s.hasLocal = true ∧
      (s₀.run.localFile.length ≤ content.length → s.run.localFile = content) := by
  obtain ⟨w, hexited⟩ := hexited
  obtain ⟨inUse, hmdata⟩ := hd.mdata
  have hok : ∀ c ∈ s.run.mdata.chunkInfo, c.status = .chOk := by
    refine hclean.all_ok (fun k c hc => .inr ?_) ⟨w, by simp [hexited]⟩
    rw [hmdata] at hc
    rw [Download.mem_pendingChunks, hmdata]
    exact ⟨c, hc, .inl (status_of_mem_initControlData (List.mem_of_getElem? hc))⟩
  have hfinishes : src.Finishes lib.md5Buffer t bs s.run :=
    { toInitial := hd.initial
      mdata := ⟨inUse, hmdata⟩
      hosted := hclean.hosted
      answers := hclean.answers
      run := hd.run
      ok := hok }
  have htake := (hclean.faithful hd.good).file.take_eq hok
  have hlength := hfinishes.length_iff.1
  rw [hd.source.1] at htake hlength
  refine ⟨hok, htake, hd.hasLocal w (by rw [hexited]; rfl), fun hshort => ?_⟩
  rw [← hd.localFile] at hshort
  rw [← htake, hlength.mpr hshort |>.symm, List.take_length]

/-- The steps of a download, with the metadata and the check. -/
theorem Stage.countP_le (hs : Stage lib content s₀ as s) :
    as.countP (Act.within s₀.run.numClient) ≤
      33 * (chunkCount content.length (s₀.asks content).taken.chunk_size).toNat +
        6306 * s₀.run.numClient + 10 := by
  cases hs with
  | exchange _ _ _ _ _ _ hlength =>
    have hle : as.countP (Act.within s₀.run.numClient) ≤ as.length := List.countP_le_length
    split at hlength <;> omega
  | @download src t bs hd _ hlength =>
    obtain ⟨inUse, hmdata⟩ := hd.mdata
    have hsteps := Download.steps_le_claims hd.initial hd.run
    have hclaims := Download.claims_le hd.initial hd.run
    have hpending : t.pendingChunks.card ≤
        (chunkCount content.length (s₀.asks content).taken.chunk_size).toNat := by
      apply (Finset.card_filter_le _ _).trans_eq
      have hheader := congrArg Header.chunks
        (@Header.fresh_header (src.header lib.md5Buffer) inUse src.count_nonneg)
      have hlen : (t.mdata.chunkInfo.length : Int) =
          chunkCount content.length (s₀.asks content).taken.chunk_size := by
        rw [hmdata, ← hd.source.2.2, ← hd.source.1]
        exact hheader
      rw [Finset.card_range]
      omega
    rw [hd.numClient] at hsteps hclaims
    split at hlength <;> omega

theorem not_moves_of_checked {corrupted : Bool} (hpc : s.pc = .checked corrupted)
    (hserver : ∀ w < s.run.numClient, (s.run.conns w).toServer = []) : ¬ Moves lib s := by
  rintro ⟨a, s', hwithin, -, h, hblocking⟩
  cases step_cases h with
  | find hpc' | request hpc' | notFound hpc' | response hpc' | check hpc' =>
    cases hpc.symm.trans hpc'
  | @run a t hrunning ht =>
    obtain ⟨w, script, junk, rfl⟩ : ∃ w script junk, a = .server w script junk := by
      cases a with
      | server w script junk => exact ⟨w, script, junk, rfl⟩
      | parent | worker =>
        rcases hrunning with hpc' | hserves
        · cases hpc.symm.trans hpc'
        · cases hserves
    cases Download.step_cases ht with
    | @server _ _ _ r hr =>
      rw [hserver w (of_decide_eq_true hwithin)] at hr
      have hshort := Download.Source.step_short_of_nil hr
      simp [blocking, Download.blocking, hshort] at hblocking

/-- A run over blocking connections, from a start without metadata. -/
theorem stage_run (hlib : lib.Lawful) (h₀ : Initial s₀) (ht : Transferable s₀ content)
    (hmdata : s₀.hasMdata = false) (hhost : s₀.run.hosts 0 s₀.file = some (.file content))
    (hr : (machine lib).run s₀ as = some s) (hblocking : (machine lib).Along blocking s₀ as)
    (hordinary : ∀ a ∈ as, a.ordinary = true) :
    Stage lib content s₀ as s ∧ Kept lib content s := by
  have hord : (machine lib).Along (fun _ a _ => a.ordinary = true) s₀ as :=
    Machine.along_of_at_step fun bs a cs _ _ he _ _ => hordinary a (by simp [he])
  have hexchange : Exchange lib.md5Buffer content s₀ :=
    .silent h₀.pc (h₀.run.conns 0) (h₀.run.servers 0)
  have huntouched : Untouched s₀ s₀ :=
    ⟨h₀.run.pc, h₀.run.lock, h₀.run.kill_proc, h₀.run.workers, fun w _ => h₀.run.conns w,
      h₀.run.servers, rfl, rfl, rfl, rfl⟩
  exact Machine.run_invariant_actions
    (I := fun as s => Stage lib content s₀ as s ∧ Kept lib content s)
    (fun as s a s' hs ha h => ⟨stage_step hs.1 hhost ha.1 ha.2 h,
      kept_step hlib hs.2 (regular_of_blocking hs.1 hhost ha.1) h⟩)
    ⟨.exchange hexchange ht hmdata rfl huntouched (fun _ => rfl) (Nat.zero_le _),
      .exchange hexchange ht.toFetchable h₀.run.pc fun h => by cases hmdata.symm.trans h⟩
    (hblocking.and hord) hr

/-- **Where nobody can go on** the check has been made. -/
theorem Stage.checked (hstage : Stage lib content s₀ as s) (hkept : Kept lib content s)
    (hsome : 1 ≤ s₀.run.numClient) (hfew : s₀.run.numClient ≤ nproc)
    (hhosts : ∀ w < s₀.run.numClient, s₀.run.hosts w s₀.file = some (.file content))
    (hstuck : ¬ Moves lib s) : (∀ c ∈ s.run.mdata.chunkInfo, c.status = .chOk) ∧
      s.run.localFile.take content.length = content ∧
      ∃ corrupted, s.pc = .checked corrupted ∧
        (corrupted = true ↔ lib.md5Buffer s.run.localFile ≠ lib.md5Buffer content) ∧
        (s₀.run.localFile.length ≤ content.length →
          s.run.localFile = content ∧ corrupted = false) := by
  cases hstage with
  | exchange hexchange ht hmdata _ hu =>
    refine absurd (hexchange.moves ht hmdata ?_) hstuck
    rw [hu.numClient]
    exact hsome
  | @download src t bs hd hpc _ =>
    have hhosted := hd.hosted hhosts
    have hsome' : 1 ≤ t.numClient := hd.numClient ▸ hsome
    have hfew' : t.numClient ≤ nproc := hd.numClient ▸ hfew
    rcases hpc with hpc | ⟨⟨corrupted, hpc⟩, hended⟩
    · -- the download has come to its end, and the check can be made
      exfalso
      have hrun : ¬ Download.Moves lib.md5Buffer s.run := by
        rintro ⟨a, u, hwithin, hord, h, ha⟩
        refine hstuck ⟨.run a, { s with run := u, hasLocal := s.hasLocal || opens a }, hwithin,
          hord, ?_, ha⟩
        have h : Download.step lib.md5Buffer s.run a = some u := h
        simp [machine, step, hpc, h]
      obtain ⟨hclean, hended, hexited⟩ := Download.cleanRun_of_stuck lib.md5Buffer src hd.initial
        hd.good hhosted hsome' hfew' hd.run hd.blocking hd.ordinary hrun
      obtain ⟨-, -, hlocal, -⟩ := hd.complete hclean hexited
      obtain ⟨results, digest, hpieces, hdigest⟩ :=
        @Md5Library.exists_md5File lib s.run.localFile
      refine hstuck ⟨.check results (Buffer.zero _),
        { s with pc := .checked (s.run.metadata.digest ≠ digest) }, rfl, rfl, ?_, hpieces⟩
      simp [machine, step, hpc, hended, hlocal, hdigest]
    · have horderly := (Download.sound_run hd.initial.sound hd.run).toOrderly
      obtain ⟨hclean, -, hexited⟩ := Download.cleanRun_of_over lib.md5Buffer src hd.initial
        hd.good hhosted hsome' hfew' hd.run hd.blocking hd.ordinary
        (horderly.late (.inr (.inl hended))) (by rw [hended]; rfl)
      obtain ⟨hok, htake, hlocal, hwhole⟩ := hd.complete hclean hexited
      have hverdict := hkept.verdict hpc hlocal
      refine ⟨hok, htake, corrupted, hpc, hverdict, fun hshort => ?_⟩
      have he := hwhole hshort
      refine ⟨he, ?_⟩
      rw [← Bool.not_eq_true, hverdict, he]
      exact fun hne => hne rfl

end Blocking

/-- **DownloadFile does its work.**  There is no .mdata file yet, one to ten hosts have the file
in their directories, their connections are blocking ones, and nobody interrupts mhclient.  Then
in whatever order mhclient, its workers and the servers go on, it takes a bounded number of
steps; and when none of them can take another one the last check has been made, every chunk is
CH_OK, and the local file begins with the file.  If it was not longer before it is the file, and
mhclient says nothing; otherwise mhclient says "Downloaded file is corrupted." unless MD5 fails
to tell. -/
theorem download_file (hlib : lib.Lawful) {content : List UInt8} {s₀ : State} {as : List Act}
    (h₀ : Initial s₀) (ht : Transferable s₀ content) (hmdata : s₀.hasMdata = false)
    (hsome : 1 ≤ s₀.run.numClient) (hfew : s₀.run.numClient ≤ nproc)
    (hhosts : ∀ w < s₀.run.numClient, s₀.run.hosts w s₀.file = some (.file content))
    (hr : (machine lib).run s₀ as = some s) (hblocking : (machine lib).Along blocking s₀ as)
    (hordinary : ∀ a ∈ as, a.ordinary = true) :
    as.countP (Act.within s₀.run.numClient) ≤
        33 * (chunkCount content.length (s₀.asks content).taken.chunk_size).toNat +
          6306 * s₀.run.numClient + 10 ∧
      (¬ Moves lib s → (∀ c ∈ s.run.mdata.chunkInfo, c.status = .chOk) ∧
        s.run.localFile.take content.length = content ∧
        ∃ corrupted, s.pc = .checked corrupted ∧
          (corrupted = true ↔ lib.md5Buffer s.run.localFile ≠ lib.md5Buffer content) ∧
          (s₀.run.localFile.length ≤ content.length →
            s.run.localFile = content ∧ corrupted = false)) := by
  obtain ⟨hstage, hkept⟩ := stage_run hlib h₀ ht hmdata (hhosts 0 (by omega)) hr hblocking hordinary
  exact ⟨hstage.countP_le, hstage.checked hkept hsome hfew hhosts⟩

instance (s : State) (a : Act) (s' : State) : Decidable (blocking s a s') :=
  match a with
  | .run a => inferInstanceAs (Decidable (Download.blocking s.run a s'.run = true))
  | .response mem script => inferInstanceAs (Decidable
      ((receiveMetadata mem ⟨(s.run.conns 0).toClient, script, false⟩).2.short = false))
  | .check results _ => inferInstanceAs (Decidable (∀ r ∈ results, r.Piece))
  | .find | .request => inferInstanceAs (Decidable True)

/-- The metadata, both chunks and the check. -/
def sampleAll : List Act :=
  [.request, .run (.server 0 [] fun _ => 0), .response ⟨Buffer.zero _, sampleHeader, 0⟩ []] ++
    Download.sampleWhole.map .run ++ [.check [.count 1, .count 5, .count 1] (Buffer.zero _)]

theorem transferable_sampleDownload : Transferable (sampleDownload false []) [1, 2] where
  wellFormed := ⟨by decide, by decide, by decide, by decide, by decide⟩
  chunk_size := by decide
  le_max := by rw [maxChunkSize_eq]; decide
  requests := by decide

theorem download_file_sample : ∃ s,
    (machine sampleLibrary).run (sampleDownload false []) sampleAll = some s ∧
    s.run.localFile = [1, 2] ∧ s.pc = .checked false := by
  obtain ⟨s, hs, hpc, hnum, hserver⟩ : ∃ s,
      (machine sampleLibrary).run (sampleDownload false []) sampleAll = some s ∧
        s.pc = .checked false ∧ s.run.numClient = 1 ∧ (s.run.conns 0).toServer = [] :=
    Machine.exists_run (by decide +kernel)
  have hstuck : ¬ Moves sampleLibrary s := not_moves_of_checked hpc fun w hw => by
    obtain rfl : w = 0 := by omega
    exact hserver
  obtain ⟨-, -, c, hc, -, hwhole⟩ := (download_file lawful_sampleLibrary
    ⟨rfl, Download.initial_begin _ _ _ _⟩ transferable_sampleDownload rfl (by decide) (by decide)
    (fun w _ => rfl) hs (by decide +kernel) (by decide +kernel)).2 hstuck
  exact ⟨s, hs, (hwhole (by decide)).1, hpc⟩

end DownloadFile
end Mhftp
