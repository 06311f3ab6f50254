import Mhftp.ChunkRequest
import Mhftp.Chunks
import Mhftp.DownloadClaims

/-! # What a download run writes

A server offers a file that does not change, and the .mdata file describes it.  Then
every chunk that is CH_OK, in the .mdata file and in every copy of it, is in the local
file (`Source.Good`), whatever the workers do and however they are interrupted: a
worker writes what it has asked for (`Source.LinkOk`), and a write of bytes of the file
to their place spoils nothing.

This rests on the server answering the request that the worker has sent.  The server
does not look whether its `so_read`s got what they asked for, so it must not answer on a
connection where one of them came up short (`AnswersIntact`).
-/

namespace Mhftp.Download
open Library

/-- A file on the server, its name there, and the chunk size of the download; the
numbers of its chunks fit into a request. -/
structure Source extends ChunkedFile where
  fileFull : FName
  le_max : chunkSize ≤ maxChunkSize
  requests : chunkCount content.length chunkSize ≤ 10 ^ 6

namespace Source
variable (src : Source) (md5 : Md5)

def header : Header := createHeader md5 src.fileFull src.content src.chunkSize

def path : Path := cString src.fileFull.bytes

section Chunk
variable {src} {k : Nat}

theorem lt_requests (hk : src.Has k) : k < 10 ^ 6 := by
  have := lt_of_lt_of_le hk src.requests
  exact_mod_cast this

theorem size_le_max (k : Nat) : src.size k ≤ maxChunkSize :=
  (ChunkedFile.size_le k).trans src.le_max

/-- The server finds chunk `k` in its file. -/
theorem loadChunkFromFile (k : Nat) (junk : Nat → UInt8) :
    loadChunkFromFile junk src.content (k * src.chunkSize) (src.size k) = src.chunk k := by
  exact loadChunkFromFile_of_le ((src.size_le_max k).trans maxChunkSize_le)
    (min_le_right _ _) junk

theorem chunkSize_lt : src.chunkSize < 2 ^ 31 := by
  have hmax := src.le_max
  rw [maxChunkSize_eq] at hmax
  omega

theorem length_le : src.content.length ≤ src.chunkSize * 10 ^ 6 := by
  have := Int.mul_le_mul_of_nonneg_left src.requests (Int.natCast_nonneg src.chunkSize)
  exact_mod_cast src.length_le_mul.trans this

theorem length_lt : src.content.length < 2 ^ 63 := by
  have hlen := src.length_le
  have hmax := src.le_max
  rw [maxChunkSize_eq] at hmax
  omega

theorem chunks_lt : (src.header md5).chunks < 2 ^ 31 := by
  have hreq := src.requests
  show chunkCount src.content.length src.chunkSize < 2 ^ 31
  omega

theorem header_inRange : (src.header md5).InRange := by
  have hlen := src.length_le
  have hmax := src.le_max
  have hreq := src.requests
  have hnonneg := src.count_nonneg
  rw [maxChunkSize_eq] at hmax
  refine ⟨⟨?_, ?_⟩, ⟨?_, ?_⟩, ⟨?_, ?_⟩⟩ <;> simp only [header, createHeader] <;> omega

end Chunk

/-! ### The local file -/

/-- The .mdata file or a copy of it describes the file, and each chunk that it says is
CH_OK is in the local file. -/
structure Good (localFile : List UInt8) (m : Metadata) : Prop where
  header : m.header = src.header md5
  ok : ∀ k c, m.chunkInfo[k]? = some c → c.status = .chOk →
    src.Stored localFile k ∧ c.md5sum = md5 (src.chunk k)

section Local
variable {src} {md5} {localFile : List UInt8} {m : Metadata} {j k n : Nat}

theorem Good.length (h : src.Good md5 localFile m) :
    (m.chunkInfo.length : Int) = chunkCount src.content.length src.chunkSize :=
  congrArg Header.chunks h.header

theorem Good.chunkSize (h : src.Good md5 localFile m) : m.chunkSize = src.chunkSize :=
  congrArg Header.chunkSize h.header

theorem Good.has (h : src.Good md5 localFile m) (hk : k < m.chunkInfo.length) : src.Has k := by
  rw [ChunkedFile.Has, ← h.length]
  exact_mod_cast hk

theorem Good.pwrite (h : src.Good md5 localFile m) :
    src.Good md5 (pwrite localFile (j * src.chunkSize) ((src.chunk j).take n)) m where
  header := h.header
  ok := fun k c hc hok =>
    ⟨(h.ok k c hc hok).1.pwrite (h.has (List.getElem?_eq_some_iff.mp hc).1), (h.ok k c hc hok).2⟩

/-- A table whose chunks in CH_OK are those of a good one, or stored. -/
theorem Good.of_entries {m' : Metadata} (h : src.Good md5 localFile m)
    (hheader : m'.header = m.header)
    (hok : ∀ k c, m'.chunkInfo[k]? = some c → c.status = .chOk → m.chunkInfo[k]? = some c ∨
      src.Stored localFile k ∧ c.md5sum = md5 (src.chunk k)) : src.Good md5 localFile m' where
  header := hheader.trans h.header
  ok := fun k c hc hst => (hok k c hc hst).elim (fun hc => h.ok k c hc hst) id

theorem Good.setInUse (h : src.Good md5 localFile m) (u : UInt8) :
    src.Good md5 localFile (m.setInUse u) :=
  ⟨h.header, h.ok⟩

/-- `setChunkStatus` to anything but CH_OK, or for a chunk that is stored. -/
theorem Good.setChunkStatus (h : src.Good md5 localFile m) {status : ChunkStatus}
    {digest : Option Digest}
    (hok : status = .chOk → src.Stored localFile k ∧ digest = some (md5 (src.chunk k))) :
    src.Good md5 localFile (m.setChunkStatus k status digest) := by
  refine h.of_entries ?_ fun i c hc hst => ?_
  · simp [Metadata.header, Metadata.setChunkStatus, Metadata.chunks]
  · by_cases hi : i = k
    · -- the entry that is set
      subst i
      simp only [Metadata.setChunkStatus, List.getElem?_modify, if_true] at hc
      obtain ⟨c₀, -, rfl⟩ := Option.map_eq_some_iff.mp hc
      obtain ⟨hstored, hdigest⟩ := hok hst
      exact Or.inr ⟨hstored, by rw [hdigest]; rfl⟩
    · exact Or.inl ((ClaimTable.getElem?_modify_ne hi).symm.trans hc)

theorem Good.updateControlData {m' : Metadata} (h : src.Good md5 localFile m)
    (h' : src.Good md5 localFile m') : src.Good md5 localFile (m'.updateControlData m) where
  header := by
    have hlength := congrArg Header.chunks (h'.header.trans h.header.symm)
    have hheader := h.header
    simp only [Metadata.header, Metadata.chunks, Metadata.updateControlData] at hlength hheader ⊢
    rw [hlength, hheader]
  ok := h'.ok

/-- Resetting some of the entries. -/
theorem Good.reset (h : src.Good md5 localFile m) {t : List ChunkInfo} {u : UInt8}
    (hlength : t.length = m.chunkInfo.length)
    (hreset : ∀ (k : Nat) (c : ChunkInfo), t[k]? = some c → m.chunkInfo[k]? = some c ∨
      ∃ c₀, m.chunkInfo[k]? = some c₀ ∧ c = Metadata.resetDownloading c₀) :
    src.Good md5 localFile { m with chunkInfo := t, inUse := u } := by
  refine h.of_entries ?_ fun k c hc hst => ?_
  · simp [Metadata.header, Metadata.chunks, hlength]
  · rcases hreset k c hc with hc | ⟨c₀, hc₀, rfl⟩
    · exact Or.inl hc
    · unfold Metadata.resetDownloading at hst ⊢
      split at hst
      · cases hst
      · next hno => rw [if_neg hno]; exact Or.inl hc₀

theorem Good.resetDownloadingChunks (h : src.Good md5 localFile m) :
    src.Good md5 localFile m.resetDownloadingChunks := by
  refine h.reset (List.length_map _) fun k c hc => Or.inr ?_
  rw [List.getElem?_map] at hc
  obtain ⟨c₀, hc₀, rfl⟩ := Option.map_eq_some_iff.mp hc
  exact ⟨c₀, hc₀, rfl⟩

/-- **When every chunk is CH_OK the local file begins with the file.** -/
theorem Good.take_eq (h : src.Good md5 localFile m) (hall : ∀ c ∈ m.chunkInfo, c.status = .chOk) :
    localFile.take src.content.length = src.content := by
  refine ChunkedFile.take_eq_of_stored fun k hk => ?_
  have hlt : k < m.chunkInfo.length := by
    have := h.length
    unfold ChunkedFile.Has at hk
    omega
  exact (h.ok k _ (List.getElem?_eq_getElem hlt) (hall _ (List.getElem_mem hlt))).1

end Local

/-! ### The connections -/

/-- The request that a worker has sent and not seen answered. -/
def request : Option Nat → List UInt8
  | some k => (requestChunk k).bytes
  | none => []

/-- What is on a connection on which no `so_read` of the server has come up short: the
header is on its way, and then the request of the worker, if it has one, or the answer. -/
inductive Intact (engaged : Bool) (awaits : Option Nat) (conn : Conn) (srv : MhProtoServer) : Prop
  | silent : engaged = false → srv.pc = .rcvCmd → conn.toServer = [] → conn.toClient = [] →
      Intact engaged awaits conn srv
  | header : engaged = true → srv.pc = .rcvCmd →
      conn.toServer = 1 :: ((src.header md5).writeMetadataHeader ++ request awaits) →
      conn.toClient = [] → Intact engaged awaits conn srv
  | request pos : engaged = true → srv.pc = .sendChunk src.path mhRetry pos →
      srv.metadata = src.header md5 → conn.toServer = request awaits → conn.toClient = [] →
      Intact engaged awaits conn srv
  | answered k pos : engaged = true → srv.pc = .sendChunk src.path mhRetry pos →
      srv.metadata = src.header md5 → awaits = some k → conn.toServer = [] →
      conn.toClient = chunkMessage md5 (src.chunk k) → Intact engaged awaits conn srv

/-- What a worker finds on its connection is the chunk it has asked for. -/
structure LinkOk (engaged : Bool) (awaits : Option Nat) (conn : Conn) (srv : MhProtoServer) :
    Prop where
  answer : conn.toClient = [] ∨
    ∃ k, awaits = some k ∧ conn.toClient = chunkMessage md5 (src.chunk k)
  intact : conn.short = false → src.Intact md5 engaged awaits conn srv

section Link
variable {src} {md5} {engaged : Bool} {awaits : Option Nat} {conn : Conn} {srv : MhProtoServer}
  {junk : Nat → UInt8} {dir : Dir} {w : Wire} {r : Served}

theorem soRead_br_ne {n : Nat} (h : w.unread.length < n) : (w.soRead n).br ≠ n := by
  intro hbr
  obtain ⟨hlen, hunread⟩ := Wire.soRead_of_br hbr
  rw [hunread, List.length_append, hlen] at h
  omega

theorem soRead_short {n : Nat} (h : (w.soRead n).br ≠ n) : (w.soRead n).wire.short = true := by
  simp only [Wire.soRead, Bool.or_eq_true, bne_iff_ne]
  exact Or.inr h

/-- Where no command can be read the process ends. -/
theorem rcvCmd_short (h : (w.soRead 1).br ≠ 1) :
    (srv.rcvCmd md5 junk dir w).wire.short = true := by
  have hbounds := Wire.soRead_br_bounds (w := w) (n := 1)
  have hbr : (w.soRead 1).br ≤ 0 := by omega
  rw [MhProtoServer.rcvCmd]
  simp only [hbr, if_true]
  exact soRead_short h

theorem sendChunkTurn_short {file : Path} {wait pos : Nat} (h : w.unread.length < 7) :
    (srv.sendChunkTurn md5 junk file wait pos dir w).wire.short = true := by
  rw [MhProtoServer.sendChunkTurn_wire]
  exact soRead_short (soRead_br_ne h)

/-- A server that has been sent nothing more comes up short. -/
theorem step_short_of_nil {script : List (List ReadResult)} {short : Bool}
    (hr : srv.step md5 junk dir ⟨[], script, short⟩ = some r) : r.wire.short = true := by
  unfold MhProtoServer.step at hr
  split at hr <;> cases hr
  · exact rcvCmd_short (soRead_br_ne (by simp))
  · exact sendChunkTurn_short (by simp)
  · next file pos chunkNumber chunkSize buffer _ =>
    have hle : ((Wire.mk [] script short).readInt64 chunkNumber).br ≤ 0 := by
      obtain ⟨k, hk, -, -, hbr⟩ := soRead_spec [] 8 (script.headD [])
      rw [List.length_nil] at hk
      show (Mhftp.soRead [] 8 (script.headD [])).br ≤ 0
      omega
    rw [MhProtoServer.receiveChunkTurn]
    simp only [hle, if_true]
    exact soRead_short (soRead_br_ne (by simp))

/-- The command to download, read in full. -/
theorem rcvCmd_download {ys : List UInt8}
    (hu : w.unread = 1 :: ((src.header md5).writeMetadataHeader ++ ys))
    (hdir : dir src.path = some (.file src.content))
    (hintact : (srv.rcvCmd md5 junk dir w).wire.short = false) :
    (srv.rcvCmd md5 junk dir w).server.pc = .sendChunk src.path mhRetry 0 ∧
      (srv.rcvCmd md5 junk dir w).server.metadata = src.header md5 ∧
      (srv.rcvCmd md5 junk dir w).wire.unread = ys ∧ (srv.rcvCmd md5 junk dir w).out = [] := by
  have hcmd : (w.soRead 1).br = 1 := by
    by_contra hne
    rw [rcvCmd_short hne] at hintact
    cases hintact
  have hread := Wire.soRead_of_full (show w.unread = [1] ++ _ from hu) hcmd
  have hrcv : srv.rcvCmd md5 junk dir w = srv.sendChunkToClient dir
      ⟨(src.header md5).writeMetadataHeader ++ ys, w.script.tail, w.short⟩ := by
    rw [MhProtoServer.rcvCmd]
    simp only [List.length_singleton] at hread
    simp [hread]
  rw [hrcv] at hintact ⊢
  rw [MhProtoServer.sendChunkToClient_wire] at hintact
  obtain ⟨-, hheader, hunread⟩ :=
    Header.readMetadataHeader_of_intact (src.header_inRange md5) rfl hintact
  rw [MhProtoServer.sendChunkToClient]
  simp only [hheader]
  have hsome : (dir (cString (src.header md5).fileFull.bytes)).isSome = true := by
    show (dir src.path).isSome = true
    rw [hdir]; rfl
  rw [if_neg (src.chunks_lt md5).not_ge, if_pos hsome]
  exact ⟨rfl, rfl, hunread, rfl⟩

/-- The answer to a request that was read in full. -/
theorem sendChunkTurn_request {k pos : Nat} (hk : src.Has k)
    (hmeta : srv.metadata = src.header md5) (hu : w.unread = (requestChunk k).bytes)
    (hdir : dir src.path = some (.file src.content))
    (hintact : (srv.sendChunkTurn md5 junk src.path mhRetry pos dir w).wire.short = false) :
    ∃ pos', srv.sendChunkTurn md5 junk src.path mhRetry pos dir w =
      ⟨srv.goto (.sendChunk src.path mhRetry pos'), dir, ⟨[], w.script.tail, w.short⟩,
        chunkMessage md5 (src.chunk k)⟩ := by
  rw [MhProtoServer.sendChunkTurn_wire] at hintact
  obtain ⟨-, hbr⟩ := Wire.readBuffer_full_of_intact hintact
  have hsize := hk.payLoad_eq src.length_lt
  have hmax := (src.size_le_max k).trans maxChunkSize_le
  rw [sendChunkTurn_of_le md5 junk (hu.trans (List.append_nil _).symm) hbr
    (atoi_requestChunk (src.lt_requests hk)) (by rw [hmeta]; exact hk)
    (by rw [hmeta]; show 0 ≤ payLoad src.content.length src.chunkSize k; omega)
    (by rw [hmeta]; show payLoad src.content.length src.chunkSize k ≤ _; omega),
    content_of_file hdir, hmeta]
  refine ⟨k * src.chunkSize + (pread src.content (k * src.chunkSize) (src.size k)).length, ?_⟩
  show (⟨srv.goto (if mhRetry = 0 then .rcvCmd else .sendChunk src.path mhRetry
      (seek pos (k * src.chunkSize) + (pread src.content (seek pos (k * src.chunkSize))
        (payLoad src.content.length src.chunkSize k).toNat).length)), dir, _,
    chunkMessage md5 (Mhftp.loadChunkFromFile junk src.content (seek pos (k * src.chunkSize))
      (payLoad src.content.length src.chunkSize k).toNat)⟩ : Served) = _
  rw [seek_mul pos (hk.lt.trans src.length_lt), hsize, Int.toNat_natCast,
    src.loadChunkFromFile k junk, if_neg (by decide)]

/-- **The server answers what it is asked**, as long as its `so_read`s are full. -/
theorem Intact.server (h : src.Intact md5 engaged awaits conn srv)
    (hawaits : ∀ k, awaits = some k → src.Has k) (hdir : dir src.path = some (.file src.content))
    {script : List (List ReadResult)}
    (hr : srv.step md5 junk dir ⟨conn.toServer, script, conn.short⟩ = some r)
    (hintact : r.wire.short = false) :
    src.Intact md5 engaged awaits ⟨r.wire.unread, conn.toClient ++ r.out, r.wire.short⟩
      r.server := by
  cases h with
  | silent hengaged hpc hserver hclient =>
    cases hintact.symm.trans (step_short_of_nil (hserver ▸ hr))
  | header hengaged hpc hserver hclient =>
    rw [MhProtoServer.step, hpc] at hr
    obtain rfl := Option.some.inj hr
    obtain ⟨hpc', hmeta, hunread, hout⟩ := rcvCmd_download hserver hdir hintact
    exact .request 0 hengaged hpc' hmeta hunread (by rw [hclient, hout]; rfl)
  | request pos hengaged hpc hmeta hserver hclient =>
    rw [MhProtoServer.step, hpc] at hr
    obtain rfl := Option.some.inj hr
    cases hk : awaits with
    | none =>
      rw [sendChunkTurn_short (by simp [hserver, hk, Source.request])] at hintact
      cases hintact
    | some k =>
      obtain ⟨pos', hr⟩ := sendChunkTurn_request (hawaits k hk) hmeta
        (by rw [hserver, hk]; rfl) hdir hintact
      rw [hr]
      exact .answered k pos' hengaged rfl hmeta rfl rfl (by rw [hclient]; rfl)
  | answered k pos hengaged hpc hmeta hk hserver hclient =>
    rw [MhProtoServer.step, hpc] at hr
    obtain rfl := Option.some.inj hr
    rw [sendChunkTurn_short (by simp [hserver])] at hintact
    cases hintact

theorem LinkOk.server (h : src.LinkOk md5 engaged awaits conn srv)
    (hawaits : ∀ k, awaits = some k → src.Has k) (hdir : dir src.path = some (.file src.content))
    {script : List (List ReadResult)}
    (hr : srv.step md5 junk dir ⟨conn.toServer, script, conn.short⟩ = some r)
    (hanswers : r.out ≠ [] → r.wire.short = false) :
    src.LinkOk md5 engaged awaits ⟨r.wire.unread, conn.toClient ++ r.out, r.wire.short⟩
      r.server := by
  by_cases hshort : r.wire.short = false
  · have hconn : conn.short = false := by
      by_contra hno
      rw [MhProtoServer.step_short hr (by simpa using hno)] at hshort
      cases hshort
    have hintact := (h.intact hconn).server hawaits hdir hr hshort
    refine ⟨?_, fun _ => hintact⟩
    cases hintact with
    | silent _ _ _ hclient | header _ _ _ hclient | request _ _ _ _ _ hclient =>
      exact Or.inl hclient
    | answered k _ _ _ _ hk _ hclient => exact Or.inr ⟨k, hk, hclient⟩
  · have hout : r.out = [] := by
      by_contra hne
      exact hshort (hanswers hne)
    refine ⟨?_, fun hno => absurd hno hshort⟩
    rw [hout, List.append_nil]
    exact h.answer

/-- The worker sends the header. -/
theorem LinkOk.open (h : src.LinkOk md5 false none conn srv) :
    src.LinkOk md5 true none
      { conn with toServer := conn.toServer ++ 1 :: (src.header md5).writeMetadataHeader } srv := by
  refine ⟨h.answer, fun hshort => ?_⟩
  cases h.intact hshort with
  | silent _ hpc hserver hclient =>
    refine .header rfl hpc ?_ hclient
    rw [hserver]
    simp [Source.request]
  | header he | request _ he | answered _ _ he => cases he

/-- The worker asks for chunk `k`. -/
theorem LinkOk.request {k : Nat} (h : src.LinkOk md5 true none conn srv) :
    src.LinkOk md5 true (some k)
      { conn with toServer := conn.toServer ++ (requestChunk k).bytes } srv := by
  refine ⟨?_, fun hshort => ?_⟩
  · rcases h.answer with hclient | ⟨_, hk, -⟩
    · exact Or.inl hclient
    · cases hk
  · cases h.intact hshort with
    | silent he => cases he
    | header _ hpc hserver hclient =>
      refine .header rfl hpc ?_ hclient
      rw [hserver]
      simp [Source.request]
    | request pos _ hpc hmeta hserver hclient =>
      exact .request pos rfl hpc hmeta (by rw [hserver]; rfl) hclient
    | answered _ _ _ _ _ hk => cases hk

/-- The worker has read an answer. -/
theorem LinkOk.receive {k : Nat} {md5sum : Digest} {size data rest : List UInt8}
    (hk : src.Has k) (h : src.LinkOk md5 true (some k) conn srv) (hsize : size.length = 8)
    (hread : conn.toClient = md5sum.bytes ++ (size ++ (data ++ rest)))
    (hdata : decodeInt size = data.length ∨ decodeInt size = -1 ∧ data = []) :
    md5sum = md5 (src.chunk k) ∧ data = src.chunk k ∧
      src.LinkOk md5 true none { conn with toClient := rest } srv := by
  have hne : conn.toClient ≠ [] := by
    intro hnil
    have hlen := congrArg List.length (hread.symm.trans hnil)
    simp [hsize] at hlen
  obtain ⟨k', hk', hanswer⟩ := h.answer.resolve_left hne
  obtain rfl := Option.some.inj hk'
  rw [hread, chunkMessage] at hanswer
  obtain ⟨hmd5, hrest⟩ := List.append_inj hanswer (by rw [md5sum.length, (md5 _).length])
  obtain ⟨rfl, hbytes⟩ := List.append_inj hrest (by rw [hsize, length_encodeInt])
  have hle := (src.size_le_max k).trans_eq maxChunkSize_eq
  have hlength := hk.length_chunk
  rw [decodeInt_encodeInt_of_range (by omega) (by omega)] at hdata
  have hdatalen : data.length = (src.chunk k).length := by omega
  obtain ⟨rfl, rfl⟩ := List.append_inj (hbytes.trans (List.append_nil _).symm) hdatalen
  refine ⟨Buffer.ext hmd5, rfl, Or.inl rfl, fun hshort => ?_⟩
  cases h.intact hshort with
  | silent _ _ _ hclient | header _ _ _ hclient | request _ _ _ _ _ hclient =>
    exact absurd hclient hne
  | answered _ pos _ hpc hmeta _ hserver _ => exact .request pos rfl hpc hmeta hserver rfl

end Link

end Source

/-! ### The invariant of a run -/

/-- The request that is out. -/
def WorkerPc.awaits : WorkerPc → Option Nat
  | receive k => some k
  | _ => none

/-- What a worker has in its memory. -/
structure Source.WorkerOk (src : Source) (md5 : Md5) (localFile : List UInt8) (wk : Worker) :
    Prop where
  good : wk.pc.engaged = true → src.Good md5 localFile wk.metadata
  chunk : ∀ k, wk.pc.chunk = some k → src.Has k
  store : ∀ k data, wk.pc = .store k data →
    data = src.chunk k ∧ wk.rcv_md5sum = md5 (src.chunk k)
  update : ∀ k, wk.pc = .update k ∨ wk.pc = .updateLocked k ∨ wk.pc = .updateLoaded k →
    wk.sock_error = false → src.Stored localFile k ∧ wk.rcv_md5sum = md5 (src.chunk k)

/-- The worker is there and its connection has not failed. -/
def Worker.linked (wk : Worker) : Prop :=
  wk.pc = .notForked ∨ wk.pc.finished = false ∧ wk.sock_error = false

/-- **The invariant of a run**: the .mdata file and all copies of it that may still be
saved are good, and what workers have read is what they asked for. -/
structure Source.Faithful (src : Source) (md5 : Md5) (s : State) : Prop extends Orderly s where
  file : src.Good md5 s.localFile s.mdata
  copy : s.pc = .loaded ∨ s.pc = .finalLoaded ∨ s.pc = .killLoaded →
    src.Good md5 s.localFile s.metadata
  worker : ∀ w, src.WorkerOk md5 s.localFile (s.workers w)
  link : ∀ w < s.numClient, (s.workers w).linked → src.LinkOk md5 (s.workers w).pc.engaged
    (s.workers w).pc.awaits (s.conns w) (s.servers w)

/-- Every host has the file. -/
def Source.Hosted (src : Source) (s : State) : Prop :=
  ∀ w < s.numClient, s.hosts w src.path = some (.file src.content)

instance (src : Source) (s : State) : Decidable (src.Hosted s) :=
  inferInstanceAs (Decidable (∀ w < s.numClient, _))

/-- A server that answers has had no `so_read` on this connection that came up short. -/
def AnswersIntact (s : State) : Act → State → Prop
  | .server w _ _, s' => (s'.conns w).toClient ≠ (s.conns w).toClient → (s'.conns w).short = false
  | _, _ => True

instance (s s' : State) : (a : Act) → Decidable (AnswersIntact s a s')
  | .server w _ _ => inferInstanceAs (Decidable ((s'.conns w).toClient ≠ (s.conns w).toClient → _))
  | .parent _ | .worker _ _ => isTrue trivial

section Run
variable {src : Source} {md5 : Md5} {s s' : State} {a : Act} {w : Nat}

/-- A worker that holds no chunk. -/
theorem Source.WorkerOk.of_chunk_none {localFile : List UInt8} {wk : Worker}
    (hgood : wk.pc.engaged = true → src.Good md5 localFile wk.metadata)
    (hpc : wk.pc.chunk = none) : src.WorkerOk md5 localFile wk where
  good := hgood
  chunk := fun k hk => by rw [hpc] at hk; cases hk
  store := fun k data hstore => by rw [hstore] at hpc; cases hpc
  update := fun k hk => by rcases hk with hk | hk | hk <;> rw [hk] at hpc <;> cases hpc

/-- A worker that has its chunk yet to read. -/
theorem Source.WorkerOk.goto {localFile : List UInt8} {wk : Worker} {pc : WorkerPc} {k : Nat}
    (h : src.WorkerOk md5 localFile wk) (hengaged : wk.pc.engaged = true)
    (hchunk : wk.pc.chunk = some k)
    (hpc : pc = .request k ∨ pc = .receive k ∨ pc = .dead k) :
    src.WorkerOk md5 localFile { wk with pc } where
  good := fun _ => h.good hengaged
  chunk := fun j hj => by
    have hsame : pc.chunk = some k := by rcases hpc with rfl | rfl | rfl <;> rfl
    obtain rfl : k = j := Option.some.inj (hsame.symm.trans hj)
    exact h.chunk k hchunk
  store := fun j data hj => by
    obtain rfl : pc = .store j data := hj
    simp at hpc
  update := fun j hj => by
    rcases hpc with rfl | rfl | rfl <;> simp at hj

theorem Initial.faithful (h : Initial s) (hgood : src.Good md5 s.localFile s.mdata) :
    src.Faithful md5 s where
  toOrderly := h.orderly
  file := hgood
  copy := fun hpc => by rw [h.pc] at hpc; simp at hpc
  worker := fun w => .of_chunk_none (by rw [h.workers w]; nofun) (by rw [h.workers w]; rfl)
  link := fun w _ _ => by
    rw [h.workers w, h.conns w]
    exact ⟨Or.inl rfl, fun _ => .silent rfl (h.servers w) rfl rfl⟩

theorem Source.WorkerOk.pwrite {localFile : List UInt8} {wk : Worker}
    (h : src.WorkerOk md5 localFile wk) {j n : Nat} :
    src.WorkerOk md5 (pwrite localFile (j * src.chunkSize) ((src.chunk j).take n)) wk where
  good := fun he => (h.good he).pwrite
  chunk := h.chunk
  store := h.store
  update := fun k hpc hse =>
    have hk : src.Has k := h.chunk k (by rcases hpc with hpc | hpc | hpc <;> rw [hpc] <;> rfl)
    ⟨(h.update k hpc hse).1.pwrite hk, (h.update k hpc hse).2⟩

theorem Orderly.lt_numClient (hs : Orderly s) (hw : (s.workers w).pc.finished = false) :
    w < s.numClient := by
  by_contra hle
  rw [hs.outside w (not_lt.mp hle)] at hw
  cases hw

/-- A step of one worker that leaves the local file alone. -/
theorem Source.Faithful.move (hs : src.Faithful md5 s) (ho : Orderly s')
    (hw : (s.workers w).pc.finished = false) {wk : Worker} (hpc : s'.pc = s.pc)
    (hnum : s'.numClient = s.numClient) (hworkers : s'.workers = update s.workers w wk)
    (hlocal : s'.localFile = s.localFile) (hmdata : src.Good md5 s.localFile s'.mdata)
    (hconns : ∀ v, v ≠ w → s'.conns v = s.conns v) (hservers : s'.servers = s.servers)
    (hwk : src.WorkerOk md5 s.localFile wk)
    (hlink : w < s.numClient → wk.linked →
      src.LinkOk md5 wk.pc.engaged wk.pc.awaits (s'.conns w) (s.servers w)) :
    src.Faithful md5 s' where
  toOrderly := ho
  file := hlocal ▸ hmdata
  copy := fun h => by
    rw [hpc] at h
    rcases hs.active hw with ⟨i, hi⟩ | hi | hi <;> simp [hi] at h
  worker := fun v => by
    rw [hworkers, hlocal]
    exact forall_update hwk hs.worker v
  link := fun v hlt => by
    rw [hworkers, hservers]
    rw [hnum] at hlt
    by_cases hv : v = w
    · subst v; rw [update_self]; exact hlink hlt
    · rw [update_of_ne _ _ hv, hconns v hv]; exact hs.link v hlt

/-- A step of the parent that forks nothing. -/
theorem Source.Faithful.parent (hs : src.Faithful md5 s) (ho : Orderly s')
    (hnum : s'.numClient = s.numClient) (hworkers : s'.workers = s.workers)
    (hlocal : s'.localFile = s.localFile) (hconns : s'.conns = s.conns)
    (hservers : s'.servers = s.servers) (file : src.Good md5 s.localFile s'.mdata)
    (copy : s'.pc = .loaded ∨ s'.pc = .finalLoaded ∨ s'.pc = .killLoaded →
      src.Good md5 s.localFile s'.metadata) : src.Faithful md5 s' where
  toOrderly := ho
  file := hlocal ▸ file
  copy := hlocal ▸ copy
  worker := by rw [hlocal, hworkers]; exact hs.worker
  link := by rw [hnum, hworkers, hconns, hservers]; exact hs.link

/-- A worker that goes on is linked as long as its connection has not failed. -/
theorem Source.Faithful.linkOk (hs : src.Faithful md5 s) (hw : (s.workers w).pc.finished = false)
    (hse : (s.workers w).sock_error = false) (hlt : w < s.numClient) :
    src.LinkOk md5 (s.workers w).pc.engaged (s.workers w).pc.awaits (s.conns w) (s.servers w) :=
  hs.link w hlt (Or.inr ⟨hw, hse⟩)

/-- From `pc` to `pc'` a worker stays on its connection, and waits there for what it waited
for before. -/
structure WorkerPc.Stays (pc pc' : WorkerPc) : Prop where
  unfinished : pc.finished = false
  engaged : pc'.engaged = pc.engaged
  awaits : pc'.awaits = pc.awaits
  forked : pc' ≠ .notForked

/-- A step inside the loop that neither sends nor receives and does not touch a chunk. -/
theorem Source.Faithful.quiet (hs : src.Faithful md5 s) (ho : Orderly s') {pc : WorkerPc}
    (hw : (s.workers w).pc = pc) {wk : Worker} {mdata : Metadata} {lock : Option Nat}
    (hs' : s' = { s with workers := update s.workers w wk, mdata := mdata, lock := lock })
    (hstays : pc.Stays wk.pc)
    (hse : wk.sock_error = (s.workers w).sock_error) (hmdata : src.Good md5 s.localFile mdata)
    (hwk : src.WorkerOk md5 s.localFile wk) : src.Faithful md5 s' := by
  subst hw hs'
  refine hs.move ho hstays.unfinished rfl rfl rfl rfl hmdata (fun _ _ => rfl) rfl hwk
    fun hlt hl => ?_
  rw [hstays.engaged, hstays.awaits]
  exact hs.linkOk hstays.unfinished (hse ▸ (hl.resolve_left hstays.forked).2) hlt

/-- A worker reads what the server has sent: it is the chunk it has asked for, or the
connection has failed. -/
theorem Source.Faithful.receive (hs : src.Faithful md5 s) {k : Nat}
    {script : List (List ReadResult)} (ho : Orderly (Download.receive s w k script))
    (hw : (s.workers w).pc = .receive k) : src.Faithful md5 (Download.receive s w k script) := by
  obtain ⟨wk, toClient, he, hmeta, -, hcase⟩ := receive_cases s w k script
  rw [he] at ho ⊢
  have hgood := (hs.worker w).good (by rw [hw]; rfl)
  have hk := (hs.worker w).chunk k (by rw [hw]; rfl)
  have hse := hs.sock_error w
  rw [SockErrorOk, hw] at hse
  have hlink := hs.linkOk (w := w) (by rw [hw]; rfl) hse
    (hs.lt_numClient (by rw [hw]; rfl))
  rw [hw] at hlink
  have hconns : ∀ v, v ≠ w → update s.conns w { s.conns w with toClient } v = s.conns v :=
    fun v hv => update_of_ne _ _ hv
  rcases hcase with ⟨hpc, hfail⟩ | hpc | ⟨data, size, hpc, -, hsize, hread, hdata⟩
  · refine hs.move ho (w := w) (by rw [hw]; rfl) rfl rfl rfl rfl hs.file hconns rfl
      ⟨fun _ => hmeta ▸ hgood, fun j hj => ?_, by simp [hpc], by simp [hfail]⟩ fun _ hl => ?_
    · rw [hpc] at hj
      exact Option.some.inj hj ▸ hk
    · rcases hl with hl | ⟨-, hl⟩
      · rw [hpc] at hl; cases hl
      · rw [hfail] at hl; cases hl
  · refine hs.move ho (w := w) (by rw [hw]; rfl) rfl rfl rfl rfl hs.file hconns rfl
      ⟨fun _ => hmeta ▸ hgood, fun j hj => ?_, by simp [hpc], by simp [hpc]⟩ fun _ hl => ?_
    · rw [hpc] at hj
      exact Option.some.inj hj ▸ hk
    · rcases hl with hl | ⟨hl, -⟩ <;> rw [hpc] at hl <;> cases hl
  · obtain ⟨hmd5, rfl, hlink'⟩ := hlink.receive hk hsize hread hdata
    refine hs.move ho (w := w) (by rw [hw]; rfl) rfl rfl rfl rfl hs.file hconns rfl
      ⟨fun _ => hmeta ▸ hgood, fun j hj => ?_, fun j data hj => ?_, by simp [hpc]⟩ fun _ _ => ?_
    · rw [hpc] at hj
      exact Option.some.inj hj ▸ hk
    · rw [hpc] at hj
      cases hj
      exact ⟨rfl, hmd5⟩
    · rw [hpc]
      simp only [State.setConn, update_self]
      exact hlink'

/-- What a worker is about to write to the local file is its chunk, and goes to its place. -/
theorem Source.Faithful.store_place (hs : src.Faithful md5 s) {k : Nat} {data : List UInt8}
    (hw : (s.workers w).pc = .store k data) :
    src.Has k ∧ data = src.chunk k ∧
      seek (s.workers w).filePos (k * (s.workers w).metadata.chunkSize) = k * src.chunkSize := by
  have hgood := (hs.worker w).good (by rw [hw]; rfl)
  have hk := (hs.worker w).chunk k (by rw [hw]; rfl)
  refine ⟨hk, ((hs.worker w).store k data hw).1, ?_⟩
  rw [hgood.chunkSize, seek_mul _ (hk.lt.trans src.length_lt)]

/-- A worker writes its chunk to the local file. -/
theorem Source.Faithful.store (hs : src.Faithful md5 s) (ho : Orderly s') {k pos : Nat}
    {data : List UInt8} (hw : (s.workers w).pc = .store k data)
    (hpos : pos = seek (s.workers w).filePos (k * (s.workers w).metadata.chunkSize))
    (hs' : s' =
      { s.setWorker w { s.workers w with pc := .update k, filePos := pos + data.length } with
        localFile := pwrite s.localFile pos data }) : src.Faithful md5 s' := by
  subst hs'
  have hgood := (hs.worker w).good (by rw [hw]; rfl)
  have hmd5 := ((hs.worker w).store k data hw).2
  obtain ⟨hk, rfl, hplace⟩ := hs.store_place hw
  have hpos' : pos = k * src.chunkSize := hpos.trans hplace
  have hwhole : src.chunk k = (src.chunk k).take (src.chunk k).length := List.take_length.symm
  subst hpos'
  refine ⟨ho, ?_, fun h => ?_, fun v => ?_, fun v hlt hl => ?_⟩
  · show src.Good md5 (pwrite s.localFile _ (src.chunk k)) s.mdata
    rw [hwhole]
    exact hs.file.pwrite
  · rcases hs.active (w := w) (by rw [hw]; rfl) with ⟨i, hi⟩ | hi | hi <;>
      simp [State.setWorker, hi] at h
  · show src.WorkerOk md5 (pwrite s.localFile _ (src.chunk k)) (update s.workers w _ v)
    by_cases hv : v = w
    · rw [hv, update_self]
      refine ⟨fun _ => ?_, fun j hj => ?_, by simp, fun j hj _ => ?_⟩
      · rw [hwhole]
        exact hgood.pwrite
      · exact Option.some.inj hj ▸ hk
      · obtain rfl : k = j := by simpa using hj
        exact ⟨ChunkedFile.stored_pwrite hk, hmd5⟩
    · rw [update_of_ne _ _ hv, hwhole]
      exact (hs.worker v).pwrite
  · show src.LinkOk md5 (update s.workers w _ v).pc.engaged (update s.workers w _ v).pc.awaits
      (s.conns v) (s.servers v)
    replace hl : (update s.workers w _ v).linked := hl
    by_cases hv : v = w
    · subst v
      rw [update_self] at hl ⊢
      have hlink := hs.linkOk (w := w) (by rw [hw]; rfl) (hl.resolve_left (by simp)).2 hlt
      rw [hw] at hlink
      exact hlink
    · rw [update_of_ne _ _ hv] at hl ⊢
      exact hs.link v hlt hl

/-- A server answers what it is asked. -/
theorem Source.Faithful.server (hs : src.Faithful md5 s) (hhosted : src.Hosted s)
    (ho : Orderly s') {script : List (List ReadResult)} {junk : Nat → UInt8} {r : Served}
    (hr : (s.servers w).step md5 junk (s.hosts w)
      ⟨(s.conns w).toServer, script, (s.conns w).short⟩ = some r)
    (hs' : s' = { s with
      servers := Library.update s.servers w r.server
      hosts := Library.update s.hosts w r.dir
      conns := Library.update s.conns w
        ⟨r.wire.unread, (s.conns w).toClient ++ r.out, r.wire.short⟩ })
    (ha : AnswersIntact s (.server w script junk) s') : src.Faithful md5 s' := by
  subst hs'
  refine ⟨ho, hs.file, hs.copy, hs.worker, fun v hlt hl => ?_⟩
  show src.LinkOk md5 _ _ (update s.conns w _ v) (update s.servers w _ v)
  by_cases hv : v = w
  · subst v
    rw [update_self, update_self]
    refine (hs.link w hlt hl).server (fun k hk => (hs.worker w).chunk k ?_) (hhosted w hlt) hr
      fun hout => ?_
    · cases hpc : (s.workers w).pc <;> rw [hpc] at hk <;> cases hk
      rfl
    · have hanswers : (update s.conns w ⟨r.wire.unread, (s.conns w).toClient ++ r.out,
          r.wire.short⟩ w).toClient ≠ (s.conns w).toClient →
          (update s.conns w ⟨r.wire.unread, (s.conns w).toClient ++ r.out,
            r.wire.short⟩ w).short = false := ha
      rw [update_self] at hanswers
      exact hanswers fun he => hout (List.append_cancel_left (he.trans (List.append_nil _).symm))
  · rw [update_of_ne _ _ hv, update_of_ne _ _ hv]
    exact hs.link v hlt hl

/-- **Every step keeps the invariant**, if the server answers on intact connections only. -/
theorem faithful_step (hs : src.Faithful md5 s) (hhosted : src.Hosted s)
    (ha : AnswersIntact s a s') (h : (machine md5).step s a = some s') : src.Faithful md5 s' := by
  have ho : Orderly s' := orderly_step hs.toOrderly h
  have sock (w : Nat) := hs.sock_error w
  cases step_cases h with
  | load => exact hs.parent ho rfl rfl rfl rfl rfl hs.file fun _ => hs.file
  | save hpc =>
    have hgood := (hs.copy (Or.inl hpc)).setInUse 1
    exact hs.parent ho rfl rfl rfl rfl rfl hgood fun _ => hgood
  | finish hpc =>
    have hgood := (hs.copy (Or.inr (Or.inl hpc))).setInUse 0
    exact hs.parent ho rfl rfl rfl rfl rfl hgood fun _ => hgood
  | killSave hpc =>
    have hgood := (hs.copy (Or.inr (Or.inr hpc))).resetDownloadingChunks
    exact hs.parent ho rfl rfl rfl rfl rfl hgood fun _ => hgood
  | wait | killLoad => exact hs.parent ho rfl rfl rfl rfl rfl hs.file fun _ => hs.file
  | refuse | forkFails | sigint =>
    exact hs.parent ho rfl rfl rfl rfl rfl hs.file (by simp)
  | @fork i hpc hn hi =>
    have habsent := hs.forked i hpc i le_rfl
    refine ⟨ho, hs.file, by simp, fun w => ?_, fun w hlt hl => ?_⟩
    · exact forall_update (.of_chunk_none (fun h => by cases h) rfl) hs.worker w
    · show src.LinkOk md5 (update s.workers i _ w).pc.engaged (update s.workers i _ w).pc.awaits
        (s.conns w) (s.servers w)
      replace hl : (update s.workers i _ w).linked := hl
      by_cases hw : w = i
      · -- nobody has used this connection
        subst w
        have := hs.link i hi (Or.inl habsent)
        rw [habsent] at this
        rw [update_self]
        exact this
      · rw [update_of_ne _ _ hw] at hl ⊢
        exact hs.link w hlt hl
  | @«open» w hw =>
    refine hs.move ho (w := w) (by rw [hw]; rfl) rfl rfl rfl rfl hs.file
      (fun v hv => update_of_ne _ _ hv) rfl
      (.of_chunk_none (fun _ => hs.file) rfl) fun hlt hl => ?_
    have hse := sock w
    rw [SockErrorOk, hw] at hse
    have hlink := hs.linkOk (w := w) (by rw [hw]; rfl) hse hlt
    rw [hw] at hlink
    have hheader := hs.file.header
    simp only [State.send, State.setConn, update_self, hheader]
    exact hlink.open
  | @lockClaim w _ hw =>
    exact hs.quiet ho hw rfl ⟨rfl, rfl, rfl, by simp⟩ rfl hs.file
      (.of_chunk_none (fun _ => (hs.worker w).good (by rw [hw]; rfl)) rfl)
  | @lockUpdate w k _ hw =>
    refine hs.quiet ho hw rfl ⟨rfl, rfl, rfl, by simp⟩ rfl hs.file
      ⟨fun _ => (hs.worker w).good (by rw [hw]; rfl), fun j hj => ?_, by simp, fun j hj => ?_⟩
    · exact (hs.worker w).chunk j (by rw [hw]; exact hj)
    · obtain rfl : k = j := by simpa using hj
      exact (hs.worker w).update k (Or.inl hw)
  | @loadClaim w hw =>
    exact hs.quiet ho hw rfl ⟨rfl, rfl, rfl, by simp⟩ rfl hs.file
      (.of_chunk_none (fun _ => hs.file) rfl)
  | @loadUpdate w k hw =>
    refine hs.quiet ho hw rfl ⟨rfl, rfl, rfl, by simp⟩ rfl hs.file
      ⟨fun _ => hs.file, fun j hj => ?_, by simp, fun j hj => ?_⟩
    · exact (hs.worker w).chunk j (by rw [hw]; exact hj)
    · obtain rfl : k = j := by simpa using hj
      exact (hs.worker w).update k (Or.inr (Or.inl hw))
  | @claim w k m hw hk hm =>
    subst hm
    have hgood := (hs.worker w).good (by rw [hw]; rfl)
    have hgood' : src.Good md5 s.localFile
        ((s.workers w).metadata.setChunkStatus k .chDownload none) :=
      hgood.setChunkStatus fun h => by cases h
    refine hs.quiet ho hw rfl ⟨rfl, rfl, rfl, by simp⟩ rfl (hs.file.updateControlData hgood')
      ⟨fun _ => hgood', fun j hj => ?_, by simp, by simp⟩
    obtain rfl := Option.some.inj hj
    exact hgood.has (ClaimTable.findIdx?_some hk).1
  | @giveUp w hw _ =>
    exact hs.quiet ho hw rfl ⟨rfl, rfl, rfl, by simp⟩ rfl hs.file
      (.of_chunk_none (fun _ => (hs.worker w).good (by rw [hw]; rfl)) rfl)
  | @releaseClaim w k hw =>
    exact hs.quiet ho hw rfl ⟨rfl, rfl, rfl, by simp⟩ rfl hs.file
      ((hs.worker w).goto (by rw [hw]; rfl) (by rw [hw]; rfl) (.inl rfl))
  | @releaseUpdate w c hw =>
    exact hs.quiet ho hw rfl ⟨rfl, rfl, rfl, by simp⟩ rfl hs.file
      (.of_chunk_none (fun _ => (hs.worker w).good (by rw [hw]; rfl)) rfl)
  | @request w k hw =>
    refine hs.move ho (w := w) (by rw [hw]; rfl) rfl rfl rfl rfl hs.file
      (fun v hv => update_of_ne _ _ hv) rfl
      ((hs.worker w).goto (by rw [hw]; rfl) (by rw [hw]; rfl) (.inr (.inl rfl))) fun hlt hl => ?_
    have hse := sock w
    rw [SockErrorOk, hw] at hse
    have hlink := hs.linkOk (w := w) (by rw [hw]; rfl) hse hlt
    rw [hw] at hlink
    simp only [State.send, State.setConn, update_self]
    exact hlink.request
  | @sigpipeStart w hw =>
    exact hs.quiet ho hw rfl ⟨rfl, rfl, rfl, by simp⟩ rfl hs.file
      (.of_chunk_none (fun h => by cases h) rfl)
  | @sigpipeRequest w k hw =>
    exact hs.quiet ho hw rfl ⟨rfl, rfl, rfl, by simp⟩ rfl hs.file
      ((hs.worker w).goto (by rw [hw]; rfl) (by rw [hw]; rfl) (.inr (.inr rfl)))
  | @update w k m hw hm =>
    subst hm
    have hgood : src.Good md5 s.localFile ((s.workers w).metadata.setChunkStatus k
        (if (s.workers w).sock_error then .chError else .chOk)
        (some (s.workers w).rcv_md5sum)) := by
      refine ((hs.worker w).good (by rw [hw]; rfl)).setChunkStatus fun h => ?_
      cases hse : (s.workers w).sock_error with
      | true => rw [hse] at h; cases h
      | false =>
        -- the worker has written the chunk and has its MD5
        obtain ⟨hstored, hmd5⟩ := (hs.worker w).update k (Or.inr (Or.inr hw)) hse
        exact ⟨hstored, by rw [hmd5]⟩
    exact hs.quiet ho hw rfl ⟨rfl, rfl, rfl, by simp⟩ rfl (hs.file.updateControlData hgood)
      (.of_chunk_none (fun _ => hgood) rfl)
  | @test w c hw =>
    have hgood := (hs.worker w).good (by rw [hw]; rfl)
    refine hs.quiet ho hw rfl ⟨rfl, ?_, ?_, ?_⟩ rfl hs.file
      (.of_chunk_none (fun _ => hgood) ?_)
    all_goals
      dsimp only
      split <;> simp [WorkerPc.engaged, WorkerPc.awaits, WorkerPc.chunk]
  | receive hw => exact hs.receive ho hw
  | store hw hpos => exact hs.store ho hw hpos rfl
  | server hr => exact hs.server hhosted ho hr rfl ha

end Run
end Mhftp.Download
