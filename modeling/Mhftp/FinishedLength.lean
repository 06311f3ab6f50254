import Mhftp.DownloadHistory
import Mhftp.UploadCompletion

/-! # The length of a finished transfer

Nobody opens the file that is transferred to with O_TRUNC: neither the workers of a download
nor `InitUpload` and `ReceiveChunkFromClient` take anything away that is there
(`ChunkedFile.NothingRemoved`), and what was there before behind the end of the source stays,
too.  A transfer writes chunks to their places, so the finished file is as long as the source
exactly if it was not longer before (`finished_length_iff`).
-/

namespace Mhftp
open Library

/-! ### Files that chunks are written to -/

/-- The file has been written to in one place at most. -/
def OnlyWrites (g g' : List UInt8) : Prop := ∃ pos data, g' = pwrite g pos data

theorem onlyWrites_self (g : List UInt8) : OnlyWrites g g := ⟨0, [], pwrite_nil.symm⟩

namespace ChunkedFile
variable (src : ChunkedFile)

/-- The file is as it was, or a chunk has been written to its place. -/
inductive Writes (g : List UInt8) : List UInt8 → Prop
  | nothing : Writes g g
  | chunk {k} : src.Has k → Writes g (pwrite g (k * src.chunkSize) (src.chunk k))

/-- The file is not shorter, and the chunks that were in it still are. -/
structure NothingRemoved (g g' : List UInt8) : Prop where
  length : g.length ≤ g'.length
  stored : ∀ k, src.Has k → src.Stored g k → src.Stored g' k

/-- What a file that was `g₀` can have grown to. -/
structure Grown (g₀ g : List UInt8) : Prop where
  length : g₀.length ≤ g.length
  bound : g.length ≤ max g₀.length src.content.length

variable {src} {g₀ g g' : List UInt8}

theorem grown_self (g : List UInt8) : src.Grown g g := ⟨le_rfl, le_max_left _ _⟩

theorem Has.end_le {k : Nat} (hk : src.Has k) :
    k * src.chunkSize + (src.chunk k).length ≤ src.content.length := by
  have hlt := hk.lt
  rw [hk.length_chunk, size]
  omega

theorem Writes.nothingRemoved (h : src.Writes g g') : src.NothingRemoved g g' := by
  cases h with
  | nothing => exact ⟨le_rfl, fun _ _ => id⟩
  | @chunk j hj =>
    refine ⟨?_, fun k hk hstored => ?_⟩
    · rw [length_pwrite]
      split <;> omega
    · have hkept := hstored.pwrite hk (j := j) (n := (src.chunk j).length)
      rwa [List.take_length] at hkept

theorem Grown.writes (hg : src.Grown g₀ g) (h : src.Writes g g') : src.Grown g₀ g' := by
  refine ⟨hg.length.trans h.nothingRemoved.length, ?_⟩
  have hbound := hg.bound
  cases h with
  | nothing => exact hbound
  | chunk hk =>
    have hend := hk.end_le
    rw [length_pwrite]
    split <;> omega

/-- **A file in which all chunks are stored in the end** has the length of the source exactly
if it was not longer at the start. -/
theorem Grown.length_eq_iff (hg : src.Grown g₀ g) (hall : g.take src.content.length = src.content) :
    g.length = src.content.length ↔ g₀.length ≤ src.content.length := by
  have hle : src.content.length ≤ g.length := by
    have hlength := congrArg List.length hall
    rw [List.length_take] at hlength
    omega
  obtain ⟨hlength, hbound⟩ := hg
  omega

end ChunkedFile

/-! ### Downloads -/

namespace Download
variable {src : Source} {md5 : Md5} {s₀ s s' : State} {a : Act}

/-- In no run the local file is truncated. -/
theorem localFile_step (h : (machine md5).step s a = some s') :
    OnlyWrites s.localFile s'.localFile := by
  cases step_cases h with
  | store => exact ⟨_, _, rfl⟩
  | receive =>
    obtain ⟨wk, toClient, he, -⟩ := receive_cases s _ _ _
    rw [he]
    exact onlyWrites_self _
  | _ => exact onlyWrites_self _

/-- What is written is a chunk. -/
theorem Source.Faithful.writes (hs : src.Faithful md5 s) (h : (machine md5).step s a = some s') :
    src.Writes s.localFile s'.localFile := by
  cases step_cases h with
  | @store w k data pos hw hpos =>
    obtain ⟨hk, rfl, hplace⟩ := hs.store_place hw
    rw [hpos, hplace]
    exact .chunk hk
  | receive =>
    obtain ⟨wk, toClient, he, -⟩ := receive_cases s _ _ _
    rw [he]
    exact .nothing
  | _ => exact .nothing

/-- A download run with the new .mdata file that `DownloadMetadataFromServer` writes, in
which the hosts keep the file and the servers answer on intact connections only, to an end
where all chunks are CH_OK. -/
structure Source.Finishes (src : Source) (md5 : Md5) (s₀ : State) (as : List Act) (s : State) :
    Prop extends Initial s₀ where
  mdata : ∃ inUse, s₀.mdata = (src.header md5).fresh inUse
  hosted : src.Hosted s₀ ∧ (machine md5).Along (fun _ _ s' => src.Hosted s') s₀ as
  answers : (machine md5).Along AnswersIntact s₀ as
  run : (machine md5).run s₀ as = some s
  ok : ∀ c ∈ s.mdata.chunkInfo, c.status = .chOk

theorem Source.Finishes.length_iff {as : List Act} (h : src.Finishes md5 s₀ as s) :
    (s.localFile.length = src.content.length ↔ s₀.localFile.length ≤ src.content.length) ∧
      (machine md5).Along (fun s _ s' => src.NothingRemoved s.localFile s'.localFile) s₀ as := by
  obtain ⟨inUse, hmdata⟩ := h.mdata
  have hfaithful : src.Faithful md5 s₀ :=
    h.toInitial.faithful (hmdata ▸ good_fresh src md5 _ inUse)
  obtain ⟨⟨hend, -, hgrown⟩, hkept⟩ := Machine.run_and_along
    (I := fun s => src.Faithful md5 s ∧ src.Hosted s ∧ src.Grown s₀.localFile s.localFile)
    (Q := fun s _ s' => src.NothingRemoved s.localFile s'.localFile)
    (fun s a s' hs ha h => by
      have hwrites := hs.1.writes h
      exact ⟨⟨faithful_step hs.1 hs.2.1 ha.2 h, ha.1, hs.2.2.writes hwrites⟩,
        hwrites.nothingRemoved⟩)
    ⟨hfaithful, h.hosted.1, ChunkedFile.grown_self _⟩ (h.hosted.2.and h.answers) h.run
  exact ⟨hgrown.length_eq_iff (hend.file.take_eq h.ok), hkept⟩

end Download
/-! ### Uploads -/

namespace MhProtoServer
variable {md5 : Md5} {junk : Nat → UInt8} {srv : MhProtoServer} {dir : Dir} {w : Wire} {r : Served}

theorem writeChunk_onlyWrites {file : Option Path} {pos : Nat} {chunkNumber chunkSize : Int}
    {buffer : Nat → UInt8} (p : Path) : OnlyWrites (dir.content p)
      ((srv.writeChunk file pos chunkNumber chunkSize buffer dir w).dir.content p) := by
  unfold writeChunk
  cases file with
  | none => exact onlyWrites_self _
  | some f =>
    dsimp only
    by_cases hp : p = f
    · subst p
      rw [content_update_self]
      exact ⟨_, _, rfl⟩
    · rw [content_congr (update_of_ne _ _ hp)]
      exact onlyWrites_self _

theorem receiveChunkTurn_onlyWrites {file : Option Path} {pos : Nat} {chunkNumber chunkSize : Int}
    {buffer : Nat → UInt8} (p : Path) : OnlyWrites (dir.content p)
      ((srv.receiveChunkTurn file pos chunkNumber chunkSize buffer dir w).dir.content p) := by
  obtain ⟨v, -, ⟨pc, -, hturn⟩ | ⟨n, m, b, hturn⟩⟩ := receiveChunkTurn_cases
  · rw [hturn]
    exact onlyWrites_self _
  · rw [hturn]
    exact writeChunk_onlyWrites p

theorem initUpload_onlyWrites (p : Path) :
    OnlyWrites (dir.content p) ((srv.initUpload junk dir w).dir.content p) := by
  unfold initUpload
  dsimp only
  split
  · exact onlyWrites_self _
  · -- the file that is created is empty, and one that is there stays as it is
    dsimp only
    generalize absoluteFile _ = f
    by_cases hp : p = f
    · rw [hp, content_touch]
      exact onlyWrites_self _
    · rw [content_congr (touch_of_ne hp)]
      exact onlyWrites_self _

/-- **No step of a server process truncates a file.** -/
theorem step_onlyWrites (hr : srv.step md5 junk dir w = some r) (p : Path) :
    OnlyWrites (dir.content p) (r.dir.content p) := by
  unfold step at hr
  split at hr <;> cases hr
  · unfold rcvCmd
    dsimp only
    split
    · exact onlyWrites_self _
    split
    · rw [sendChunkToClient_dir]
      exact onlyWrites_self _
    split
    · rw [sendMetadataToClient_dir]
      exact onlyWrites_self _
    split
    · exact onlyWrites_self _
    split
    · exact initUpload_onlyWrites p
    · exact onlyWrites_self _
  · rw [sendChunkTurn_dir]
    exact onlyWrites_self _
  · exact receiveChunkTurn_onlyWrites p

end MhProtoServer

namespace Upload
variable {src : Source} {md5 : Md5} {t₀ : List ChunkInfo} {s₀ s s' : State} {a : Act}
  {pending : Nat → List Nat}

theorem dir_step (h : (machine md5).step s a = some s') (p : Path) :
    OnlyWrites (s.dir.content p) (s'.dir.content p) := by
  cases step_cases h with
  | server hr => exact MhProtoServer.step_onlyWrites hr p
  | _ => exact onlyWrites_self _

/-- What is written on connections that do not fail is a chunk. -/
theorem Source.Linked.writes (hs : src.Linked (fun _ => True) t₀ s pending)
    (hcalm : Calm (fun _ => True) s a s') (h : (machine md5).step s a = some s') :
    src.Writes (src.remoteFile s) (src.remoteFile s') := by
  cases step_cases h with
  | @server w script junk r hr =>
    obtain ⟨rfl, hclosed⟩ : script = [] ∧ (r.wire.short = true → s.Closed) := by
      simpa using hcalm trivial
    obtain ⟨ks', -, hwrote⟩ := (hs.link w trivial).server (hs.sendable w trivial)
      hs.noFolder hr fun hshort => Or.inr (hclosed hshort)
    unfold Source.remoteFile
    dsimp only
    generalize hdir : r.dir = dir at hwrote
    generalize hks : pending w = ks at hwrote
    cases hwrote with
    | nothing => exact .nothing
    | touched =>
      rw [content_touch]
      exact .nothing
    | @chunk k _ he =>
      rw [content_update_self]
      exact .chunk (hs.sendable w trivial k (by rw [hks, he]; exact List.mem_cons_self)).has
  | _ => exact .nothing

/-- An upload run without an .mdata file, on connections that do not fail and to a directory
without a folder of that name, to an end where all chunks are CH_OK and the servers have read
what was sent. -/
structure Finishes (md5 : Md5) (s₀ : State) (as : List Act) (s : State) : Prop
    extends Initial s₀ where
  mdata : s₀.mdata = none
  chunkSize : 1 ≤ s₀.chunk_size ∧ s₀.chunk_size ≤ maxChunkSize
  table : 32 * chunkCount s₀.localFile.length s₀.chunk_size ≤ maxCount
  noFolder : s₀.dir.isFolder (absoluteFile s₀.local_file.path) = false
  calm : (machine md5).Along (Calm fun _ => True) s₀ as
  run : (machine md5).run s₀ as = some s
  read : ∀ w < s₀.numClient, (s.conns w).toServer = []
  ok : ∃ m, s.mdata = some m ∧ ∀ c ∈ m.chunkInfo, c.status = .chOk

theorem Finishes.table_lt {as : List Act} (h : Finishes md5 s₀ as s) :
    32 * chunkCount s₀.localFile.length s₀.chunk_size < 2 ^ 31 :=
  lt_of_le_maxCount h.table

/-- The local file in its chunks. -/
def Finishes.source {as : List Act} (h : Finishes md5 s₀ as s) : Source :=
  freshSource s₀ h.chunkSize h.table_lt

theorem Finishes.length_iff {as : List Act} (h : Finishes md5 s₀ as s) :
    ((h.source.remoteFile s).length = s₀.localFile.length ↔
        (h.source.remoteFile s₀).length ≤ s₀.localFile.length) ∧
      (machine md5).Along (fun s _ s' =>
        h.source.NothingRemoved (h.source.remoteFile s) (h.source.remoteFile s')) s₀ as := by
  let src := h.source
  obtain ⟨⟨⟨pending, hend⟩, hgrown⟩, hkept⟩ := Machine.run_and_along
    (I := fun s => (∃ pending, src.Delivering s₀.table s pending) ∧
      src.Grown (src.remoteFile s₀) (src.remoteFile s))
    (Q := fun s _ s' => src.NothingRemoved (src.remoteFile s) (src.remoteFile s'))
    (by
      rintro s a s' ⟨⟨pending, hs⟩, hgrown⟩ ⟨hcalm, hplaced⟩ hstep
      have hwrites := hs.toLinked.writes hcalm hstep
      exact ⟨⟨Source.delivering_step hs hcalm hplaced hstep, hgrown.writes hwrites⟩,
        hwrites.nothingRemoved⟩)
    ⟨⟨_, (completing_freshSource h.toInitial h.mdata h.chunkSize h.table_lt
      h.noFolder).toDelivering⟩, ChunkedFile.grown_self _⟩
    (h.calm.and (claimsPlaced_freshSource h.chunkSize h.table_lt as)) h.run
  obtain ⟨m, hm, hok⟩ := h.ok
  have hread : ∀ w < s.numClient, (s.conns w).toServer = [] := by
    rw [numClient_run h.run]
    exact h.read
  refine ⟨hgrown.length_eq_iff (hend.take_eq hread fun k hk => ?_), hkept⟩
  -- every chunk is CH_OK, so it has been sent
  have hlt : k < m.chunkInfo.length := by
    have hcount := hend.count
    have hlength := hend.length
    rw [State.table_of_some hm] at hlength
    unfold ChunkedFile.Has at hk
    omega
  refine hend.backed.table k _ ?_ (decide_eq_true (hok _ (List.getElem_mem hlt)))
  show s.table[k]? = _
  rw [State.table_of_some hm]
  exact List.getElem?_eq_getElem hlt

end Upload

/-! ### Both kinds of transfer -/

/-- **The length of a finished transfer.**  No step of a run truncates the file that is
transferred to.  At the end of a transfer that began without an .mdata file, on connections
that do not fail, and has made all chunks CH_OK, it is as long as the source exactly if it was
not longer before; and no chunk has been removed that was in it. -/
theorem finished_length_iff (md5 : Md5) :
    (∀ (s₀ : Download.State) as, (Download.machine md5).Along
      (fun s _ s' => OnlyWrites s.localFile s'.localFile) s₀ as) ∧
    (∀ (s₀ : Upload.State) as p, (Upload.machine md5).Along
      (fun s _ s' => OnlyWrites (s.dir.content p) (s'.dir.content p)) s₀ as) ∧
    (∀ (src : Download.Source) s₀ as s, src.Finishes md5 s₀ as s →
      (s.localFile.length = src.content.length ↔ s₀.localFile.length ≤ src.content.length) ∧
      (Download.machine md5).Along
        (fun s _ s' => src.NothingRemoved s.localFile s'.localFile) s₀ as) ∧
    ∀ s₀ as s, (h : Upload.Finishes md5 s₀ as s) →
      ((h.source.remoteFile s).length = s₀.localFile.length ↔
        (h.source.remoteFile s₀).length ≤ s₀.localFile.length) ∧
      (Upload.machine md5).Along (fun s _ s' =>
        h.source.NothingRemoved (h.source.remoteFile s) (h.source.remoteFile s')) s₀ as :=
  ⟨fun s₀ as => Machine.along_of_forall (fun _ _ _ => Download.localFile_step) s₀ as,
    fun s₀ as p => Machine.along_of_forall (fun _ _ _ h => Upload.dir_step h p) s₀ as,
    fun _ _ _ _ h => h.length_iff, fun _ _ _ h => h.length_iff⟩

/-- One worker downloads the two chunks of [1, 2]. -/
def sampleDownload : List Download.Act :=
  Download.sampleOpen ++ Download.sampleFetch [] ++ Download.sampleFetch []

def sampleDownloadTo (localFile : List UInt8) : Download.State :=
  { Download.sampleHistory.run with localFile }

theorem finishes_download {localFile : List UInt8} {s : Download.State}
    (hr : (Download.machine fun _ => Buffer.zero _).run (sampleDownloadTo localFile)
      sampleDownload = some s)
    (hhosted : (Download.machine fun _ => Buffer.zero _).Along
      (fun _ _ s' => Download.sampleSource.Hosted s') (sampleDownloadTo localFile) sampleDownload)
    (hanswers : (Download.machine fun _ => Buffer.zero _).Along Download.AnswersIntact
      (sampleDownloadTo localFile) sampleDownload)
    (hok : ∀ c ∈ s.mdata.chunkInfo, c.status = .chOk) :
    Download.sampleSource.Finishes (fun _ => Buffer.zero _) (sampleDownloadTo localFile)
      sampleDownload s where
  toInitial := ⟨rfl, rfl, rfl, fun _ => rfl, fun _ => rfl, fun _ => rfl⟩
  mdata := ⟨0, rfl⟩
  hosted := ⟨fun _ _ => rfl, hhosted⟩
  answers := hanswers
  run := hr
  ok := hok

/-- One connection over which the only chunk of [7] is uploaded to a directory with `remote`. -/
def sampleUploadTo (remote : Option Node) : Upload.State :=
  .begin 1 1 Upload.sampleName [7] none fun p => if p = [97] then remote else none

def sampleUploadOne : List Upload.Act :=
  Upload.sampleFork ++ .worker 0 (.open []) :: Upload.sampleChunk 0 ++ Upload.sampleGiveUp 0 ++
    [Upload.sampleServer 0, Upload.sampleServer 0, Upload.sampleServer 0, Upload.sampleServer 0]

theorem finishes_upload {remote : Option Node} {s : Upload.State}
    (hfolder : (sampleUploadTo remote).dir.isFolder [97] = false)
    (hr : (Upload.machine fun _ => Buffer.zero _).run (sampleUploadTo remote) sampleUploadOne =
      some s)
    (hcalm : (Upload.machine fun _ => Buffer.zero _).Along (Upload.Calm fun _ => True)
      (sampleUploadTo remote) sampleUploadOne)
    (hread : (s.conns 0).toServer = [])
    (hok : s.mdata.any fun m => m.chunkInfo.all fun c => c.status = .chOk) :
    Upload.Finishes (fun _ => Buffer.zero _) (sampleUploadTo remote) sampleUploadOne s where
  toInitial := Upload.initial_begin _ _ _ _ _ _
  mdata := rfl
  chunkSize := by
    show (1 : Int) ≤ 1 ∧ (1 : Int) ≤ maxChunkSize
    rw [maxChunkSize_eq]
    decide
  table := (by rw [maxCount_eq]; decide : (32 * chunkCount 1 1 : Int) ≤ maxCount)
  noFolder := hfolder
  calm := hcalm
  run := hr
  read := fun w hw => by
    obtain rfl : w = 0 := Nat.lt_one_iff.mp hw
    exact hread
  ok := by
    obtain ⟨m, hm, hall⟩ := (Option.any_eq_true _ _).mp hok
    exact ⟨m, hm, fun c hc => of_decide_eq_true (List.all_eq_true.mp hall c hc)⟩

/-- Into files that are not there, or not longer. -/
theorem finished_length_sample :
    (∃ s, (Download.machine fun _ => Buffer.zero _).run (sampleDownloadTo [5]) sampleDownload =
      some s ∧ s.localFile.length = 2) ∧
    ∃ s, (Upload.machine fun _ => Buffer.zero _).run (sampleUploadTo none) sampleUploadOne =
      some s ∧ (s.dir.content [97]).length = 1 := by
  obtain ⟨-, -, hdownload, hupload⟩ := finished_length_iff fun _ => Buffer.zero _
  constructor
  · obtain ⟨s, hs, hok⟩ : ∃ s, (Download.machine fun _ => Buffer.zero _).run (sampleDownloadTo [5])
        sampleDownload = some s ∧ ∀ c ∈ s.mdata.chunkInfo, c.status = .chOk :=
      Machine.exists_run (by decide +kernel)
    exact ⟨s, hs, (hdownload _ _ _ _ (finishes_download hs (by decide +kernel) (by decide +kernel)
      hok)).1.mpr (by decide)⟩
  · obtain ⟨s, hs, hread, hok⟩ : ∃ s, (Upload.machine fun _ => Buffer.zero _).run
        (sampleUploadTo none) sampleUploadOne = some s ∧ (s.conns 0).toServer = [] ∧
          s.mdata.any fun m => m.chunkInfo.all fun c => c.status = .chOk :=
      Machine.exists_run (by decide +kernel)
    exact ⟨s, hs, (hupload _ _ _ (finishes_upload rfl hs (by decide +kernel) hread hok)).1.mpr
      (Nat.zero_le 1)⟩

/-- Behind the end of the source the older content is still there, in a download as in an
upload. -/
theorem finished_length_fails :
    (∃ s, Download.sampleSource.Finishes (fun _ => Buffer.zero _) (sampleDownloadTo [5, 5, 5])
      sampleDownload s ∧ s.localFile = [1, 2, 5]) ∧
    ∃ s, Upload.Finishes (fun _ => Buffer.zero _) (sampleUploadTo (some (.file [5, 5])))
        sampleUploadOne s ∧ s.dir [97] = some (.file [7, 5]) := by
  constructor
  · obtain ⟨s, hs, hok, hlocal⟩ : ∃ s, (Download.machine fun _ => Buffer.zero _).run
        (sampleDownloadTo [5, 5, 5]) sampleDownload = some s ∧
          (∀ c ∈ s.mdata.chunkInfo, c.status = .chOk) ∧ s.localFile = [1, 2, 5] :=
      Machine.exists_run (by decide +kernel)
    exact ⟨s, finishes_download hs (by decide +kernel) (by decide +kernel) hok, hlocal⟩
  · obtain ⟨s, hs, hread, hok, hdir⟩ : ∃ s, (Upload.machine fun _ => Buffer.zero _).run
        (sampleUploadTo (some (.file [5, 5]))) sampleUploadOne = some s ∧
          (s.conns 0).toServer = [] ∧
          (s.mdata.any fun m => m.chunkInfo.all fun c => c.status = .chOk) ∧
          s.dir [97] = some (.file [7, 5]) :=
      Machine.exists_run (by decide +kernel)
    exact ⟨s, finishes_upload rfl hs (by decide +kernel) hread hok, hdir⟩

end Mhftp
