import Mhftp.DownloadFile
import Mhftp.UploadBlocking

/-! # What is put is what one gets

A file that mhclient has uploaded is downloaded again, from the file that the upload has left on
the server.  The two runs may use other numbers of connections and other chunk sizes.
-/

namespace Mhftp
open Library

/-- A first upload, to servers without a folder of the name and over connections that do not
fail, up to where nobody can go on. -/
structure Upload.Puts (md5 : Md5) (s₀ : Upload.State) (as : List Upload.Act) (s : Upload.State) :
    Prop where
  initial : Upload.Initial s₀
  mdata : s₀.mdata = none
  chunk_size : 1 ≤ s₀.chunk_size ∧ s₀.chunk_size ≤ maxChunkSize
  table : 32 * chunkCount s₀.localFile.length s₀.chunk_size ≤ maxCount
  noFolder : s₀.dir.isFolder (absoluteFile s₀.local_file.path) = false
  numClient : 1 ≤ s₀.numClient ∧ s₀.numClient ≤ nproc
  run : (Upload.machine md5).run s₀ as = some s
  blocking : (Upload.machine md5).Along Upload.Blocking s₀ as
  ordinary : ∀ a ∈ as, a.ordinary = true
  stuck : ¬ Upload.Moves md5 s

/-- A first download of a file that all hosts have, likewise. -/
structure DownloadFile.Gets (lib : Md5Library) (content : List UInt8) (s₀ : DownloadFile.State)
    (as : List DownloadFile.Act) (s : DownloadFile.State) : Prop where
  initial : DownloadFile.Initial s₀
  transferable : DownloadFile.Transferable s₀ content
  hasMdata : s₀.hasMdata = false
  numClient : 1 ≤ s₀.run.numClient ∧ s₀.run.numClient ≤ nproc
  hosts : ∀ w < s₀.run.numClient, s₀.run.hosts w s₀.file = some (.file content)
  run : (DownloadFile.machine lib).run s₀ as = some s
  blocking : (DownloadFile.machine lib).Along DownloadFile.blocking s₀ as
  ordinary : ∀ a ∈ as, a.ordinary = true
  stuck : ¬ DownloadFile.Moves lib s

section Transfer
variable {md5 : Md5} {lib : Md5Library} {content : List UInt8} {u₀ u : Upload.State}
  {us : List Upload.Act} {d₀ d : DownloadFile.State} {ds : List DownloadFile.Act}

theorem Upload.Puts.uploaded (h : Upload.Puts md5 u₀ us u) :
    ∃ g, u.dir (absoluteFile u₀.local_file.path) = some (.file g) ∧
      g.take u₀.localFile.length = u₀.localFile ∧
      (g = u₀.localFile ↔ (u₀.dir.content (absoluteFile u₀.local_file.path)).length ≤
        u₀.localFile.length) :=
  (Upload.uploaded_of_stuck h.initial h.mdata h.chunk_size (lt_of_le_maxCount h.table) h.noFolder
    h.numClient h.blocking h.ordinary h.run h.stuck).2.2.2

theorem DownloadFile.Gets.downloaded (hlib : lib.Lawful)
    (h : DownloadFile.Gets lib content d₀ ds d) :
    d.run.localFile.take content.length = content ∧
      (d₀.run.localFile.length ≤ content.length →
        d.run.localFile = content ∧ d.pc = .checked false) := by
  have hone := h.numClient.1
  obtain ⟨hstage, hkept⟩ := DownloadFile.stage_run hlib h.initial h.transferable h.hasMdata
    (h.hosts 0 (by omega)) h.run h.blocking h.ordinary
  obtain ⟨-, htake, corrupted, hpc, -, hwhole⟩ :=
    hstage.checked hkept hone h.numClient.2 h.hosts h.stuck
  refine ⟨htake, fun hshort => ?_⟩
  obtain ⟨hfile, rfl⟩ := hwhole hshort
  exact ⟨hfile, hpc⟩

end Transfer

/-- **What is put is what one gets.**  After an upload a download of the file that it has left
on the server begins with the uploaded file, whatever the order of the steps of both; and it is
this file, and mhclient finds it intact, if neither the server had a longer file before the
upload nor the client before the download. -/
theorem put_get (md5 : Md5) {lib : Md5Library} (hlib : lib.Lawful) {g : List UInt8}
    {u₀ u : Upload.State} {us : List Upload.Act} {d₀ d : DownloadFile.State}
    {ds : List DownloadFile.Act} (hput : Upload.Puts md5 u₀ us u)
    (hserver : u.dir (absoluteFile u₀.local_file.path) = some (.file g))
    (hget : DownloadFile.Gets lib g d₀ ds d) :
    d.run.localFile.take u₀.localFile.length = u₀.localFile ∧
      ((u₀.dir.content (absoluteFile u₀.local_file.path)).length ≤ u₀.localFile.length →
        d₀.run.localFile.length ≤ u₀.localFile.length →
        d.run.localFile = u₀.localFile ∧ d.pc = .checked false) := by
  obtain ⟨g', hg', hput, hwhole⟩ := hput.uploaded
  obtain rfl := Node.file.inj (Option.some.inj (hg'.symm.trans hserver))
  obtain ⟨hget, hequal⟩ := hget.downloaded hlib
  have hle : u₀.localFile.length ≤ g'.length := by
    have hlength := congrArg List.length hput
    rw [List.length_take] at hlength
    omega
  constructor
  · calc d.run.localFile.take u₀.localFile.length
        = (d.run.localFile.take g'.length).take u₀.localFile.length := by
          rw [List.take_take, min_eq_left hle]
      _ = u₀.localFile := by rw [hget, hput]
  · intro hremote hlocal
    obtain rfl := hwhole.mpr hremote
    exact hequal hlocal

/-- An upload of the file [1, 2] in one chunk. -/
theorem puts_sample : ∃ u, u.dir [97] = some (.file [1, 2]) ∧
    Upload.Puts (fun _ => Buffer.zero _)
      (.begin 2 2 Upload.sampleName [1, 2] none fun _ => none) Upload.sampleToEnd u := by
  obtain ⟨u, hu, hpc, hfile, hserved⟩ : ∃ u,
      (Upload.machine fun _ => Buffer.zero _).run
        (.begin 2 2 Upload.sampleName [1, 2] none fun _ => none) Upload.sampleToEnd = some u ∧
        u.pc = .ended ∧ u.dir [97] = some (.file [1, 2]) ∧ u.AllServed := Machine.exists_run
          (by decide +kernel)
  have h₀ := Upload.initial_begin 2 2 Upload.sampleName [1, 2] none fun _ => none
  exact ⟨u, hfile, h₀, rfl, ⟨by decide, by rw [maxChunkSize_eq]; decide⟩,
    by rw [maxCount_eq]; decide, rfl, by decide, hu,
    by decide +kernel, by decide +kernel,
    Upload.not_moves_of_ended (Upload.orderly_run h₀.orderly hu) hpc hserved⟩

/-- A download of it in two chunks. -/
theorem gets_sample : ∃ d, DownloadFile.Gets DownloadFile.sampleLibrary [1, 2]
    (DownloadFile.sampleDownload false []) DownloadFile.sampleAll d := by
  obtain ⟨d, hd, hpc, hnum, hserver⟩ : ∃ d,
      (DownloadFile.machine DownloadFile.sampleLibrary).run (DownloadFile.sampleDownload false [])
        DownloadFile.sampleAll = some d ∧ d.pc = .checked false ∧ d.run.numClient = 1 ∧
          (d.run.conns 0).toServer = [] := Machine.exists_run (by decide +kernel)
  have hstuck : ¬ DownloadFile.Moves DownloadFile.sampleLibrary d :=
    DownloadFile.not_moves_of_checked hpc fun w hw => by
      obtain rfl : w = 0 := by omega
      exact hserver
  exact ⟨d, ⟨rfl, Download.initial_begin _ _ _ _⟩, DownloadFile.transferable_sampleDownload, rfl,
    by decide, fun w _ => rfl, hd, by decide +kernel, by decide +kernel, hstuck⟩

theorem put_get_sample : ∃ d, (DownloadFile.machine DownloadFile.sampleLibrary).run
    (DownloadFile.sampleDownload false []) DownloadFile.sampleAll = some d ∧
    d.run.localFile = [1, 2] ∧ d.pc = .checked false := by
  obtain ⟨u, hserver, hput⟩ := puts_sample
  obtain ⟨d, hget⟩ := gets_sample
  exact ⟨d, hget.run, (put_get _ DownloadFile.lawful_sampleLibrary hput hserver hget).2
    (by decide) (by decide)⟩

end Mhftp
