import Mhftp.CheckedTable
import Mhftp.DownloadPool
import Mhftp.UploadCompletion

/-! # Recovery

`resetDownloadingChunks` loads the .mdata file, clears its in_use byte, and puts CH_DOWNLOAD
and CH_ERROR back to CH_PENDING.  `getNextPendingChunk` passes over one status more,
CH_UPLOAD, so a file with a chunk that an upload has left behind is not repaired
(`recover_iff`).

A later transfer sees the reset table through its claims: they are the chunks that are not
CH_OK in it, in a download (`Download.claims_complete`) as in an upload
(`Upload.claims_restored`), where the parent's saves may have chunks claimed again.
-/

namespace Mhftp
open Library

/-! ### The .mdata file -/

/-- An entry in memory, with a clear padding. -/
def ChunkEntry.bytes (c : ChunkEntry) : List UInt8 :=
  c.md5sum.bytes ++ (encodeInt 8 c.size ++ (encodeInt 4 c.status ++ [0, 0, 0, 0]))

/-- The entry after `resetDownloadingChunks`. -/
def ChunkEntry.resetDownloading (c : ChunkEntry) : ChunkEntry :=
  if c.status = ChunkStatus.chDownload.code ∨ c.status = ChunkStatus.chError.code then
    { c with status := ChunkStatus.chPending.code }
  else c

namespace Loaded

/-- The file after `SaveMetadata`, whatever numbers the statuses are. -/
def saveMetadata (l : Loaded) (file : List UInt8) : List UInt8 :=
  pwriteAll file 0 (headerFields l.header.fileFull l.header.fileSize l.header.chunkSize
    l.header.chunks l.header.digest l.inUse ++
      [(l.chunkInfo.flatMap ChunkEntry.bytes).take maxCount])

/-- What `resetDownloadingChunks` saves. -/
def resetDownloading (l : Loaded) : Loaded :=
  { l with inUse := 0, chunkInfo := l.chunkInfo.map ChunkEntry.resetDownloading }

end Loaded

/-- The .mdata file after `resetDownloadingChunks`, called on an object that holds `obj`;
`none` where it ends the process. -/
def resetDownloadingChunks (obj : Loaded) (mdata : List UInt8) (force : Int) :
    Option (List UInt8) :=
  match loadMetadata obj mdata with
  | none => none
  | some l => if l.inUse ≠ 0 ∧ force = 0 then none else some (l.resetDownloading.saveMetadata mdata)

section File
variable {l : Loaded}

theorem ChunkEntry.length_bytes (c : ChunkEntry) : c.bytes.length = chunkInfoSize := by
  simp [bytes, c.md5sum.length, digestSize, chunkInfoSize]

theorem ChunkEntry.decode_entryBytes {c : ChunkEntry} (hsize : -2 ^ 63 ≤ c.size ∧ c.size < 2 ^ 63)
    (hstatus : -2 ^ 31 ≤ c.status ∧ c.status < 2 ^ 31) : decode c.bytes = c :=
  decode_fields c.md5sum hsize hstatus

/-- Of what has been loaded nothing is lost. -/
theorem Loaded.Fits.keepFront_eq (hl : l.Fits) :
    keepFront tableEntries clearedEntry.entry l.chunkInfo = l.chunkInfo :=
  keepFront_eq_iff.mpr hl.moved

/-- What is saved is loaded again, if the table has as many entries as the header says. -/
theorem Loaded.Fits.loadMetadata_saveMetadata (hl : l.Fits)
    (hcount : (l.chunkInfo.length : Int) = l.header.chunks) (obj : Loaded) (file : List UInt8) :
    loadMetadata obj (l.saveMetadata file) = some l := by
  -- metadata with the same header, whose table does not matter
  let m : Metadata := ⟨l.header.digest, l.header.fileSize, l.header.fileFull, l.header.chunkSize,
    l.chunkInfo.map fun c => ⟨c.md5sum, c.size, .chOk⟩, l.inUse⟩
  have hlength : m.chunkInfo.length = l.chunkInfo.length := List.length_map _
  have hchunks : m.chunks = l.header.chunks := by
    rw [← hcount, ← hlength]
    rfl
  have hheader : m.header = l.header := by
    rw [Metadata.header, hchunks]
  have hbytes : (l.chunkInfo.flatMap ChunkEntry.bytes).length =
      chunkInfoSize * l.chunkInfo.length := length_flatMap ChunkEntry.length_bytes _
  have htable : 32 * m.chunks < 2 ^ 31 := by
    have htable := hl.table
    have hlt := Int.bmod_lt (x := chunkInfoSize * l.header.chunks) (m := 2 ^ 32) (by decide)
    unfold chunkArraySize at htable
    unfold chunkInfoSize at htable hlt
    omega
  have hsave : l.saveMetadata file = m.fields.flatten ++
      ((l.chunkInfo.flatMap ChunkEntry.bytes).take maxCount ++ file.drop (headerSize +
        ((l.chunkInfo.flatMap ChunkEntry.bytes).take maxCount).length)) := by
    rw [Loaded.saveMetadata, ← hchunks, pwriteAll_eq, pwrite_zero]
    show (m.fields ++ [_]).flatten ++ List.drop (m.fields ++ [_]).flatten.length file = _
    rw [List.flatten_append, List.flatten_singleton, List.length_append, length_fields,
      List.append_assoc]
  have hdecode : (l.chunkInfo.map ChunkEntry.bytes).map ChunkEntry.decode = l.chunkInfo := by
    rw [List.map_map]
    refine (List.map_congr_left fun c hc => ?_).trans (List.map_id _)
    exact ChunkEntry.decode_entryBytes (hl.sizes c hc) (hl.statuses c hc)
  have htaken : (keepFront tableEntries clearedEntry.entry l.chunkInfo).flatMap
      ChunkEntry.bytes = _ := flatMap_keepFront ChunkEntry.length_bytes (by decide)
  rw [hl.keepFront_eq, chunkInfoSize_mul_tableEntries] at htaken
  rw [hsave, loadMetadata_fields (hheader ▸ hl.header) htable, hlength, readCleared_take hbytes,
    ← htaken, records_flatMap ChunkEntry.length_bytes, hdecode, hheader]

theorem ChunkEntry.size_resetDownloading (c : ChunkEntry) : c.resetDownloading.size = c.size := by
  unfold resetDownloading
  split <;> rfl

theorem Loaded.Fits.resetDownloading (hl : l.Fits) : l.resetDownloading.Fits where
  header := hl.header
  sizes := by
    intro c hc
    obtain ⟨c₀, hc₀, rfl⟩ := List.mem_map.mp hc
    rw [c₀.size_resetDownloading]
    exact hl.sizes c₀ hc₀
  statuses := by
    intro c hc
    obtain ⟨c₀, hc₀, rfl⟩ := List.mem_map.mp hc
    unfold ChunkEntry.resetDownloading
    split
    · exact (by decide : -2 ^ 31 ≤ ChunkStatus.chPending.code ∧ ChunkStatus.chPending.code < 2 ^ 31)
    · exact hl.statuses c₀ hc₀
  table := (List.length_map _).trans hl.table
  moved := by
    intro c hc
    -- a clear entry is CH_OK
    rw [Loaded.resetDownloading, ← List.map_drop] at hc
    obtain ⟨c₀, hc₀, rfl⟩ := List.mem_map.mp hc
    rw [hl.moved c₀ hc₀]
    decide

/-- With force the reset is saved, and that is what is loaded afterwards. -/
theorem resetDownloadingChunks_force {obj : Loaded} {mdata : List UInt8}
    (hload : loadMetadata obj mdata = some l)
    (hcount : (l.chunkInfo.length : Int) = l.header.chunks) :
    ∃ mdata', resetDownloadingChunks obj mdata 1 = some mdata' ∧
      ∀ obj', loadMetadata obj' mdata' = some l.resetDownloading := by
  refine ⟨l.resetDownloading.saveMetadata mdata, ?_, fun obj' => ?_⟩
  · rw [resetDownloadingChunks, hload]
    exact if_neg fun h => absurd h.2 (by decide)
  · refine (Loaded.fits_of_loadMetadata hload).resetDownloading.loadMetadata_saveMetadata ?_ obj'
      mdata
    exact (congrArg Nat.cast (List.length_map _)).trans hcount

/-- It is the reset of the metadata, where the numbers are those of statuses. -/
theorem loaded_resetDownloadingChunks (m : Metadata) :
    m.resetDownloadingChunks.loaded = m.loaded.resetDownloading := by
  have hentry : ∀ c : ChunkInfo, (Metadata.resetDownloading c).entry =
      c.entry.resetDownloading := by
    rintro ⟨md5sum, size, status⟩
    cases status <;> rfl
  unfold Metadata.loaded Loaded.resetDownloading
  congr 1
  · simp [Metadata.header, Metadata.chunks, Metadata.resetDownloadingChunks]
  · rw [Metadata.resetDownloadingChunks, List.map_map, List.map_map]
    exact List.map_congr_left fun c _ => hentry c

end File

/-! ### The transfer that follows -/

/-- The chunks claimed are those of the table at the start that are not CH_OK, and all chunks
are CH_OK in the end. -/
structure Restored (before : List ChunkInfo) (claimed : List Nat) (after : List ChunkInfo) :
    Prop where
  claimed : ∀ k, k ∈ claimed ↔ ∃ c, before[k]? = some c ∧ c.status ≠ .chOk
  length : after.length = before.length
  ok : ∀ c ∈ after, c.status = .chOk

/-- No worker has the chunk of any entry. -/
def Idle (m : Metadata) : Prop :=
  ∀ c ∈ m.chunkInfo, c.status ≠ .chDownload ∧ c.status ≠ .chUpload

theorem claimable_of_idle {m : Metadata} (hm : Idle m) {c : ChunkInfo} (hc : c ∈ m.chunkInfo) :
    Metadata.claimable c = true ↔ c.status ≠ .chOk := by
  obtain ⟨hdownload, hupload⟩ := hm c hc
  simp [Metadata.claimable, hdownload, hupload]

theorem Restored.of_entries {before after : List ChunkInfo} {claimed : List Nat}
    (hclaimed : ∀ k, k ∈ claimed ↔ ∃ c, before[k]? = some c ∧ c.status ≠ .chOk)
    (hlength : after.length = before.length)
    (hok : ∀ (k : Nat) c₀, before[k]? = some c₀ → ∃ c, after[k]? = some c ∧ c.status = .chOk) :
    Restored before claimed after where
  claimed := hclaimed
  length := hlength
  ok := by
    intro c hc
    obtain ⟨k, hk⟩ := List.getElem?_of_mem hc
    have hlt := (List.getElem?_eq_some_iff.mp hk).1
    rw [hlength] at hlt
    obtain ⟨c', hc', hok⟩ := hok k _ (List.getElem?_eq_getElem hlt)
    rw [hk] at hc'
    rw [Option.some.inj hc']
    exact hok

namespace Download

/-- A download run from this .mdata file with at least one worker, in which nothing fails, up
to where all workers have left. -/
structure Undisturbed (md5 : Md5) (m : Metadata) (s₀ : State) (as : List Act) (s : State) : Prop
    extends Initial s₀ where
  mdata : s₀.mdata = m
  run : (machine md5).run s₀ as = some s
  undisturbed : (machine md5).Along (fun s a s' => undisturbed s a s' = true) s₀ as
  finished : s.AllFinished
  forked : ∃ w, (s.workers w).pc ≠ .notForked

theorem Undisturbed.restored {md5 : Md5} {m : Metadata} {s₀ s : State} {as : List Act}
    (h : Undisturbed md5 m s₀ as s) (hm : Idle m) :
    Restored m.chunkInfo ((machine md5).events claimedChunk s₀ as) s.mdata.chunkInfo := by
  obtain ⟨-, -, hclaimed, hok⟩ :=
    claims_complete md5 h.toInitial h.run h.undisturbed h.finished h.forked
  have hpending : ∀ k, k ∈ s₀.pendingChunks ↔ ∃ c, m.chunkInfo[k]? = some c ∧ c.status ≠ .chOk := by
    intro k
    rw [mem_pendingChunks, h.mdata]
    refine exists_congr fun c => and_congr_right fun hc => ?_
    rw [← claimable_of_idle hm (List.mem_of_getElem? hc), claimable_iff]
  have hlength : s.mdata.chunkInfo.length = m.chunkInfo.length := by
    rw [(sound_run h.toInitial.sound h.run).length, h.mdata]
  refine .of_entries (fun k => (hclaimed k).trans (hpending k)) hlength fun k c₀ hc₀ => ?_
  by_cases hstatus : c₀.status = .chOk
  · exact ⟨c₀, h.toInitial.sound.ok_run h.run (h.mdata ▸ hc₀) hstatus, hstatus⟩
  · exact hok k ((hpending k).mpr ⟨c₀, hc₀, hstatus⟩)

end Download

namespace Upload

/-- The chunk a step claims. -/
def claimedChunk (s : State) : Act → Option Nat
  | .worker w .claim => (s.workers w).metadata.getNextPendingChunk
  | _ => none

section Claims
variable {md5 : Md5} {t₀ : List ChunkInfo} {s s' : State} {a : Act} {C : Nat → Prop}

/-- A claim that a step shows is one of the table. -/
theorem claimed_of_step (h : (machine md5).step s a = some s') {k : Nat}
    (hk : claimedChunk s a = some k) : ∃ w t, a = .worker w .claim ∧
      (view s).phase w = .loaded t ∧ t.findIdx? rules.free = some k := by
  unfold claimedChunk at hk
  split at hk
  · next w =>
    cases step_cases h with
    | claim hpc => exact ⟨w, _, rfl, by simp [view, phase, hpc], hk⟩
  · cases hk

theorem accounted_step (hs : Lossless t₀ s) (hacc : ClaimTable.Accounted rules t₀ C (view s))
    (hC : ∀ k, claimedChunk s a = some k → C k) (h : (machine md5).step s a = some s') :
    ClaimTable.Accounted rules t₀ C (view s') := by
  apply (view_step hs.toOrderly h).preserves hacc
  intro b hb hstep
  refine ClaimTable.accounted_step hacc (hs.label_stale h hb) ?_ hstep
  rintro w t k rfl hw hk
  obtain rfl := (label_write hb).1 w rfl
  cases step_cases h with
  | @claim _ _ m hpc =>
    refine hC k ?_
    have hcopy : (s.workers w).metadata.chunkInfo = t := by
      simpa [view, phase, hpc] using hw
    rw [claimedChunk, Metadata.getNextPendingChunk, hcopy]
    exact hk

/-- **What an upload claims** in which nobody is killed and SIGINT does not arrive: all that
was claimable at the start, and nothing else.  That is CH_OK in the end, and the rest is as
it was. -/
theorem claims_restored (md5 : Md5) {s₀ s : State} {as : List Act} (h₀ : Initial s₀)
    (hone : 1 ≤ s₀.numClient) (hsig : (machine md5).Along NoSigint s₀ as)
    (hr : (machine md5).run s₀ as = some s)
    (hexited : ∀ w < s₀.numClient, (s.workers w).pc = .exited) :
    (∀ k, k ∈ (machine md5).events claimedChunk s₀ as ↔
      ∃ c, s₀.table[k]? = some c ∧ Metadata.claimable c = true) ∧
    s.table.length = s₀.table.length ∧
    ∀ (k : Nat) c₀, s₀.table[k]? = some c₀ →
      ∃ c, s.table[k]? = some c ∧ (c.status = .chOk ∨ c = c₀ ∧ Metadata.claimable c₀ = false) := by
  let C : Nat → Prop := (· ∈ (machine md5).events claimedChunk s₀ as)
  obtain ⟨⟨hs, hacc⟩, hoffers⟩ := Machine.run_and_along
    (I := fun s => Lossless s₀.table s ∧ ClaimTable.Accounted rules s₀.table C (view s))
    (Q := fun s a _ => ∀ k, claimedChunk s a = some k → ClaimTable.Offers rules s₀.table k)
    (fun s a s' hs ha h => by
      refine ⟨⟨lossless_step hs.1 ha.1 h, accounted_step hs.1 hs.2 ha.2 h⟩, fun k hk => ?_⟩
      obtain ⟨w, t, -, hw, ht⟩ := claimed_of_step h hk
      exact hs.2.offers hw ht)
    ⟨h₀.lossless, h₀.view ▸ ClaimTable.accounted_initial _⟩
    (hsig.and (Machine.along_events s₀ as)) hr
  have hnum := numClient_run hr
  have hok {k : Nat} {c₀ : ChunkInfo} (hc₀ : s₀.table[k]? = some c₀)
      (hfree : Metadata.claimable c₀ = true) :=
    hs.ok_of_exited (by omega) (by rwa [hnum]) hc₀ hfree
  have hlength : s.table.length = s₀.table.length := hs.stale.table.length
  refine ⟨fun k => ⟨Machine.forall_events_of_along hoffers k, ?_⟩, hlength, fun k c₀ hc₀ => ?_⟩
  · rintro ⟨c₀, hc₀, hfree⟩
    obtain ⟨c, hc, hstatus⟩ := hok hc₀ hfree
    rcases hacc.entries.table k c hc with hsame | ⟨-, hclaimed, -⟩
    · rw [hc₀] at hsame
      rw [Option.some.inj hsame, Metadata.claimable, hstatus] at hfree
      cases hfree
    · exact hclaimed
  · by_cases hfree : Metadata.claimable c₀ = true
    · obtain ⟨c, hc, hstatus⟩ := hok hc₀ hfree
      exact ⟨c, hc, .inl hstatus⟩
    · -- an entry that is not on offer stays as it is
      have hlt := (List.getElem?_eq_some_iff.mp hc₀).1
      rw [← hlength] at hlt
      have hc := List.getElem?_eq_getElem hlt
      rcases hacc.entries.table k _ hc with hsame | ⟨⟨c, hsame, hoffered⟩, -⟩
      · rw [hc₀] at hsame
        exact ⟨_, hc, .inr ⟨(Option.some.inj hsame).symm, Bool.eq_false_of_not_eq_true hfree⟩⟩
      · rw [hc₀] at hsame
        exact absurd (Option.some.inj hsame ▸ hoffered) hfree

end Claims

/-- An upload run with this .mdata file and at least one connection, in which nobody is killed
and SIGINT does not arrive, up to where all workers have left. -/
structure Undisturbed (md5 : Md5) (m : Metadata) (s₀ : State) (as : List Act) (s : State) : Prop
    extends Initial s₀ where
  mdata : s₀.mdata = some m
  one_le : 1 ≤ s₀.numClient
  run : (machine md5).run s₀ as = some s
  noSigint : (machine md5).Along NoSigint s₀ as
  exited : ∀ w < s₀.numClient, (s.workers w).pc = .exited

theorem Undisturbed.restored {md5 : Md5} {m : Metadata} {s₀ s : State} {as : List Act}
    (h : Undisturbed md5 m s₀ as s) (hm : Idle m) :
    Restored m.chunkInfo ((machine md5).events claimedChunk s₀ as) s.table := by
  obtain ⟨hclaimed, hlength, hentries⟩ :=
    claims_restored md5 h.toInitial h.one_le h.noSigint h.run h.exited
  rw [State.table_of_some h.mdata] at hclaimed hlength hentries
  refine .of_entries (fun k => (hclaimed k).trans ?_) hlength fun k c₀ hc₀ => ?_
  · exact exists_congr fun c => and_congr_right fun hc =>
      claimable_of_idle hm (List.mem_of_getElem? hc)
  · obtain ⟨c, hc, hok | ⟨rfl, hno⟩⟩ := hentries k c₀ hc₀
    · exact ⟨c, hc, hok⟩
    · refine ⟨c, hc, ?_⟩
      by_contra hstatus
      rw [(claimable_of_idle hm (List.mem_of_getElem? hc₀)).mpr hstatus] at hno
      cases hno

end Upload

/-! ### What recovery repairs -/

/-- What `l'` is to have of `l`: the in_use byte is clear, every chunk that is not CH_OK has
become CH_PENDING, nothing else has changed, and a transfer that goes on from there claims the
rest and completes it. -/
structure Recovered (l l' : Loaded) : Prop where
  inUse : l'.inUse = 0
  header : l'.header = l.header
  length : l'.chunkInfo.length = l.chunkInfo.length
  ok : ∀ (k : Nat) c, l.chunkInfo[k]? = some c → c.status = ChunkStatus.chOk.code →
    l'.chunkInfo[k]? = some c
  rest : ∀ (k : Nat) c, l.chunkInfo[k]? = some c → c.status ≠ ChunkStatus.chOk.code →
    ∃ c', l'.chunkInfo[k]? = some c' ∧ c'.status = ChunkStatus.chPending.code ∧ c'.size = c.size
  download : ∀ m, m.loaded = l' → ∀ md5 s₀ as s, Download.Undisturbed md5 m s₀ as s →
    Restored m.chunkInfo ((Download.machine md5).events Download.claimedChunk s₀ as)
      s.mdata.chunkInfo
  upload : ∀ m, m.loaded = l' → ∀ md5 s₀ as s, Upload.Undisturbed md5 m s₀ as s →
    Restored m.chunkInfo ((Upload.machine md5).events Upload.claimedChunk s₀ as) s.table

/-- A status that recovery knows: no CH_UPLOAD, and nothing that is no status. -/
def ChunkEntry.Repairable (c : ChunkEntry) : Prop :=
  c.status = ChunkStatus.chOk.code ∨ c.status = ChunkStatus.chPending.code ∨
    c.status = ChunkStatus.chError.code ∨ c.status = ChunkStatus.chDownload.code

section Recovered
variable {l : Loaded}

theorem ChunkEntry.resetDownloading_of_ok {c : ChunkEntry}
    (hc : c.status = ChunkStatus.chOk.code) : c.resetDownloading = c := by
  unfold resetDownloading
  rw [hc]
  exact if_neg (by decide)

/-- A chunk that is not CH_OK becomes CH_PENDING exactly if its status is known. -/
theorem ChunkEntry.resetDownloading_pending_iff {c : ChunkEntry}
    (hc : c.status ≠ ChunkStatus.chOk.code) :
    c.resetDownloading.status = ChunkStatus.chPending.code ↔ c.Repairable := by
  unfold resetDownloading Repairable
  split
  · next h =>
    exact iff_of_true rfl (.inr (.inr h.symm))
  · next h =>
    rw [not_or] at h
    constructor
    · exact fun hp => .inr (.inl hp)
    · rintro (h' | h' | h' | h')
      · exact absurd h' hc
      · exact h'
      · exact absurd h' h.2
      · exact absurd h' h.1

/-- After such a reset no worker has a chunk. -/
theorem idle_of_repairable (hl : ∀ c ∈ l.chunkInfo, c.Repairable) {m : Metadata}
    (hm : m.loaded = l.resetDownloading) : Idle m := by
  intro c hc
  have hmem : c.entry ∈ m.loaded.chunkInfo := List.mem_map_of_mem hc
  rw [hm] at hmem
  obtain ⟨c₀, hc₀, hentry⟩ := List.mem_map.mp hmem
  have hcode : c.status.code = ChunkStatus.chOk.code ∨
      c.status.code = ChunkStatus.chPending.code := by
    rw [show c.status.code = c.entry.status from rfl, ← hentry]
    by_cases hok : c₀.status = ChunkStatus.chOk.code
    · rw [ChunkEntry.resetDownloading_of_ok hok]
      exact .inl hok
    · exact .inr ((ChunkEntry.resetDownloading_pending_iff hok).mpr (hl c₀ hc₀))
  rcases hcode with h | h <;> rw [ChunkStatus.code_inj h] <;> decide

theorem recovered_iff : Recovered l l.resetDownloading ↔ ∀ c ∈ l.chunkInfo, c.Repairable := by
  have hentry : ∀ (k : Nat) c, l.chunkInfo[k]? = some c →
      l.resetDownloading.chunkInfo[k]? = some c.resetDownloading := by
    intro k c hc
    rw [Loaded.resetDownloading, List.getElem?_map, hc]
    rfl
  constructor
  · intro h c hmem
    obtain ⟨k, hk⟩ := List.getElem?_of_mem hmem
    by_cases hok : c.status = ChunkStatus.chOk.code
    · exact .inl hok
    · obtain ⟨c', hc', hpending, -⟩ := h.rest k c hk hok
      rw [hentry k c hk] at hc'
      obtain rfl := Option.some.inj hc'
      exact (ChunkEntry.resetDownloading_pending_iff hok).mp hpending
  · intro hl
    refine
      { inUse := rfl, header := rfl, length := List.length_map _
        ok := fun k c hc hok => ?_, rest := fun k c hc hok => ?_
        download := fun m hm _ _ _ _ h => h.restored (idle_of_repairable hl hm)
        upload := fun m hm _ _ _ _ h => h.restored (idle_of_repairable hl hm) }
    · rw [hentry k c hc, ChunkEntry.resetDownloading_of_ok hok]
    · exact ⟨_, hentry k c hc, (ChunkEntry.resetDownloading_pending_iff hok).mpr
        (hl c (List.mem_of_getElem? hc)), c.size_resetDownloading⟩

end Recovered

/-- **Recovery repairs a file exactly if no upload has left a chunk behind in it**: each of its
chunks is CH_OK, CH_PENDING, CH_ERROR or CH_DOWNLOAD. -/
theorem recover_iff {obj l : Loaded} {mdata : List UInt8} (hload : loadMetadata obj mdata = some l)
    (hcount : (l.chunkInfo.length : Int) = l.header.chunks) :
    (∃ mdata', resetDownloadingChunks obj mdata 1 = some mdata' ∧
      ∀ obj', ∃ l', loadMetadata obj' mdata' = some l' ∧ Recovered l l') ↔
      ∀ c ∈ l.chunkInfo, c.Repairable := by
  obtain ⟨mdata', hreset, hagain⟩ := resetDownloadingChunks_force hload hcount
  rw [← recovered_iff]
  constructor
  · rintro ⟨mdata'', hreset', h⟩
    rw [hreset] at hreset'
    obtain rfl := Option.some.inj hreset'
    obtain ⟨l', hl', hrecovered⟩ := h l
    rw [hagain l] at hl'
    obtain rfl := Option.some.inj hl'
    exact hrecovered
  · exact fun h => ⟨mdata', hreset, fun obj' => ⟨_, hagain obj', h⟩⟩

/-- A download has been killed at work on the first of two chunks. -/
def sampleAborted : Metadata := sampleMetadata.setChunkStatus 0 .chDownload none

theorem recover_sample :
    ∃ mdata', resetDownloadingChunks sampleMetadata.loaded (sampleAborted.saveMetadata []) 1 =
        some mdata' ∧
      ∀ obj', ∃ l', loadMetadata obj' mdata' = some l' ∧ Recovered sampleAborted.loaded l' :=
  (recover_iff (loadMetadata_saveMetadata_of_le (m := sampleAborted)
    ⟨⟨by decide, by decide, by decide⟩, by decide, by decide⟩
    (by rw [tableEntries_eq]; decide)) (by decide)).mpr (by
      unfold ChunkEntry.Repairable
      decide)

/-- An upload has been killed at work on the first of two chunks. -/
def sampleAbortedUpload : Metadata := sampleMetadata.setChunkStatus 0 .chUpload none

/-- The chunk is still CH_UPLOAD after the reset, and a download that goes on from there claims
the other one only. -/
theorem recover_fails :
    (¬ ∃ mdata', resetDownloadingChunks sampleMetadata.loaded
        (sampleAbortedUpload.saveMetadata []) 1 = some mdata' ∧
      ∀ obj', ∃ l', loadMetadata obj' mdata' = some l' ∧
        Recovered sampleAbortedUpload.loaded l') ∧
    sampleAbortedUpload.resetDownloadingChunks.chunkInfo.map ChunkInfo.status =
      [.chUpload, .chPending] ∧
    sampleAbortedUpload.resetDownloadingChunks.getNextPendingChunk = some 1 ∧
    (sampleAbortedUpload.resetDownloadingChunks.setChunkStatus 1 .chOk none).getNextPendingChunk =
      none := by
  refine ⟨?_, by decide, by decide, by decide⟩
  rintro ⟨mdata', hreset, h⟩
  have hload : loadMetadata sampleMetadata.loaded (sampleAbortedUpload.saveMetadata []) =
      some sampleAbortedUpload.loaded :=
    loadMetadata_saveMetadata_of_le ⟨⟨by decide, by decide, by decide⟩, by decide, by decide⟩
      (by rw [tableEntries_eq]; decide)
  obtain ⟨mdata'', hreset', hagain⟩ := resetDownloadingChunks_force hload (by decide)
  rw [hreset] at hreset'
  obtain rfl := Option.some.inj hreset'
  obtain ⟨l', hl', hrecovered⟩ := h sampleMetadata.loaded
  rw [hagain] at hl'
  obtain rfl := Option.some.inj hl'
  have hfirst := recovered_iff.mp hrecovered _ (List.mem_of_getElem? (i := 0) rfl)
  unfold ChunkEntry.Repairable at hfirst
  revert hfirst
  decide

end Mhftp
