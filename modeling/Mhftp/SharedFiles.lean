import Mhftp.FinishedLength
import Mhftp.Library.Components
import Mhftp.StatusTool
import Mhftp.Termination

/-! # Any number of processes on the same two files

Nothing keeps a second mhclient, or mhstatus, away from an .mdata file and a local file that
are in use: a download does not look at in_use, and the semaphore of each mhclient is its own.
So two of them may fetch the same chunk, and one may save a table that is older than what the
other one has written.

What they cannot do is say that a chunk is there when it is not.  A process saves a copy of
the table in which it has marked only what it has stored itself, and no process takes bytes of
the file away again, so that old copies are still true (`shared_integrity`).  Processes are
components of `Library.Components`, and this is their contract.
-/

namespace Mhftp
open Library

namespace Shared

/-- The .mdata file and the local file. -/
structure Files where
  mdata : Metadata
  localFile : List UInt8

/-- `CheckDataChunks`, `resetDownloadingChunks` and `resetAllChunks`, with or without force. -/
inductive Operation
  | check
  | recover (force : Bool)
  | reset (force : Bool)

/-- A process of mhstatus, with its copy of the metadata. -/
structure Tool where
  op : Operation
  pc : StatusTool.Pc
  metadata : Metadata

/-- mhclient with its workers and their servers, whose own two files are not looked at, or
mhstatus. -/
inductive Process
  | client (s : Download.State)
  | tool (t : Tool)

/-- The steps of mhclient, and of who kills one of its workers: at the end of the chunk that
it is writing, or before. -/
inductive ClientAct
  | step (a : Download.Act)
  | kill (w written : Nat)

inductive Act
  | client (a : ClientAct)
  | tool (a : StatusTool.ToolAct)

end Shared

namespace Download

/-- A client on these files. -/
def State.over (s : State) (f : Shared.Files) : State :=
  { s with mdata := f.mdata, localFile := f.localFile }

/-- The local file after worker `w` has written so many bytes of its chunk. -/
def writtenBy (s : State) (w written : Nat) : List UInt8 :=
  match (s.workers w).pc with
  | .store k data =>
    pwrite s.localFile (seek (s.workers w).filePos (k * (s.workers w).metadata.chunkSize))
      (data.take written)
  | _ => s.localFile

/-- Where a worker is after it was killed. -/
def WorkerPc.afterKill (pc : WorkerPc) : WorkerPc := (pc.chunk.map dead).getD .killed

/-- Worker `w` is killed; `SEM_UNDO` gives the lock back. -/
def kill (s : State) (w written : Nat) : Option State :=
  if (s.workers w).pc.finished then none
  else some
    { s.goto w (s.workers w).pc.afterKill with
      localFile := writtenBy s w written
      lock := if s.lock = some w then none else s.lock }

end Download

namespace Shared
variable (md5 : Md5)

def clientMove (s : Download.State) : ClientAct → Option Download.State
  | .step a => (Download.machine md5).step s a
  | .kill w written => Download.kill s w written

def clientStep (f : Files) (s : Download.State) (a : ClientAct) : Option (Files × Download.State) :=
  (clientMove md5 (s.over f) a).map fun t => (⟨t.mdata, t.localFile⟩, t)

/-- Where an operation goes on with what it has loaded, if it does not give up. -/
def Operation.loaded (m : Metadata) : Operation → Option (StatusTool.Pc × Metadata)
  | .check => some (.opening, m)
  | .recover force =>
    if m.inUse ≠ 0 ∧ force = false then none else some (.saving, m.resetDownloadingChunks)
  | .reset force =>
    if m.inUse ≠ 0 ∧ force = false then none else some (.saving, m.resetAllChunks)

def toolStep (f : Files) (t : Tool) : StatusTool.ToolAct → Option (Files × Tool)
  | .load =>
    match t.pc with
    | .start =>
      match t.op.loaded f.mdata with
      | none => some (f, { t with pc := .exited })
      | some (pc, metadata) => some (f, { t with pc, metadata })
    | _ => none
  | .open =>
    match t.pc with
    | .opening => some (f, { t with pc := .checking 0 0 })
    | _ => none
  | .openFails =>
    match t.pc with
    | .opening => some (f, { t with pc := .exited })
    | _ => none
  | .turn file =>
    match t.pc with
    | .checking i pos =>
      match t.metadata.chunkInfo[i]? with
      | none => some (f, { t with pc := if t.metadata.inUse = 0 then .saving else .exited })
      | some c =>
        match Metadata.checkChunk md5 file t.metadata.chunkSize pos c with
        -- the process dies
        | none => some (f, { t with pc := .exited })
        | some (pos, c) => some (f,
          { t with
            pc := .checking (i + 1) pos
            metadata := { t.metadata with chunkInfo := t.metadata.chunkInfo.set i c } })
    | _ => none
  | .save =>
    match t.pc with
    | .saving => some ({ f with mdata := t.metadata }, { t with pc := .exited })
    | _ => none

def step (f : Files) : Process → Act → Option (Files × Process)
  | .client s, .client a => (clientStep md5 f s a).map fun r => (r.1, .client r.2)
  | .tool t, .tool a => (toolStep md5 f t a).map fun r => (r.1, .tool r.2)
  | _, _ => none

def processes : Component Files Process Act := ⟨step md5⟩

end Shared

/-! ### One client among others -/

namespace Download
variable {src : Source} {md5 : Md5} {s t : State} {w : Nat}

/-- The parent has a copy of the .mdata file that it is going to save, or has saved it and
ended after a SIGINT. -/
def ParentPc.copies : ParentPc → Bool
  | .loaded | .finalLoaded | .killLoaded | .reset _ => true
  | _ => false

/-- The client as it sees these files: where the parent has a copy, it does not look at the
.mdata file again. -/
def State.seen (s : State) (f : Shared.Files) : State :=
  { s with
    mdata := if s.pc.copies then s.metadata else f.mdata
    localFile := f.localFile }

theorem Source.Good.kept {g g' : List UInt8} {m : Metadata} (h : src.Good md5 g m)
    (hkept : src.NothingRemoved g g') : src.Good md5 g' m where
  header := h.header
  ok := fun k c hc hok =>
    ⟨hkept.stored k (h.has (List.getElem?_eq_some_iff.mp hc).1) (h.ok k c hc hok).1,
      (h.ok k c hc hok).2⟩

theorem Source.WorkerOk.kept {g g' : List UInt8} {wk : Worker} (h : src.WorkerOk md5 g wk)
    (hkept : src.NothingRemoved g g') : src.WorkerOk md5 g' wk where
  good := fun he => (h.good he).kept hkept
  chunk := h.chunk
  store := h.store
  update := fun k hpc hse =>
    have hk : src.Has k := h.chunk k (by rcases hpc with hpc | hpc | hpc <;> rw [hpc] <;> rfl)
    ⟨hkept.stored k hk (h.update k hpc hse).1, (h.update k hpc hse).2⟩

/-- **Others may write to the files**: the local file as long as no chunk goes, and the .mdata
file with any good table, where the parent does not rely on its copy. -/
theorem Source.Faithful.files (hs : src.Faithful md5 s) {g : List UInt8} {m : Metadata}
    (hkept : src.NothingRemoved s.localFile g) (hm : src.Good md5 g m)
    (hcopy : s.pc.copies = true → m.chunkInfo = s.mdata.chunkInfo) :
    src.Faithful md5 { s with mdata := m, localFile := g } where
  early := hs.early
  forked := hs.forked
  outside := hs.outside
  late := hs.late
  fresh := fun hpc => by
    rw [hcopy (by rcases hpc with hpc | hpc | hpc <;> rw [hpc] <;> rfl)]
    exact hs.fresh hpc
  reset := fun t ht => by
    rw [hcopy (by rw [ht]; rfl)]
    exact hs.reset t ht
  sock_error := hs.sock_error
  file := hm
  copy := fun hpc => (hs.copy hpc).kept hkept
  worker := fun w => (hs.worker w).kept hkept
  link := hs.link

theorem Source.Faithful.seen_stable {f f' : Shared.Files} (hs : src.Faithful md5 (s.seen f))
    (hkept : src.NothingRemoved f.localFile f'.localFile)
    (hgood : src.Good md5 f'.localFile f'.mdata) :
    src.Faithful md5 (s.seen f') := by
  have hfile : src.Good md5 f.localFile (if s.pc.copies then s.metadata else f.mdata) := hs.file
  have hm : src.Good md5 f'.localFile (if s.pc.copies then s.metadata else f'.mdata) := by
    cases hc : s.pc.copies with
    | true =>
      rw [hc] at hfile
      exact hfile.kept hkept
    | false => exact hgood
  refine hs.files hkept hm fun hc => ?_
  replace hc : s.pc.copies = true := hc
  simp [State.seen, hc]

/-- Where the parent has a copy, no worker is there. -/
theorem Orderly.finished_of_copies (hs : Orderly s) (hc : s.pc.copies = true) (w : Nat) :
    (s.workers w).pc.finished = true := by
  by_contra hw
  rcases hs.active (Bool.not_eq_true _ ▸ hw) with ⟨i, hi⟩ | hi | hi <;> simp [hi] at hc <;> cases hc

/-- What the parent comes to have a copy of is what is there. -/
theorem mdata_of_copies {a : Act} (h : (machine md5).step s a = some t)
    (hs : s.pc.copies = false) (ht : t.pc.copies = true) : t.mdata = t.metadata := by
  cases step_cases h with
  | load | wait | killLoad | killSave => rfl
  | save | refuse | fork | forkFails | finish | sigint => cases ht
  | receive =>
    obtain ⟨wk, toClient, he, -⟩ := receive_cases s _ _ _
    rw [he] at ht
    cases hs.symm.trans ht
  | _ => cases hs.symm.trans ht

theorem seen_of_copies {f : Shared.Files} (hc : s.pc.copies = true) :
    s.seen f = { s.over f with mdata := s.metadata } := by
  simp [State.seen, State.over, hc]

theorem seen_of_not_copies {f : Shared.Files} (hc : s.pc.copies = false) :
    s.seen f = s.over f := by
  simp [State.seen, State.over, hc]

theorem seen_self (h : t.pc.copies = true → t.mdata = t.metadata) :
    t.seen ⟨t.mdata, t.localFile⟩ = t := by
  unfold State.seen
  split
  · next hc =>
    have hsame := h hc
    cases t
    cases hsame
    rfl
  · rfl

/-- What a step of a client leaves behind: its own invariant, a good table, and the chunks that
are in the local file. -/
structure Source.Left (src : Source) (md5 : Md5) (f : Shared.Files) (t : State) : Prop where
  own : src.Faithful md5 (t.seen ⟨t.mdata, t.localFile⟩)
  good : src.Good md5 t.localFile t.mdata
  kept : src.NothingRemoved f.localFile t.localFile

theorem nothingRemoved_self (g : List UInt8) : src.NothingRemoved g g := ⟨le_rfl, fun _ _ => id⟩

theorem nothingRemoved_part (g : List UInt8) (j n : Nat) :
    src.NothingRemoved g (pwrite g (j * src.chunkSize) ((src.chunk j).take n)) := by
  refine ⟨?_, fun k hk hstored => hstored.pwrite hk⟩
  rw [length_pwrite]
  split <;> omega

/-- A step from where the parent has no copy. -/
theorem Source.Faithful.left {f : Shared.Files} (ht : src.Faithful md5 t)
    (hsame : t.pc.copies = true → t.mdata = t.metadata)
    (hkept : src.NothingRemoved f.localFile t.localFile) : src.Left md5 f t :=
  ⟨(seen_self hsame).symm ▸ ht, ht.file, hkept⟩

/-- **A client keeps its invariant** among others: what it does is what it would do with the
files as it sees them. -/
theorem Source.Faithful.seen_step {f : Shared.Files} {a : Act} (hs : src.Faithful md5 (s.seen f))
    (hgood : src.Good md5 f.localFile f.mdata) (hhosted : src.Hosted s)
    (ha : AnswersIntact (s.over f) a t) (h : (machine md5).step (s.over f) a = some t) :
    src.Left md5 f t := by
  cases hc : s.pc.copies with
  | false =>
    rw [seen_of_not_copies hc] at hs
    exact (faithful_step hs hhosted ha h).left (mdata_of_copies h hc) (hs.writes h).nothingRemoved
  | true =>
    have hfinished := hs.toOrderly.finished_of_copies hc
    rw [seen_of_copies hc] at hs
    -- what the parent saves, and what a server sends, is not in the .mdata file
    have saves {b : ParentAct} (hb : parentStep { s.over f with mdata := s.metadata } b =
        parentStep (s.over f) b) (hsame : t.pc.copies = true → t.mdata = t.metadata)
        (h : (machine md5).step (s.over f) (.parent b) = some t) : src.Left md5 f t :=
      have hstep : (machine md5).step _ (.parent b) = some t := hb.trans h
      (faithful_step hs hhosted (a := .parent b) trivial hstep).left hsame
        (hs.writes hstep).nothingRemoved
    cases a with
    | parent a =>
      have hstep := step_cases h
      cases hstep with
      | save => exact saves rfl (fun hcopies => by cases hcopies) h
      | finish => exact saves rfl (fun hcopies => by cases hcopies) h
      | killSave => exact saves rfl (fun _ => rfl) h
      | sigint hpc =>
        have hstep : (machine md5).step { s.over f with mdata := s.metadata } (.parent .sigint) =
            some { s.over f with mdata := s.metadata, kill_proc := true, pc := .killWait } := by
          rcases hpc with hpc | hpc | ⟨i, hpc⟩ | hpc <;> simp [machine, step, parentStep, hpc]
        have hu := faithful_step hs hhosted (a := .parent .sigint) trivial hstep
        exact ⟨hu.files (nothingRemoved_self _) hgood (fun hcopies => by cases hcopies), hgood,
          nothingRemoved_self _⟩
      | load hpc | refuse hpc | fork hpc | forkFails hpc | wait hpc | killLoad hpc =>
        replace hpc : s.pc = _ := hpc
        rw [hpc] at hc
        cases hc
    | worker w a => cases (hfinished w).symm.trans (unfinished_of_step (s := s.over f) h)
    | server w script junk =>
      cases step_cases h with
      | @server _ _ _ r hr =>
        have hstep : (machine md5).step { s.over f with mdata := s.metadata }
            (.server w script junk) = some { s.over f with
              mdata := s.metadata
              servers := update s.servers w r.server
              hosts := update s.hosts w r.dir
              conns := update s.conns w
                ⟨r.wire.unread, (s.conns w).toClient ++ r.out, r.wire.short⟩ } :=
          Option.map_eq_some_iff.mpr ⟨r, hr, rfl⟩
        have hu := faithful_step hs hhosted (by exact ha) hstep
        refine ⟨?_, hgood, nothingRemoved_self _⟩
        rw [seen_of_copies (by exact hc)]
        exact hu

theorem afterKill_cases (pc : WorkerPc) :
    pc.afterKill = .killed ∨ ∃ k, pc.chunk = some k ∧ pc.afterKill = .dead k := by
  unfold WorkerPc.afterKill
  cases pc.chunk with
  | none => exact Or.inl rfl
  | some k => exact Or.inr ⟨k, rfl, rfl⟩

/-- A worker that is killed leaves a part of its chunk in its place. -/
theorem Source.Faithful.writtenBy (hs : src.Faithful md5 s) (w written : Nat) :
    src.NothingRemoved s.localFile (writtenBy s w written) := by
  unfold Download.writtenBy
  split
  · next k data hstore =>
    obtain ⟨-, rfl, hplace⟩ := hs.store_place hstore
    rw [hplace]
    exact nothingRemoved_part _ k written
  · exact nothingRemoved_self _

theorem Source.Faithful.kill {written : Nat} (hs : src.Faithful md5 s)
    (h : Download.kill s w written = some t) : src.Faithful md5 t := by
  unfold Download.kill at h
  split at h
  · cases h
  next hw =>
  obtain rfl := Option.some.inj h
  rw [Bool.not_eq_true] at hw
  have hkept := hs.writtenBy w written
  have hfiles := hs.files hkept (hs.file.kept hkept) fun _ => rfl
  have hended : (s.workers w).pc.afterKill = .killed ∨
      ∃ k, (s.workers w).pc.chunk = some k ∧ (s.workers w).pc.afterKill = .dead k :=
    afterKill_cases _
  have hwk : src.WorkerOk md5 (Download.writtenBy s w written)
      { s.workers w with pc := (s.workers w).pc.afterKill } := by
    rcases hended with hpc | ⟨k, hchunk, hpc⟩ <;> rw [hpc]
    · exact .of_chunk_none nofun rfl
    · have hengaged : (s.workers w).pc.engaged = true := by
        cases hpc : (s.workers w).pc <;> simp_all [WorkerPc.chunk, WorkerPc.engaged]
      exact (hfiles.worker w).goto hengaged hchunk (.inr (.inr rfl))
  refine hfiles.move (hfiles.toOrderly.worker (w := w) hw rfl rfl rfl ?_) hw rfl rfl rfl rfl
    hfiles.file (fun _ _ => rfl) rfl hwk fun _ hlinked => ?_
  · rcases hended with hpc | ⟨k, -, hpc⟩ <;> rw [hpc] <;> trivial
  · -- nothing is asked of its connection
    rcases hended with hpc | ⟨k, -, hpc⟩ <;> rw [hpc] at hlinked <;>
      rcases hlinked with hlinked | ⟨hlinked, -⟩ <;> cases hlinked

theorem Source.Faithful.seen_kill {f : Shared.Files} {written : Nat}
    (hs : src.Faithful md5 (s.seen f)) (h : Download.kill (s.over f) w written = some t) :
    src.Left md5 f t := by
  have hsplit := h
  unfold Download.kill at hsplit
  split at hsplit
  · cases hsplit
  next hw =>
  obtain rfl := Option.some.inj hsplit
  -- a worker is there, so the parent has no copy
  have hc : s.pc.copies = false := by
    by_contra hc
    rw [Bool.not_eq_false] at hc
    exact hw (hs.toOrderly.finished_of_copies hc w)
  rw [seen_of_not_copies hc] at hs
  exact (hs.kill h).left (fun hcopies => by cases hc.symm.trans hcopies) (hs.writtenBy w written)

theorem Source.Good.resetAllChunks {g : List UInt8} {m : Metadata} (h : src.Good md5 g m) :
    src.Good md5 g m.resetAllChunks := by
  refine h.of_entries ?_ fun k c hc hok => ?_
  · simp [Metadata.header, Metadata.resetAllChunks, Metadata.chunks]
  · rw [Metadata.resetAllChunks, List.getElem?_map] at hc
    obtain ⟨c₀, -, rfl⟩ := Option.map_eq_some_iff.mp hc
    cases hok

/-- A check leaves CH_OK only what was. -/
theorem Source.Good.checkChunk {g : List UInt8} {m : Metadata} (h : src.Good md5 g m)
    {file : List UInt8} {i pos pos' : Nat} {c c' : ChunkInfo} (hi : m.chunkInfo[i]? = some c)
    (hcheck : Metadata.checkChunk md5 file m.chunkSize pos c = some (pos', c')) :
    src.Good md5 g { m with chunkInfo := m.chunkInfo.set i c' } := by
  have hsame : c'.status = .chOk → c' = c := by
    unfold Metadata.checkChunk at hcheck
    dsimp only at hcheck
    split at hcheck
    · split at hcheck
      · cases hcheck
      · obtain ⟨digest, -, heq⟩ := Option.map_eq_some_iff.mp hcheck
        obtain rfl := congrArg Prod.snd heq
        dsimp only
        split
        · exact nofun
        · exact fun _ => rfl
    · cases hcheck
      exact fun _ => rfl
  refine h.of_entries (by simp [Metadata.header, Metadata.chunks]) fun k e he hok => Or.inl ?_
  by_cases hk : k = i
  · subst k
    rw [List.getElem?_set_self (List.getElem?_eq_some_iff.mp hi).1] at he
    obtain rfl := Option.some.inj he
    rw [hsame hok]
    exact hi
  · rwa [List.getElem?_set_ne (Ne.symm hk)] at he

end Download

/-! ### mhstatus among others -/

namespace Shared
variable {src : Download.Source} {md5 : Md5} {f f' : Files} {t t' : Tool}

/-- A copy that mhstatus may still save. -/
def Tool.Ok (src : Download.Source) (md5 : Md5) (f : Files) (t : Tool) : Prop :=
  t.pc ≠ .start → t.pc ≠ .exited → src.Good md5 f.localFile t.metadata

theorem Operation.loaded_good {m metadata : Metadata} {op : Operation} {pc : StatusTool.Pc}
    {g : List UInt8} (h : src.Good md5 g m) (hl : op.loaded m = some (pc, metadata)) :
    src.Good md5 g metadata := by
  cases op with
  | check =>
    cases hl
    exact h
  | recover force =>
    rw [Operation.loaded] at hl
    split at hl <;> cases hl
    exact h.resetDownloadingChunks
  | reset force =>
    rw [Operation.loaded] at hl
    split at hl <;> cases hl
    exact h.resetAllChunks

theorem tool_keeps {a : StatusTool.ToolAct} (hf : src.Good md5 f.localFile f.mdata)
    (ht : t.Ok src md5 f) (h : toolStep md5 f t a = some (f', t')) :
    src.Good md5 f'.localFile f'.mdata ∧ t'.Ok src md5 f' ∧ f'.localFile = f.localFile := by
  cases a with
  | load =>
    simp only [toolStep] at h
    split at h
    · split at h <;> cases h
      · exact ⟨hf, fun _ hne => absurd rfl hne, rfl⟩
      · next hl => exact ⟨hf, fun _ _ => Operation.loaded_good hf hl, rfl⟩
    · cases h
  | «open» =>
    simp only [toolStep] at h
    split at h <;> cases h
    next hpc => exact ⟨hf, fun _ _ => ht (by simp [hpc]) (by simp [hpc]), rfl⟩
  | openFails =>
    simp only [toolStep] at h
    split at h <;> cases h
    exact ⟨hf, fun _ hne => absurd rfl hne, rfl⟩
  | turn file =>
    simp only [toolStep] at h
    split at h
    · next i pos hpc =>
      have hcopy := ht (by simp [hpc]) (by simp [hpc])
      split at h
      · cases h
        exact ⟨hf, fun _ _ => hcopy, rfl⟩
      · next c hc =>
        split at h <;> cases h
        · exact ⟨hf, fun _ hne => absurd rfl hne, rfl⟩
        · next hcheck => exact ⟨hf, fun _ _ => hcopy.checkChunk hc hcheck, rfl⟩
    · cases h
  | save =>
    simp only [toolStep] at h
    split at h <;> cases h
    next hpc => exact ⟨ht (by simp [hpc]) (by simp [hpc]), fun _ hne => absurd rfl hne, rfl⟩

/-! ### The contract -/

/-- What holds of a process on these files. -/
def Process.Ok (src : Download.Source) (md5 : Md5) (f : Files) : Process → Prop
  | .client s => src.Faithful md5 (s.seen f)
  | .tool t => t.Ok src md5 f

/-- The hosts of a client have the file, and its servers answer on intact connections only. -/
def Regular (src : Download.Source) (f : Files) : Process → Act → Process → Prop
  | .client s, .client (.step a), .client s' =>
    src.Hosted s ∧ Download.AnswersIntact (s.over f) a s'
  | _, _, _ => True

instance (src : Download.Source) (f : Files) (p : Process) (a : Act) (p' : Process) :
    Decidable (Regular src f p a p') :=
  match p, a, p' with
  | .client s, .client (.step a), .client s' =>
    inferInstanceAs (Decidable (src.Hosted s ∧ Download.AnswersIntact (s.over f) a s'))
  | .client _, .client (.step _), .tool _ | .client _, .client (.kill _ _), _
  | .client _, .tool _, _ | .tool _, _, _ => isTrue trivial

theorem client_keeps {s s' : Download.State} {a : ClientAct}
    (hf : src.Good md5 f.localFile f.mdata) (hs : src.Faithful md5 (s.seen f))
    (ha : Regular src f (.client s) (.client a) (.client s'))
    (h : clientStep md5 f s a = some (f', s')) :
    src.Good md5 f'.localFile f'.mdata ∧ src.Faithful md5 (s'.seen f') ∧
      src.NothingRemoved f.localFile f'.localFile := by
  obtain ⟨t, ht, he⟩ := Option.map_eq_some_iff.mp h
  obtain ⟨rfl, rfl⟩ := Prod.mk.inj he
  have hleft : src.Left md5 f t := by
    cases a with
    | step a => exact hs.seen_step hf ha.1 ha.2 ht
    | kill w written => exact hs.seen_kill ht
  exact ⟨hleft.good, hleft.own, hleft.kept⟩

theorem process_keeps {p p' : Process} {a : Act} (hf : src.Good md5 f.localFile f.mdata)
    (hp : p.Ok src md5 f) (ha : Regular src f p a p') (h : step md5 f p a = some (f', p')) :
    src.Good md5 f'.localFile f'.mdata ∧ p'.Ok src md5 f' ∧
      src.NothingRemoved f.localFile f'.localFile := by
  unfold step at h
  split at h
  · next s a =>
    obtain ⟨⟨f₁, s'⟩, hr, he⟩ := Option.map_eq_some_iff.mp h
    obtain ⟨rfl, rfl⟩ := Prod.mk.inj he
    exact client_keeps hf hp ha hr
  · next t a =>
    obtain ⟨⟨f₁, t'⟩, hr, he⟩ := Option.map_eq_some_iff.mp h
    obtain ⟨rfl, rfl⟩ := Prod.mk.inj he
    obtain ⟨hgood, hok, hlocal⟩ := tool_keeps hf hp hr
    exact ⟨hgood, hok, hlocal ▸ Download.nothingRemoved_self _⟩
  · cases h

theorem process_stable {p : Process} (hp : p.Ok src md5 f) (hf : src.Good md5 f'.localFile f'.mdata)
    (hkept : src.NothingRemoved f.localFile f'.localFile) : p.Ok src md5 f' := by
  cases p with
  | client s => exact Download.Source.Faithful.seen_stable hp hkept hf
  | tool t => exact fun hstart hexited => (hp hstart hexited).kept hkept

/-- **The contract of the processes on the two files.** -/
def contract (src : Download.Source) (md5 : Md5) : Component.Contract (processes md5) where
  shared := fun f => src.Good md5 f.localFile f.mdata
  own := fun f p => p.Ok src md5 f
  leaves := fun f f' => src.NothingRemoved f.localFile f'.localFile
  admits := fun f p a _ p' => Regular src f p a p'
  keeps := fun _ _ _ _ _ => process_keeps
  stable := fun _ _ _ => process_stable

/-- A process begins. -/
def Process.Initial : Process → Prop
  | .client s => Download.Initial s
  | .tool t => t.pc = .start

theorem ok_initial {p : Process} (hp : p.Initial) (hf : src.Good md5 f.localFile f.mdata) :
    p.Ok src md5 f := by
  cases p with
  | client s =>
    have hinitial : Download.Initial (s.seen f) :=
      ⟨hp.pc, hp.lock, hp.kill_proc, hp.workers, hp.conns, hp.servers⟩
    refine hinitial.faithful ?_
    have hc : s.pc.copies = false := by rw [hp.pc]; rfl
    simpa [Download.State.seen, hc] using hf
  | tool t => exact fun hstart => absurd hp hstart

/-- **Integrity with any number of processes.**  Clients and operations of mhstatus begin on an
.mdata file whose chunks in CH_OK are in the local file, such as a new one.  Whatever they all
do, in any order, with --force or without, and whoever is killed, each chunk that is CH_OK is in
the local file and has its md5sum, and when all chunks are CH_OK the local file begins with the
file, provided that no server answers on a connection where one of its `so_read`s came up short. -/
theorem shared_integrity (src : Download.Source) (md5 : Md5)
    {s₀ s : Component.System Files Process Nat} {as : List (Nat × Act)}
    (hfiles : src.Good md5 s₀.store.localFile s₀.store.mdata) (h₀ : ∀ i, (s₀.own i).Initial)
    (hregular : (processes md5).machine.Along
      (fun s a s' => Regular src s.store (s.own a.1) a.2 (s'.own a.1)) s₀ as)
    (hr : (processes md5).machine.run s₀ as = some s) :
    (∀ k (c : ChunkInfo), s.store.mdata.chunkInfo[k]? = some c → c.status = .chOk →
      pread s.store.localFile (k * src.chunkSize) (src.size k) = src.chunk k ∧
        c.md5sum = md5 (src.chunk k)) ∧
      ((∀ c ∈ s.store.mdata.chunkInfo, c.status = .chOk) →
        s.store.localFile.take src.content.length = src.content) := by
  have hholds : (contract src md5).Holds s :=
    (contract src md5).run ⟨hfiles, fun i => ok_initial (h₀ i) hfiles⟩ hregular hr
  exact ⟨hholds.shared.ok, hholds.shared.take_eq⟩

/-! ### Two clients and mhstatus -/

/-- Two clients with a worker each, and `mhstatus --reset --force`. -/
def sampleProcesses : Component.System Files Process Nat where
  store := ⟨(Download.sampleSource.header fun _ => Buffer.zero _).fresh 0, []⟩
  own := fun i =>
    if i < 2 then .client Download.sampleHistory.run
    else .tool ⟨.reset true, .start, Download.sampleHistory.run.mdata⟩

def sampleClient (i : Nat) (as : List Download.Act) : List (Nat × Act) :=
  as.map fun a => (i, .client (.step a))

/-- Both workers fetch the first chunk.  The first one is killed at the second chunk, while
mhstatus resets the table, and the other one fetches everything. -/
def sampleShared : List (Nat × Act) :=
  sampleClient 0 (Download.sampleOpen ++ (Download.sampleFetch []).take 2) ++
    sampleClient 1 (Download.sampleOpen ++ (Download.sampleFetch []).take 2) ++
    sampleClient 0 ((Download.sampleFetch []).drop 2) ++
    sampleClient 1 ((Download.sampleFetch []).drop 2) ++
    (2, .tool .load) :: sampleClient 0 ((Download.sampleFetch []).take 7) ++
    [(0, .client (.kill 0 0)), (2, .tool .save)] ++
    sampleClient 1 (Download.sampleFetch [] ++ Download.sampleFetch [])

theorem shared_integrity_sample : ∃ s,
    (processes fun _ => Buffer.zero _).machine.run sampleProcesses sampleShared = some s ∧
    s.store.mdata.chunkInfo.map ChunkInfo.status = [.chOk, .chOk] ∧
    s.store.localFile.take 2 = [1, 2] := by
  obtain ⟨s, hs, hok⟩ : ∃ s,
      (processes fun _ => Buffer.zero _).machine.run sampleProcesses sampleShared = some s ∧
        s.store.mdata.chunkInfo.map ChunkInfo.status = [.chOk, .chOk] :=
    Machine.exists_run (by decide +kernel)
  refine ⟨s, hs, hok, (shared_integrity Download.sampleSource _
    (Download.good_fresh _ _ _ _) (fun i => ?_) (by decide +kernel) hs).2 fun c hc => ?_⟩
  · unfold sampleProcesses
    dsimp only
    split
    · exact Download.initial_begin _ _ _ _
    · rfl
  · have hmem : c.status ∈ s.store.mdata.chunkInfo.map ChunkInfo.status :=
      List.mem_map.mpr ⟨c, hc, rfl⟩
    rw [hok] at hmem
    simpa using hmem

end Shared
end Mhftp
