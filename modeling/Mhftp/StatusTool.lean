import Mhftp.CheckTool
import Mhftp.InUse

/-! # mhstatus beside a running client

An operation of mhstatus without --force loads the .mdata file, looks for in_use in its copy,
and saves the copy if it was not in use.  Here it runs beside a download: its load and its
save are a step each, and so is each turn of the loop of `CheckDataChunks`.

What is saved is what was loaded, so the operation undoes what the client has written in the
meantime.  Only the client's main process can begin to write while in_use is 0; if it does not
as long as the operation has such a copy, nothing is undone (`client_kept`).
-/

namespace Mhftp
open Library

/-- What `resetAllChunks` saves. -/
def Metadata.resetAllChunks (m : Metadata) : Metadata :=
  { m with inUse := 0, chunkInfo := m.chunkInfo.map fun c => { c with status := .chPending } }

namespace StatusTool

/-- `CheckDataChunks`, and `resetDownloadingChunks` and `resetAllChunks` without force. -/
inductive Operation
  | check | recover | reset
  deriving DecidableEq

/-- Where the operation is: in `checking` at chunk `i`, with the file at `pos`. -/
inductive Pc
  | start
  | opening
  | checking (i pos : Nat)
  | saving
  | exited
  deriving DecidableEq

/-- The client, and the operation with its copy of the metadata.  The flags say what the
client has written to the .mdata file since the operation loaded it. -/
structure State where
  client : Download.State
  pc : Pc
  metadata : Metadata
  wroteTable : Bool
  wroteInUse : Bool

/-- The steps of the operation; `turn` has what is in the checked file at that moment. -/
inductive ToolAct
  | load | open | openFails | turn (file : List UInt8) | save

inductive Act
  | client (a : Download.Act)
  | tool (a : ToolAct)

/-- A step of the client that writes the table. -/
def writesTable : Download.Act → Bool
  | .parent .save | .parent .finish | .parent .killSave | .worker _ .claim
  | .worker _ .update => true
  | _ => false

/-- A step of the client that writes in_use. -/
def writesInUse : Download.Act → Bool
  | .parent .save | .parent .finish | .parent .killSave => true
  | _ => false

def toolStep (md5 : Md5) (op : Operation) (s : State) : ToolAct → Option State
  | .load =>
    match s.pc with
    | .start =>
      let m := s.client.mdata
      let loaded (pc : Pc) (metadata : Metadata) : State :=
        { s with pc, metadata, wroteTable := false, wroteInUse := false }
      match op with
      | .check => some (loaded .opening m)
      | .recover =>
        some (if m.inUse ≠ 0 then loaded .exited m else loaded .saving m.resetDownloadingChunks)
      | .reset =>
        some (if m.inUse ≠ 0 then loaded .exited m else loaded .saving m.resetAllChunks)
    | _ => none
  | .open =>
    match s.pc with
    | .opening => some { s with pc := .checking 0 0 }
    | _ => none
  | .openFails =>
    match s.pc with
    | .opening => some { s with pc := .exited }
    | _ => none
  | .turn file =>
    match s.pc with
    | .checking i pos =>
      match s.metadata.chunkInfo[i]? with
      | none => some { s with pc := if s.metadata.inUse = 0 then .saving else .exited }
      | some c =>
        match Metadata.checkChunk md5 file s.metadata.chunkSize pos c with
        -- the process dies
        | none => some { s with pc := .exited }
        | some (pos, c) =>
          some { s with
            pc := .checking (i + 1) pos
            metadata := { s.metadata with chunkInfo := s.metadata.chunkInfo.set i c } }
    | _ => none
  | .save =>
    match s.pc with
    | .saving => some { s with pc := .exited, client := { s.client with mdata := s.metadata } }
    | _ => none

def clientStep (md5 : Md5) (s : State) (a : Download.Act) : Option State :=
  ((Download.machine md5).step s.client a).map fun client =>
    { s with
      client
      wroteTable := s.wroteTable || writesTable a
      wroteInUse := s.wroteInUse || writesInUse a }

def step (md5 : Md5) (op : Operation) (s : State) : Act → Option State
  | .client a => clientStep md5 s a
  | .tool a => toolStep md5 op s a

def machine (md5 : Md5) (op : Operation) : Machine State Act := ⟨step md5 op⟩

/-- The client is about to begin, and so is the operation. -/
structure Initial (s : State) : Prop where
  client : Download.Initial s.client
  pc : s.pc = .start

/-- The operation has a copy of the .mdata file that it is going to save. -/
def State.holds (s : State) : Bool :=
  match s.pc with
  | .opening | .checking _ _ => s.metadata.inUse = 0
  | .saving => true
  | _ => false

/-- The status and the md5sum of each chunk. -/
def marks (m : Metadata) : List (ChunkStatus × Digest) :=
  m.chunkInfo.map fun c => (c.status, c.md5sum)

/-- A step of the operation does not replace what the client has written since it loaded the
.mdata file. -/
def Keeps (s : State) (a : Act) (s' : State) : Prop :=
  ∀ b, a = .tool b →
    (s.wroteInUse = true → s'.client.mdata.inUse = s.client.mdata.inUse) ∧
    (s.wroteTable = true → marks s'.client.mdata = marks s.client.mdata)

instance (s : State) (a : Act) (s' : State) : Decidable (Keeps s a s') :=
  match a with
  | .client _ => isTrue nofun
  | .tool b => decidable_of_iff
      ((s.wroteInUse = true → s'.client.mdata.inUse = s.client.mdata.inUse) ∧
        (s.wroteTable = true → marks s'.client.mdata = marks s.client.mdata))
      ⟨fun h _ _ => h, fun h => h b rfl⟩

/-- The client's main process does not save where in_use is 0 while the operation has a copy
that it is going to save: neither in_use itself nor, after a SIGINT before that, a reset. -/
def Apart (s : State) (a : Act) : Prop :=
  a = .client (.parent .save) ∨ a = .client (.parent .killSave) →
    s.client.mdata.inUse = 0 → s.holds = false

instance (s : State) (a : Act) : Decidable (Apart s a) :=
  match a with
  | .client (.parent .save) | .client (.parent .killSave) =>
    decidable_of_iff (s.client.mdata.inUse = 0 → s.holds = false) (by simp [Apart])
  | .client (.parent .load) | .client (.parent .fork) | .client (.parent .forkFails)
  | .client (.parent .refuse) | .client (.parent .wait) | .client (.parent .finish)
  | .client (.parent .sigint) | .client (.parent .killLoad) | .client (.worker _ _)
  | .client (.server _ _ _) | .tool _ => isTrue (by simp [Apart])

end StatusTool

/-! ### When the client is at work -/

namespace Download
variable {md5 : Md5} {s s' : State} {a : Act}

/-- What the steps that do not write leave alone. -/
theorem mdata_of_not_writes (h : (machine md5).step s a = some s') :
    (StatusTool.writesInUse a = false → s'.mdata.inUse = s.mdata.inUse) ∧
    (StatusTool.writesTable a = false → s'.mdata.chunkInfo = s.mdata.chunkInfo) := by
  cases step_cases h with
  | save | finish | killSave => exact ⟨nofun, nofun⟩
  | claim | update => exact ⟨fun _ => rfl, nofun⟩
  | receive =>
    obtain ⟨wk, toClient, he, -⟩ := receive_cases s _ _ _
    rw [he]
    exact ⟨fun _ => rfl, fun _ => rfl⟩
  | _ => exact ⟨fun _ => rfl, fun _ => rfl⟩

/-- Who writes has set in_use before, or is the main process that is about to. -/
theorem busy_of_writes (h : (machine md5).step s a = some s')
    (hw : StatusTool.writesTable a = true) :
    s.Busy ∨ a = .parent .save ∨ a = .parent .killSave := by
  cases step_cases h with
  | finish hpc => exact .inl (.inr (.inr hpc))
  | @claim w _ _ hpc | @update w _ _ hpc => exact .inl (.inl ⟨w, by rw [hpc]; rfl⟩)
  | save => exact .inr (.inl rfl)
  | killSave => exact .inr (.inr rfl)
  | _ => cases hw

theorem Flagged.inUse_ne (hs : Flagged s) (hb : s.Busy) : s.mdata.inUse ≠ 0 := by
  rw [hs.set (.inl hb)]
  decide

end Download

/-! ### What a save undoes -/

namespace StatusTool
variable {md5 : Md5} {op : Operation} {s s' : State} {a : Act}

/-- in_use is set while the client is at work, until the operation has saved, and the client has
not written to an .mdata file that is still as the operation found it. -/
structure Guarded (s : State) : Prop where
  client : s.pc ≠ .exited → Download.Flagged s.client
  free : s.holds = true → s.wroteInUse = false →
    s.client.mdata.inUse = 0 ∧ s.wroteTable = false
  saving : s.pc = .saving → s.metadata.inUse = 0

theorem Initial.guarded (h : Initial s) : Guarded s where
  client := fun _ => h.client.flagged
  free := fun hh => by simp [State.holds, h.pc] at hh
  saving := fun hpc => by rw [h.pc] at hpc; cases hpc

theorem pc_ne_exited_of_holds (h : s.holds = true) : s.pc ≠ .exited :=
  fun hpc => by simp [State.holds, hpc] at h

/-- The steps of the operation, as far as the client is concerned. -/
inductive ToolStep (s : State) : ToolAct → State → Prop
  /-- It loads the file: a copy that is going to be saved has in_use 0. -/
  | load {t} : s.pc = .start → t.client = s.client → t.wroteTable = false →
      t.wroteInUse = false → (t.holds = true → s.client.mdata.inUse = 0) →
      (t.pc = .saving → t.metadata.inUse = 0) → ToolStep s .load t
  /-- It goes on with its copy, or ends. -/
  | goOn {b t} : b ≠ .save → s.pc ≠ .exited → t.client = s.client →
      t.wroteTable = s.wroteTable → t.wroteInUse = s.wroteInUse →
      (t.holds = true → s.holds = true) →
      (t.pc = .saving → t.metadata.inUse = 0) → ToolStep s b t
  | save : s.pc = .saving → ToolStep s .save
      { s with pc := .exited, client := { s.client with mdata := s.metadata } }

theorem toolStep_cases {b : ToolAct} (h : toolStep md5 op s b = some s') : ToolStep s b s' := by
  cases b with
  | load =>
    simp only [toolStep] at h
    split at h
    · next hpc =>
      cases op with
      | check =>
        obtain rfl := Option.some.inj h
        exact .load hpc rfl rfl rfl (fun hh => by simpa [State.holds] using hh) nofun
      | recover | reset =>
        obtain rfl := Option.some.inj h
        split
        · exact .load hpc rfl rfl rfl nofun nofun
        · next hfree => exact .load hpc rfl rfl rfl (fun _ => not_not.mp hfree) fun _ => rfl
    · cases h
  | «open» =>
    simp only [toolStep] at h
    split at h <;> cases h
    next hpc =>
    exact .goOn nofun (by simp [hpc]) rfl rfl rfl
      (fun hh => by simpa [State.holds, hpc] using hh) nofun
  | openFails =>
    simp only [toolStep] at h
    split at h <;> cases h
    next hpc => exact .goOn nofun (by simp [hpc]) rfl rfl rfl nofun nofun
  | turn file =>
    simp only [toolStep] at h
    split at h
    · next i pos hpc =>
      have hne : s.pc ≠ .exited := by simp [hpc]
      have hholds : s.metadata.inUse = 0 → s.holds = true := by simp [State.holds, hpc]
      split at h
      · cases h
        refine .goOn nofun hne rfl rfl rfl (fun hh => hholds ?_) fun hsaving => ?_
        · by_contra hno
          simp [State.holds, hno] at hh
        · by_contra hno
          simp [hno] at hsaving
      · split at h <;> cases h
        · exact .goOn nofun hne rfl rfl rfl nofun nofun
        · exact .goOn nofun hne rfl rfl rfl
            (fun hh => hholds (by simpa [State.holds] using hh)) nofun
    · cases h
  | save =>
    simp only [toolStep] at h
    split at h <;> cases h
    exact .save ‹_›

theorem guarded_tool {b : ToolAct} (hs : Guarded s) (h : ToolStep s b s') : Guarded s' := by
  cases h with
  | load hpc hclient htable _ hfree hsaving =>
    have hne : s.pc ≠ .exited := by simp [hpc]
    exact ⟨fun _ => hclient ▸ hs.client hne, fun hh _ => ⟨hclient ▸ hfree hh, htable⟩, hsaving⟩
  | goOn _ hne hclient htable hinUse hholds hsaving =>
    refine ⟨fun _ => hclient ▸ hs.client hne, fun hh hno => ?_, hsaving⟩
    rw [hclient, htable]
    exact hs.free (hholds hh) (hinUse ▸ hno)
  | save hpc => exact ⟨fun hne => absurd rfl hne, nofun, nofun⟩

theorem guarded_client {b : Download.Act} (hs : Guarded s) (h : clientStep md5 s b = some s') :
    Guarded s' := by
  obtain ⟨t, ht, rfl⟩ := Option.map_eq_some_iff.mp h
  refine ⟨fun hpc => Download.flagged_step (hs.client hpc) ht, fun hholds hwrote => ?_, hs.saving⟩
  change (s.wroteInUse || writesInUse b) = false at hwrote
  change s.holds = true at hholds
  obtain ⟨hno, hnow⟩ := Bool.or_eq_false_iff.mp hwrote
  obtain ⟨hinUse, htable⟩ := hs.free hholds hno
  refine ⟨((Download.mdata_of_not_writes ht).1 hnow).trans hinUse, ?_⟩
  -- a worker that wrote to the table would be at work
  refine Bool.or_eq_false_iff.mpr ⟨htable, Bool.eq_false_of_not_eq_true fun hw => ?_⟩
  rcases Download.busy_of_writes ht hw with hb | rfl | rfl
  · exact (hs.client (pc_ne_exited_of_holds hholds)).inUse_ne hb hinUse
  · cases hnow
  · cases hnow

theorem guarded_step (hs : Guarded s) (h : (machine md5 op).step s a = some s') : Guarded s' := by
  cases a with
  | client b => exact guarded_client hs h
  | tool b => exact guarded_tool hs (toolStep_cases h)

/-- The client has not written in_use since the operation made the copy it is going to save. -/
def Unwritten (s : State) : Prop := s.holds = true → s.wroteInUse = false

theorem unwritten_step (hs : Guarded s) (hu : Unwritten s) (ha : Apart s a)
    (h : (machine md5 op).step s a = some s') : Unwritten s' := by
  intro hholds
  cases a with
  | client b =>
    obtain ⟨t, ht, rfl⟩ := Option.map_eq_some_iff.mp h
    change s.holds = true at hholds
    have hfree := (hs.free hholds (hu hholds)).1
    refine Bool.or_eq_false_iff.mpr ⟨hu hholds, ?_⟩
    cases Download.step_cases ht with
    | save => exact absurd (ha (.inl rfl) hfree) (by simp [hholds])
    | killSave => exact absurd (ha (.inr rfl) hfree) (by simp [hholds])
    | finish hpc =>
      exact absurd hfree ((hs.client (pc_ne_exited_of_holds hholds)).inUse_ne (.inr (.inr hpc)))
    | _ => rfl
  | tool b =>
    cases toolStep_cases h with
    | load _ _ _ hno => exact hno
    | goOn _ _ _ _ hinUse hback => exact hinUse.trans (hu (hback hholds))
    | save => cases hholds

/-- Where nothing has been written, nothing is replaced. -/
theorem keeps_of_unwritten (hs : Guarded s) (hu : Unwritten s)
    (h : (machine md5 op).step s a = some s') : Keeps s a s' := by
  rintro b rfl
  cases toolStep_cases h with
  | load _ hclient | goOn _ _ hclient =>
    rw [hclient]
    exact ⟨fun _ => rfl, fun _ => rfl⟩
  | save hpc =>
    have hholds : s.holds = true := by simp [State.holds, hpc]
    rw [hu hholds, (hs.free hholds (hu hholds)).2]
    exact ⟨nofun, nofun⟩

/-- While the client is at work a save replaces its in_use. -/
theorem not_keeps_of_busy (hs : Guarded s) (hb : s.client.Busy)
    (h : (machine md5 op).step s (.tool .save) = some s') : ¬ Keeps s (.tool .save) s' := by
  intro hkeeps
  have hstep : toolStep md5 op s .save = some s' := h
  cases toolStep_cases hstep with
  | goOn hno => exact absurd rfl hno
  | save hpc =>
    have hne : s.client.mdata.inUse ≠ 0 := (hs.client (by simp [hpc])).inUse_ne hb
    have hwrote : s.wroteInUse = true := by
      by_contra hno
      exact hne (hs.free (by simp [State.holds, hpc]) (Bool.eq_false_of_not_eq_true hno)).1
    exact hne (((hkeeps _ rfl).1 hwrote).symm.trans (hs.saving hpc))

/-- **What mhstatus undoes.**  As long as the client's main process does not begin to write
between the load of an operation and its save, no step of the operation replaces what the
client has written since the load.  A save that comes while the client is at work always
does. -/
theorem client_kept (md5 : Md5) (op : Operation) {s₀ : State} (h₀ : Initial s₀) (as : List Act) :
    ((machine md5 op).Along (fun s a _ => Apart s a) s₀ as →
      (machine md5 op).Along Keeps s₀ as) ∧
    (machine md5 op).Along (fun s a s' => a = .tool .save → s.client.Busy → ¬ Keeps s a s')
      s₀ as := by
  refine ⟨fun hapart => ?_, ?_⟩
  · refine Machine.along_of_invariant (I := fun s => Guarded s ∧ Unwritten s)
      (fun s a s' hs ha h => ?_) ⟨h₀.guarded, fun hh => ?_⟩ hapart
    · exact ⟨⟨guarded_step hs.1 h, unwritten_step hs.1 hs.2 ha h⟩,
        keeps_of_unwritten hs.1 hs.2 h⟩
    · simp [State.holds, h₀.pc] at hh
  · refine Machine.along_of_invariant (P := fun _ _ _ => True)
      (fun s a s' hs _ h => ⟨guarded_step hs h, ?_⟩) h₀.guarded
      (Machine.along_of_forall (fun _ _ _ _ => trivial) _ _)
    rintro rfl hb
    exact not_keeps_of_busy hs hb h

/-! ### A check that nobody disturbs -/

theorem length_of_checkChunks {file : List UInt8} {chunkSize : Int} {pos : Nat}
    {todo table : List ChunkInfo}
    (h : Metadata.checkChunks md5 file chunkSize pos todo = some table) :
    table.length = todo.length := by
  induction todo generalizing pos table with
  | nil =>
    obtain rfl := Option.some.inj h
    rfl
  | cons c todo ih =>
    obtain ⟨⟨pos', c'⟩, _, hrest⟩ := Option.bind_eq_some_iff.mp h
    obtain ⟨rest, hrest, hcons⟩ := Option.map_eq_some_iff.mp hrest
    rw [← hcons, List.length_cons, ih hrest, List.length_cons]

/-- The rest of the loop, one turn for each chunk. -/
theorem turns_run {file : List UInt8} {i pos : Nat} {done todo table : List ChunkInfo}
    (hpc : s.pc = .checking i pos) (hinfo : s.metadata.chunkInfo = done ++ todo)
    (hdone : done.length = i)
    (hcheck : Metadata.checkChunks md5 file s.metadata.chunkSize pos todo = some table) :
    ∃ pos', (machine md5 op).run s (List.replicate todo.length (.tool (.turn file))) =
      some { s with
        pc := .checking (i + todo.length) pos'
        metadata := { s.metadata with chunkInfo := done ++ table } } := by
  induction todo generalizing s i pos done table with
  | nil =>
    obtain rfl := Option.some.inj hcheck
    refine ⟨pos, congrArg some ?_⟩
    rw [← hinfo]
    cases s
    cases hpc
    rfl
  | cons c todo ih =>
    rw [Metadata.checkChunks, Option.bind_eq_some_iff] at hcheck
    obtain ⟨⟨pos₁, c₁⟩, hchunk, hcheck⟩ := hcheck
    obtain ⟨rest, hrest, rfl⟩ := Option.map_eq_some_iff.mp hcheck
    have hget : s.metadata.chunkInfo[i]? = some c := by
      rw [hinfo, ← hdone]
      simp
    have hset : s.metadata.chunkInfo.set i c₁ = (done ++ [c₁]) ++ todo := by
      rw [hinfo, ← hdone]
      simp
    have hturn : (machine md5 op).step s (.tool (.turn file)) = some { s with
        pc := .checking (i + 1) pos₁
        metadata := { s.metadata with chunkInfo := s.metadata.chunkInfo.set i c₁ } } := by
      simp only [machine, step, toolStep, hpc, hget, hchunk]
    obtain ⟨pos', hrun⟩ := ih (s := { s with
      pc := .checking (i + 1) pos₁
      metadata := { s.metadata with chunkInfo := s.metadata.chunkInfo.set i c₁ } })
      rfl hset (by simp [hdone]) hrest
    refine ⟨pos', ?_⟩
    rw [List.length_cons, List.replicate_succ, Machine.run_cons_of_step hturn, hrun]
    simp [Nat.add_assoc, Nat.add_comm 1]

/-- **Alone the steps do what `checkDataChunks` does.** -/
theorem check_alone {file : List UInt8} {m : Metadata} (hpc : s.pc = .start)
    (hfree : s.client.mdata.inUse = 0)
    (hcheck : s.client.mdata.checkDataChunks md5 file = some m) :
    ∃ s', (machine md5 .check).run s ([.tool .load, .tool .open] ++
        (List.replicate s.client.mdata.chunkInfo.length (.tool (.turn file)) ++
          [.tool (.turn file), .tool .save])) = some s' ∧ s'.client.mdata = m := by
  obtain ⟨table, htable, rfl⟩ := Option.map_eq_some_iff.mp hcheck
  let opened : State := { s with
    pc := .checking 0 0, metadata := s.client.mdata, wroteTable := false, wroteInUse := false }
  have hopen : (machine md5 .check).run s [.tool .load, .tool .open] = some opened := by
    simp [machine, Machine.run, step, toolStep, hpc, opened]
  have hinfo : opened.metadata.chunkInfo = [] ++ s.client.mdata.chunkInfo := rfl
  obtain ⟨pos, hturns⟩ := turns_run (i := 0) rfl hinfo rfl htable
  -- the turn that finds no chunk, and the save
  have hend : table[s.client.mdata.chunkInfo.length]? = none :=
    List.getElem?_eq_none (length_of_checkChunks htable).le
  have hfree' : opened.metadata.inUse = 0 := hfree
  rw [Machine.run_append_of_run hopen, Machine.run_append_of_run hturns, if_pos hfree]
  let saved : Metadata := { s.client.mdata with chunkInfo := table, inUse := 0 }
  refine ⟨{ opened with
    pc := .exited, metadata := saved, client := { s.client with mdata := saved } }, ?_, ?_⟩
  · simp only [machine, Machine.run, step, toolStep, Nat.zero_add, List.nil_append, hend, hfree',
      if_true, Option.bind_some]
    rfl
  · simp only [saved, hfree]

/-- A download of one chunk, and an operation of mhstatus. -/
def sampleStart : State where
  client := Download.sampleStart 1
  pc := .start
  metadata := Download.sampleMetadata
  wroteTable := false
  wroteInUse := false

/-- The client sets in_use, and its worker claims the chunk. -/
def sampleBegin : List Act :=
  ([.parent .load, .parent .save, .parent .fork, .worker 0 .open, .worker 0 .lock,
    .worker 0 .load, .worker 0 .claim] : List Download.Act).map Act.client

/-- A check that finds in_use set: it goes on while a worker claims the chunk, and saves
nothing. -/
theorem client_kept_sample :
    (machine (fun _ => Buffer.zero _) .check).Along Keeps sampleStart
      (sampleBegin.take 2 ++ [.tool .load, .tool .open] ++ sampleBegin.drop 2 ++
        [.tool (.turn [1]), .tool (.turn [1])]) :=
  (client_kept _ _ ⟨Download.initial_begin _ _ _ _, rfl⟩ _).1 (by decide +kernel)

/-- The check begins before the client and comes to its end when a chunk has been claimed. -/
def sampleCheck : List Act :=
  [.tool .load, .tool .open] ++ sampleBegin ++ [.tool (.turn []), .tool (.turn [])]

/-- It clears the in_use byte of a client that is at work, and the chunk that the worker has
claimed is CH_PENDING again. -/
theorem client_kept_fails :
    ¬ (machine (fun _ => Buffer.zero _) .check).Along Keeps sampleStart
      (sampleCheck ++ [.tool .save]) ∧
    ((machine (fun _ => Buffer.zero _) .check).run sampleStart sampleCheck).map (fun s =>
      (s.client.mdata.inUse, s.client.mdata.chunkInfo.map ChunkInfo.status)) =
        some (1, [.chDownload]) ∧
    ((machine (fun _ => Buffer.zero _) .check).run sampleStart
      (sampleCheck ++ [.tool .save])).map (fun s =>
        (s.client.mdata.inUse, s.client.mdata.chunkInfo.map ChunkInfo.status)) =
          some (0, [.chPending]) := by
  exact ⟨by decide +kernel, by decide +kernel, by decide +kernel⟩

end StatusTool
end Mhftp
