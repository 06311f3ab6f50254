import Mathlib.Data.List.DropRight
import Mhftp.Session
import Mhftp.UploadWire

/-! # The files that are opened for writing

`InitUpload` creates the file that it makes of the path it reads, and
`ReceiveChunkFromClient` opens the file of the last path.  A session is observed together
with the paths that the process has read in UPLOAD_INITs.

`AbsoluteFile` stops in front of the first byte, so a path whose only '/' is there stays as
it is (`absoluteFile_of_loneSlash`); and the constructor leaves `local_file_` as it was.
-/

namespace Mhftp
open Library

/-- The part of a path after its last '/'. -/
def afterLastSlash (p : Path) : Path := p.rtakeWhile (· ≠ 47)

/-- The only '/' of a path is its first byte. -/
def LoneSlash : Path → Prop
  | [] => False
  | c :: p => c = 47 ∧ 47 ∉ p

instance : (p : Path) → Decidable (LoneSlash p)
  | [] => inferInstanceAs (Decidable False)
  | c :: p => inferInstanceAs (Decidable (c = 47 ∧ 47 ∉ p))

section Names
variable {p : Path}

theorem slash_notMem_afterLastSlash (p : Path) : 47 ∉ afterLastSlash p := by
  intro h
  exact absurd (List.mem_rtakeWhile_imp h) (by decide)

theorem LoneSlash.slash_mem (h : LoneSlash p) : 47 ∈ p := by
  cases p with
  | nil => exact h.elim
  | cons c p => exact h.1 ▸ List.mem_cons_self

/-- The scan for the last '/' misses the one at index 0. -/
theorem absoluteFile_of_loneSlash (h : LoneSlash p) : absoluteFile p = p := by
  cases p with
  | nil => exact h.elim
  | cons c p => exact if_neg h.2

theorem absoluteFile_eq (h : ¬ LoneSlash p) : absoluteFile p = afterLastSlash p := by
  cases p with
  | nil => rfl
  | cons c p =>
    rw [absoluteFile, afterLastSlash, List.rtakeWhile, List.reverse_cons, List.takeWhile_append]
    by_cases hp : 47 ∈ p
    · rw [if_pos hp, if_neg]
      intro hall
      have hself := (List.takeWhile_prefix _).eq_of_length hall
      have hslash := List.takeWhile_eq_self_iff.mp hself 47 (List.mem_reverse.mpr hp)
      exact absurd hslash (by decide)
    · have hc : c ≠ 47 := fun hc => h ⟨hc, hp⟩
      have hself : p.reverse.takeWhile (· ≠ 47) = p.reverse :=
        List.takeWhile_eq_self_iff.mpr fun b hb =>
          decide_eq_true fun hne => hp (hne ▸ List.mem_reverse.mp hb)
      rw [if_neg hp, if_pos (congrArg List.length hself)]
      simp [hc]

theorem absoluteFile_eq_iff : absoluteFile p = afterLastSlash p ↔ ¬ LoneSlash p := by
  refine ⟨fun h hlone => ?_, absoluteFile_eq⟩
  rw [absoluteFile_of_loneSlash hlone] at h
  exact slash_notMem_afterLastSlash p (h ▸ hlone.slash_mem)

end Names

/-! ### What a process opens -/

/-- The directory holds files with names that files can have. -/
def RegularDir (dir : Dir) : Prop := ∀ p, namesNoFile p = true → dir.hasFile p = false

section Regular
variable {dir : Dir} {f : Path}

theorem RegularDir.named (h : RegularDir dir) (hf : dir.hasFile f = true) :
    namesNoFile f = false := by
  by_contra hno
  rw [Bool.not_eq_false] at hno
  rw [h f hno] at hf
  cases hf

theorem RegularDir.update (h : RegularDir dir) (hf : namesNoFile f = false)
    (content : Option Node) : RegularDir (update dir f content) := by
  intro p hp
  rw [hasFile_congr (update_of_ne _ _ fun hpf => absurd (hpf ▸ hp) (by simp [hf]))]
  exact h p hp

theorem RegularDir.touch (h : RegularDir dir) (f : Path) : RegularDir (touch dir f) := by
  unfold Mhftp.touch
  split
  · exact h
  · next hno =>
    rw [not_or, Bool.not_eq_true] at hno
    exact h.update hno.1 _

end Regular

namespace MhProtoServer
variable (junk : Nat → UInt8)

/-- The path that `InitUpload` reads in the next step. -/
def initPath (srv : MhProtoServer) (w : Wire) : Option Path :=
  if srv.nextCommand w = [4] then
    let path_size :=
      (w.soRead 1).wire.readBuffer (unsetBuffer junk 0 2)
    let size := decodeInt path_size.value.bytes
    if (fnameSize : Int) < size then none else some (readPath size path_size.wire).value
  else none

/-- The file that the next step opens for writing. -/
def opens (srv : MhProtoServer) (dir : Dir) (w : Wire) : Option Path :=
  if srv.nextCommand w = [3] then
    if dir.hasFile srv.localFile then some srv.localFile else none
  else (srv.initPath junk w).bind fun local_file =>
    let localFile := absoluteFile local_file
    if (touch dir localFile).hasFile localFile then some localFile else none

/-- The file that a process has open for writing. -/
def fileOpen (srv : MhProtoServer) : Option Path :=
  match srv.pc with
  | .receiveChunk file _ _ _ _ => file
  | _ => none

/-- What a step other than `InitUpload` does to the file name and to the files. -/
structure Keeps (srv : MhProtoServer) (dir : Dir) (w : Wire) (r : Served) : Prop where
  initPath : srv.initPath junk w = none
  localFile : r.server.localFile = srv.localFile
  files : r.dir = dir ∨
    ∃ f content, srv.fileOpen = some f ∧ r.dir = update dir f (some (.file content))
  fileOpen : ∀ f, r.server.fileOpen = some f →
    srv.fileOpen = some f ∨ srv.opens junk dir w = some f

section Steps
variable {md5 : Md5} {junk} {srv : MhProtoServer} {dir : Dir} {w : Wire} {r : Served}

theorem initPath_of_ne (h : srv.nextCommand w ≠ [4]) : srv.initPath junk w = none := if_neg h

/-- A step that leaves the files alone and has none open for writing. -/
theorem Keeps.quiet (hpath : srv.initPath junk w = none)
    (hlocalFile : r.server.localFile = srv.localFile) (hdir : r.dir = dir)
    (hopen : r.server.fileOpen = none) : Keeps junk srv dir w r := by
  refine ⟨hpath, hlocalFile, .inl hdir, fun f hf => ?_⟩
  rw [hopen] at hf
  cases hf

theorem sendChunkToClient_keeps (h : srv.nextCommand w ≠ [4]) :
    Keeps junk srv dir w (srv.sendChunkToClient dir (w.soRead 1).wire) := by
  unfold sendChunkToClient
  dsimp only
  repeat (first | exact .quiet (initPath_of_ne h) rfl rfl rfl | split)

theorem writeAnswer_keeps {pc : ServerPc} {data : List UInt8} {v : Wire}
    (h : srv.nextCommand w ≠ [4]) (hpc : (srv.goto pc).fileOpen = none) :
    Keeps junk srv dir w (srv.writeAnswer md5 pc data dir v) := by
  unfold writeAnswer
  split
  · exact .quiet (initPath_of_ne h) rfl rfl rfl
  · exact .quiet (initPath_of_ne h) rfl rfl hpc

theorem sendChunkTurn_keeps {file : Path} {wait pos : Nat} (h : srv.nextCommand w ≠ [4]) :
    Keeps junk srv dir w (srv.sendChunkTurn md5 junk file wait pos dir w) := by
  have hloop (n pos : Nat) :
      (srv.goto (if n = 0 then .rcvCmd else .sendChunk file n pos)).fileOpen = none := by
    cases n <;> rfl
  unfold sendChunkTurn
  dsimp only
  split
  · exact .quiet (initPath_of_ne h) rfl rfl rfl
  split
  · exact .quiet (initPath_of_ne h) rfl rfl rfl
  split
  · exact .quiet (initPath_of_ne h) rfl rfl rfl
  split
  · exact .quiet (initPath_of_ne h) rfl rfl rfl
  exact writeAnswer_keeps h (hloop _ _)

theorem sendMetadataToClient_keeps (h : srv.nextCommand w ≠ [4]) :
    Keeps junk srv dir w (srv.sendMetadataToClient md5 junk dir (w.soRead 1).wire) := by
  unfold sendMetadataToClient
  dsimp only
  split
  · exact .quiet (initPath_of_ne h) rfl rfl rfl
  · split <;> exact .quiet (initPath_of_ne h) rfl rfl rfl

theorem writeChunk_keeps {file : Option Path} {pos pos' : Nat} {chunkNumber chunkSize n m : Int}
    {buffer b : Nat → UInt8} {v : Wire} (hpc : srv.pc = .receiveChunk file pos' n m b) :
    Keeps junk srv dir w (srv.writeChunk file pos chunkNumber chunkSize buffer dir v) := by
  have hcmd : srv.nextCommand w ≠ [4] := by
    rw [nextCommand_of_ne (by rw [hpc]; nofun)]
    nofun
  have hopen : srv.fileOpen = file := by
    unfold fileOpen
    rw [hpc]
  unfold writeChunk
  split
  · exact .quiet (initPath_of_ne hcmd) rfl rfl rfl
  · next f =>
    exact ⟨initPath_of_ne hcmd, rfl, .inr ⟨f, _, hopen, rfl⟩, fun g hg => .inl (hg ▸ hopen)⟩

theorem receiveChunkTurn_keeps {file : Option Path} {pos : Nat} {n m : Int} {b : Nat → UInt8}
    (hpc : srv.pc = .receiveChunk file pos n m b) :
    Keeps junk srv dir w (srv.receiveChunkTurn file pos n m b dir w) := by
  have hcmd : srv.nextCommand w ≠ [4] := by
    rw [nextCommand_of_ne (by rw [hpc]; nofun)]
    nofun
  obtain ⟨v, -, ⟨pc, rfl | rfl, hturn⟩ | ⟨n', m', b', hturn⟩⟩ := receiveChunkTurn_cases
  · rw [hturn]
    exact .quiet (initPath_of_ne hcmd) rfl rfl rfl
  · rw [hturn]
    exact .quiet (initPath_of_ne hcmd) rfl rfl rfl
  · rw [hturn]
    exact writeChunk_keeps hpc

theorem initUpload_names (h : srv.nextCommand w = [4]) {r : Served}
    (hr : srv.initUpload junk dir (w.soRead 1).wire = r) :
    (∃ p, srv.initPath junk w = some p ∧ r.server.localFile = absoluteFile p ∧
      r.dir = touch dir (absoluteFile p) ∧ r.server.fileOpen = none) ∨ Keeps junk srv dir w r := by
  subst hr
  have hpath : srv.initPath junk w = _ := if_pos h
  unfold initUpload
  dsimp only at hpath ⊢
  split
  · next hsize => exact .inr (.quiet (hpath.trans (if_pos hsize)) rfl rfl rfl)
  · next hsize => exact .inl ⟨_, hpath.trans (if_neg hsize), rfl, rfl, rfl⟩

/-- **What a step does to the file name and to the files.** -/
theorem step_names (hr : srv.step md5 junk dir w = some r) :
    (∃ p, srv.initPath junk w = some p ∧ r.server.localFile = absoluteFile p ∧
      r.dir = touch dir (absoluteFile p) ∧ r.server.fileOpen = none) ∨ Keeps junk srv dir w r := by
  unfold step at hr
  split at hr <;> cases hr
  · next hpc =>
    have hcmd : srv.nextCommand w = if (w.soRead 1).br ≤ 0 then [] else (w.soRead 1).value := by
      unfold nextCommand
      rw [hpc]
    unfold rcvCmd
    dsimp only
    by_cases hbr : (w.soRead 1).br ≤ 0
    · rw [if_pos hbr] at hcmd ⊢
      exact .inr ⟨initPath_of_ne (by rw [hcmd]; nofun), rfl, .inl rfl, nofun⟩
    · rw [if_neg hbr] at hcmd ⊢
      by_cases h₁ : (w.soRead 1).value = [1]
      · rw [if_pos h₁]
        exact .inr (sendChunkToClient_keeps (by rw [hcmd, h₁]; decide))
      rw [if_neg h₁]
      by_cases h₂ : (w.soRead 1).value = [2]
      · rw [if_pos h₂]
        exact .inr (sendMetadataToClient_keeps (by rw [hcmd, h₂]; decide))
      rw [if_neg h₂]
      by_cases h₃ : (w.soRead 1).value = [3]
      · rw [if_pos h₃]
        refine .inr ⟨initPath_of_ne (by rw [hcmd, h₃]; decide), rfl, .inl rfl, fun f hf => .inr ?_⟩
        rw [opens, if_pos (hcmd.trans h₃)]
        exact hf
      rw [if_neg h₃]
      by_cases h₄ : (w.soRead 1).value = [4]
      · rw [if_pos h₄]
        exact initUpload_names (hcmd.trans h₄) rfl
      rw [if_neg h₄]
      exact .inr ⟨initPath_of_ne (hcmd ▸ h₄), rfl, .inl rfl, fun f hf => .inl hf⟩
  · next hpc =>
    exact .inr (sendChunkTurn_keeps (by rw [nextCommand_of_ne (by rw [hpc]; nofun)]; nofun))
  · next hpc => exact .inr (receiveChunkTurn_keeps hpc)

end Steps
end MhProtoServer
/-! ### Sessions -/

namespace Session

def nextCommand (s : Session) : SessionAct → List UInt8
  | .serve _ script => s.server.nextCommand ⟨s.unread, script, s.short⟩
  | .files _ => []

def initPath (s : Session) : SessionAct → Option Path
  | .serve junk script => s.server.initPath junk ⟨s.unread, script, s.short⟩
  | .files _ => none

def opens (s : Session) : SessionAct → Option Path
  | .serve junk script => s.server.opens junk s.dir ⟨s.unread, script, s.short⟩
  | .files _ => none

end Session

/-- A session, and the paths that its process has read in UPLOAD_INITs. -/
structure Recorded where
  session : Session
  inits : List Path

def recorded (md5 : Md5) : Machine Recorded SessionAct :=
  ⟨fun o a => (o.session.step md5 a).map fun s => ⟨s, o.inits ++ (o.session.initPath a).toList⟩⟩

/-- A file that is opened for writing has the name at the end of a path that was sent. -/
def OpensNamed (o : Recorded) (a : SessionAct) (o' : Recorded) : Prop :=
  ∀ f ∈ o.session.opens a, (∃ p ∈ o'.inits, f = afterLastSlash p) ∧ 47 ∉ f

/-- No path that names a file, or that a new file can have, starts with its only '/', and
UPLOAD_CHUNK does not come first, or with such a name, unless what `local_file_` holds is not
a file. -/
def InitNames (o : Recorded) (a : SessionAct) (_ : Recorded) : Prop :=
  (∀ p ∈ o.session.initPath a, LoneSlash p →
    namesNoFile p = true ∨ o.session.dir.isFolder p = true) ∧
  (o.session.nextCommand a = [3] →
    o.inits ≠ [] ∧ ¬ LoneSlash o.session.server.localFile ∨
      o.session.dir.hasFile o.session.server.localFile = false)

instance (o : Recorded) (a : SessionAct) (o' : Recorded) : Decidable (InitNames o a o') :=
  inferInstanceAs (Decidable (_ ∧ _))

/-- What holds of a session throughout. -/
structure Recorded.Tracked (o : Recorded) : Prop where
  regular : RegularDir o.session.dir
  fileOpen : ∀ f, o.session.server.fileOpen = some f → namesNoFile f = false
  localFile : o.inits = [] ∨ ∃ p ∈ o.inits, o.session.server.localFile = absoluteFile p

section Track
variable {md5 : Md5} {o o' : Recorded} {a : SessionAct}

theorem recorded_step (h : (recorded md5).step o a = some o') :
    o.session.step md5 a = some o'.session ∧
      o'.inits = o.inits ++ (o.session.initPath a).toList := by
  obtain ⟨s, hs, rfl⟩ := Option.map_eq_some_iff.mp h
  exact ⟨hs, rfl⟩

/-- A path that may name a file names one by what follows its last '/'. -/
theorem RegularDir.absoluteFile {dir : Dir} {p : Path} (hdir : RegularDir dir)
    (hp : LoneSlash p → namesNoFile p = true ∨ dir.isFolder p = true)
    (hf : (Mhftp.touch dir (absoluteFile p)).hasFile (absoluteFile p) = true) :
    absoluteFile p = afterLastSlash p := by
  refine absoluteFile_eq fun hlone => ?_
  rw [absoluteFile_of_loneSlash hlone] at hf
  rcases hp hlone with hno | hfolder
  · rw [(hdir.touch p).named hf] at hno
    cases hno
  · rw [hasFile_touch_of_isFolder hfolder] at hf
    cases hf

theorem RegularDir.opens {srv : MhProtoServer} {junk : Nat → UInt8} {dir : Dir} {w : Wire}
    {f : Path} (hdir : RegularDir dir) (hpath : srv.initPath junk w = none)
    (hf : srv.opens junk dir w = some f) : namesNoFile f = false := by
  rw [MhProtoServer.opens, hpath] at hf
  split at hf
  · obtain ⟨hsome, hf⟩ := Option.ite_none_right_eq_some.mp hf
    exact hdir.named (Option.some.inj hf ▸ hsome)
  · cases hf

/-- **One step.** -/
theorem Recorded.Tracked.opensNamed_iff (hs : o.Tracked) (h : (recorded md5).step o a = some o') :
    OpensNamed o a o' ↔ InitNames o a o' := by
  obtain ⟨-, hinits⟩ := recorded_step h
  unfold OpensNamed InitNames
  cases a with
  | files dir => simp [Session.opens, Session.initPath, Session.nextCommand]
  | serve junk script =>
    simp only [Session.opens, Session.initPath, Session.nextCommand, MhProtoServer.opens]
      at hinits ⊢
    generalize hw : (Wire.mk o.session.unread script o.session.short) = w at hinits ⊢
    by_cases hcmd : o.session.server.nextCommand w = [3]
    · have hpath : o.session.server.initPath junk w = none :=
        MhProtoServer.initPath_of_ne (by rw [hcmd]; decide)
      rw [hpath, Option.toList_none, List.append_nil] at hinits
      rw [if_pos hcmd, hpath, hinits]
      constructor
      · -- without an UPLOAD_INIT before, no name has been sent
        refine fun hopen => ⟨nofun, fun _ => ?_⟩
        rw [or_iff_not_imp_right, Bool.not_eq_false]
        intro hfile
        obtain ⟨⟨p, hp, -⟩, hslash⟩ := hopen _ (if_pos hfile)
        exact ⟨List.ne_nil_of_mem hp, fun hlone => hslash hlone.slash_mem⟩
      · intro hnames f hf
        obtain ⟨hsome, hf⟩ := Option.ite_none_right_eq_some.mp hf
        obtain rfl := Option.some.inj hf
        obtain ⟨hsent, hlone⟩ := (hnames.2 hcmd).resolve_right (by simp [hsome])
        obtain ⟨p, hp, hlocal⟩ := hs.localFile.resolve_left hsent
        rw [hlocal] at hlone ⊢
        rw [absoluteFile_eq fun h => hlone (by rwa [absoluteFile_of_loneSlash h])]
        exact ⟨⟨p, hp, rfl⟩, slash_notMem_afterLastSlash p⟩
    · rw [if_neg hcmd]
      cases hpath : o.session.server.initPath junk w with
      | none => exact ⟨fun _ => ⟨nofun, fun h => absurd h hcmd⟩, fun _ => nofun⟩
      | some p =>
        rw [hpath] at hinits
        have hmem : p ∈ o'.inits := hinits ▸ List.mem_append_right _ List.mem_cons_self
        constructor
        · -- a path that `AbsoluteFile` leaves alone still has its '/'
          refine fun hopen => ⟨fun q hq hlone => ?_, fun h => absurd h hcmd⟩
          obtain rfl := Option.some.inj hq
          by_contra hno
          rw [not_or, Bool.not_eq_true, Bool.not_eq_true, ← absoluteFile_of_loneSlash hlone] at hno
          refine (hopen (absoluteFile p) (if_pos (hasFile_touch hno.1 hno.2))).2 ?_
          rw [absoluteFile_of_loneSlash hlone]
          exact hlone.slash_mem
        · intro hnames f hf
          obtain ⟨hsome, hf⟩ := Option.ite_none_right_eq_some.mp hf
          obtain rfl := Option.some.inj hf
          rw [hs.regular.absoluteFile (hnames.1 p rfl) hsome]
          exact ⟨⟨p, hmem, rfl⟩, slash_notMem_afterLastSlash p⟩

theorem tracked_step (hs : o.Tracked)
    (hfiles : ∀ dir, a = .files dir → RegularDir dir) (h : (recorded md5).step o a = some o') :
    o'.Tracked := by
  obtain ⟨hstep, hinits⟩ := recorded_step h
  obtain ⟨s, inits⟩ := o'
  cases a with
  | files dir =>
    obtain rfl : _ = s := Option.some.inj hstep
    obtain rfl : inits = o.inits := hinits.trans (List.append_nil _)
    exact ⟨hfiles dir rfl, hs.fileOpen, hs.localFile⟩
  | serve junk script =>
    obtain ⟨r, hr, rfl⟩ := Option.map_eq_some_iff.mp hstep
    dsimp only at hinits
    -- UPLOAD_INIT makes the name and its file; every other step keeps the name
    rcases MhProtoServer.step_names hr with ⟨p, hpath, hlocal, hdir, hopen⟩ | hkeep
    · have hinit : o.session.initPath (.serve junk script) = some p := hpath
      rw [hinit] at hinits
      refine ⟨?_, fun f hf => ?_, .inr ⟨p, ?_, hlocal⟩⟩
      · show RegularDir r.dir
        rw [hdir]
        exact hs.regular.touch _
      · exact absurd (hopen.symm.trans hf) nofun
      · show p ∈ inits
        rw [hinits]
        exact List.mem_append_right _ List.mem_cons_self
    · have hinit : o.session.initPath (.serve junk script) = none := hkeep.initPath
      rw [hinit, Option.toList_none, List.append_nil] at hinits
      subst hinits
      refine ⟨?_, fun f hf => ?_, ?_⟩
      · show RegularDir r.dir
        obtain hdir | ⟨f, content, hf, hdir⟩ := hkeep.files <;> rw [hdir]
        · exact hs.regular
        · exact hs.regular.update (hs.fileOpen f hf) _
      · obtain hf | hf := hkeep.fileOpen f hf
        · exact hs.fileOpen f hf
        · exact hs.regular.opens hkeep.initPath hf
      · show o.inits = [] ∨ ∃ p ∈ o.inits, r.server.localFile = absoluteFile p
        rw [hkeep.localFile]
        exact hs.localFile

theorem tracked_accept {metadata : Header} {localFile : Path} {uploadDigest : Digest} {dir : Dir}
    {unread : List UInt8} (hdir : RegularDir dir) :
    (Recorded.mk (.accept metadata localFile uploadDigest dir unread) []).Tracked :=
  ⟨hdir, nofun, .inl rfl⟩

theorem Recorded.Tracked.along_iff (hs : o.Tracked) {as : List SessionAct}
    (hfiles : ∀ d, .files d ∈ as → RegularDir d) :
    (recorded md5).Along OpensNamed o as ↔ (recorded md5).Along InitNames o as := by
  refine Machine.along_iff_of_invariant (fun o a ha o' hs h => ?_) hs
  have hfirst : ∀ d, a = .files d → RegularDir d := fun d hd => hfiles d (hd ▸ ha)
  exact ⟨hs.opensNamed_iff h, fun _ => tracked_step hs hfirst h⟩

end Track

/-! ### The client -/

/-- METADATA_EXT -/
def metadataExt : Path := [46, 109, 100, 97, 116, 97]

/-- The local file and the .mdata file, as `DownloadFile` names them, if they fit into its
arrays. -/
def downloadNames (file : Path) : Option (Path × Path) :=
  let file_name := absoluteFile file
  let meta_name := file_name ++ metadataExt
  if meta_name.length < fnameSize then some (file_name, meta_name) else none

theorem downloadNames_iff (file : Path) :
    (∀ names ∈ downloadNames file, 47 ∉ names.1 ∧ 47 ∉ names.2) ↔
      (LoneSlash file → downloadNames file = none) := by
  have hext : 47 ∉ metadataExt := by decide
  constructor
  · intro hnames hlone
    refine Option.eq_none_iff_forall_not_mem.mpr fun names hmem => ?_
    refine (hnames _ hmem).1 ?_
    obtain ⟨-, hmem⟩ := Option.ite_none_right_eq_some.mp hmem
    rw [← Option.some.inj hmem]
    show 47 ∈ absoluteFile file
    rw [absoluteFile_of_loneSlash hlone]
    exact hlone.slash_mem
  · intro hlone names hmem
    have hfile := absoluteFile_eq fun h => by rw [hlone h] at hmem; cases hmem
    obtain ⟨-, hmem⟩ := Option.ite_none_right_eq_some.mp hmem
    rw [← Option.some.inj hmem, hfile, List.mem_append, not_or]
    exact ⟨slash_notMem_afterLastSlash file, slash_notMem_afterLastSlash file, hext⟩

/-- **The names of the files that are written.**  In every run of a session, each file that
the server opens for writing has the name at the end of a path sent before, without a '/',
exactly if no path sent names a file with its only '/' in front, and no UPLOAD_CHUNK comes
before the first UPLOAD_INIT, or behind such a path that named a folder, when the memory holds
the name of a file.  The names of a
download have no '/' exactly if its argument is no such path, or they do not fit. -/
theorem written_files_iff (md5 : Md5) {metadata : Header} {localFile : Path}
    {uploadDigest : Digest} {dir : Dir} {unread : List UInt8} {as : List SessionAct}
    (hdir : RegularDir dir) (hfiles : ∀ d, .files d ∈ as → RegularDir d) :
    ((recorded md5).Along OpensNamed
        ⟨.accept metadata localFile uploadDigest dir unread, []⟩ as ↔
      (recorded md5).Along InitNames
        ⟨.accept metadata localFile uploadDigest dir unread, []⟩ as) ∧
    ∀ file, (∀ names ∈ downloadNames file, 47 ∉ names.1 ∧ 47 ∉ names.2) ↔
      (LoneSlash file → downloadNames file = none) := by
  exact ⟨(tracked_accept hdir).along_iff hfiles, downloadNames_iff⟩

/-- A session with the requests `unread` in an empty directory, whose process has the name
"a" in its memory. -/
def sampleConnected (unread : List UInt8) : Recorded :=
  ⟨.accept ⟨Buffer.zero _, 0, Buffer.zero _, 0, 0⟩ [97] (Buffer.zero _) (fun _ => none) unread, []⟩

/-- The process serves twice. -/
def serveTwice : List SessionAct := List.replicate 2 (.serve (fun _ => 0) [])

theorem written_files_sample :
    (recorded fun _ => Buffer.zero _).Along OpensNamed
      (sampleConnected (uploadInit [47, 97, 47, 98] 1 2 (Buffer.zero _) ++ [3])) serveTwice :=
  ((written_files_iff _ (fun _ _ => rfl) (by simp [serveTwice])).1).mpr (by decide +kernel)

/-- The path "/a" names a file in the root directory; and a process that is told to receive
chunks first opens whatever its memory names. -/
theorem written_files_fails :
    ¬ (recorded fun _ => Buffer.zero _).Along OpensNamed
        (sampleConnected (uploadInit [47, 97] 1 2 (Buffer.zero _))) serveTwice ∧
      ¬ (recorded fun _ => Buffer.zero _).Along OpensNamed (sampleConnected [3])
        (.files (fun p => if p = [97] then some (.file []) else none) :: serveTwice) ∧
      downloadNames [47, 97] = some ([47, 97], [47, 97] ++ metadataExt) := by
  have hempty : RegularDir fun _ => none := fun _ _ => rfl
  have hdir : RegularDir fun p => if p = [97] then some (.file []) else none := fun p hp => by
    rw [Dir.hasFile, if_neg fun h => absurd (h ▸ hp) (by decide)]
  refine ⟨fun h => ?_, fun h => ?_, by decide⟩
  · have hnames := ((tracked_accept hempty).along_iff (by simp [serveTwice])).mp h
    revert hnames
    decide +kernel
  · have hnames := ((tracked_accept hempty).along_iff (by simpa [serveTwice] using hdir)).mp h
    revert hnames
    decide +kernel

end Mhftp
