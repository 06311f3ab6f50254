import Mhftp.Commands
import Mhftp.Library.Components
import Mhftp.WrittenFiles

/-! # Many connections

`core` of mhftp forks a process for each connection, and all of them use the files of one
directory.  A step of such a process looks at one file at most and writes to one at most; so
processes that do not write the files that other ones look at, in any order of their steps, do
what each of them does by itself (`sessions_apart`), and any number of clients are served as if
each of them were the only one (`clients_served`).
-/

namespace Mhftp
open Library

/-- Two steps that differ in the files only, and there in what was different before. -/
structure Served.Same (dir dir' : Dir) (r q : Served) : Prop where
  server : r.server = q.server
  wire : r.wire = q.wire
  out : r.out = q.out
  files : ∀ p, dir p = dir' p → r.dir p = q.dir p

theorem touch_same {dir dir' : Dir} (f : Path) {p : Path} (h : dir p = dir' p) :
    touch dir f p = touch dir' f p := by
  by_cases hp : p = f
  · subst hp
    unfold touch
    rw [h]
    split
    · exact h
    · rw [update_self, update_self]
  · rw [touch_of_ne hp, touch_of_ne hp, h]

namespace MhProtoServer
variable (junk : Nat → UInt8)

/-- The path that `SendMetadataToClient` reads. -/
def metadataPath (w : Wire) : Option Path :=
  let chunk_size := w.readInt64 (decodeInt (unset junk 0 8))
  let path_size := chunk_size.wire.readBuffer (unsetBuffer junk 8 2)
  let size := decodeInt path_size.value.bytes
  if (fnameSize : Int) < size then none else some (readPath size path_size.wire).value

/-- The file that the next step looks at. -/
def looksAt (srv : MhProtoServer) (w : Wire) : Option Path :=
  match srv.pc with
  | .rcvCmd =>
    if srv.nextCommand w = [1] then
      some (cString (srv.metadata.readMetadataHeader (w.soRead 1).wire).1.fileFull.bytes)
    else if srv.nextCommand w = [2] then metadataPath junk (w.soRead 1).wire
    else if srv.nextCommand w = [3] then some srv.localFile
    else none
  | .sendChunk file _ _ => some file
  | _ => none

/-- The file that it writes to. -/
def writesTo (srv : MhProtoServer) (w : Wire) : Option Path :=
  match srv.initPath junk w with
  | some local_file => some (absoluteFile local_file)
  | none => srv.fileOpen

section Steps
variable {md5 : Md5} {junk} {srv : MhProtoServer} {dir dir' : Dir} {w : Wire} {r : Served}

theorem sendChunkToClient_same
    (h : ∀ p, p = cString (srv.metadata.readMetadataHeader w).1.fileFull.bytes → dir p = dir' p) :
    (srv.sendChunkToClient dir w).Same dir dir' (srv.sendChunkToClient dir' w) := by
  unfold sendChunkToClient
  simp only [h _ rfl]
  repeat (first | exact ⟨rfl, rfl, rfl, fun _ hp => hp⟩ | split)

theorem writeAnswer_same {pc : ServerPc} {data : List UInt8} :
    (srv.writeAnswer md5 pc data dir w).Same dir dir' (srv.writeAnswer md5 pc data dir' w) := by
  unfold writeAnswer
  cases md5Buffer md5 data <;> exact ⟨rfl, rfl, rfl, fun _ hp => hp⟩

theorem sendChunkTurn_same {file : Path} {wait pos : Nat} (h : dir file = dir' file) :
    (srv.sendChunkTurn md5 junk file wait pos dir w).Same dir dir'
      (srv.sendChunkTurn md5 junk file wait pos dir' w) := by
  unfold sendChunkTurn
  simp only [content_congr h]
  repeat (first | exact writeAnswer_same | exact ⟨rfl, rfl, rfl, fun _ hp => hp⟩ | split)

theorem sendMetadataToClient_same (h : ∀ p, metadataPath junk w = some p → dir p = dir' p) :
    (srv.sendMetadataToClient md5 junk dir w).Same dir dir'
      (srv.sendMetadataToClient md5 junk dir' w) := by
  unfold metadataPath at h
  unfold sendMetadataToClient
  dsimp only at h ⊢
  split
  · exact ⟨rfl, rfl, rfl, fun _ hp => hp⟩
  · next hsize =>
    rw [if_neg hsize] at h
    simp only [h _ rfl]
    split
    · exact ⟨rfl, rfl, rfl, fun _ hp => hp⟩
    · exact ⟨rfl, rfl, rfl, fun _ hp => hp⟩

theorem receiveChunkFromClient_same (h : dir srv.localFile = dir' srv.localFile) :
    (srv.receiveChunkFromClient junk dir w).Same dir dir'
      (srv.receiveChunkFromClient junk dir' w) := by
  unfold receiveChunkFromClient
  rw [hasFile_congr h]
  exact ⟨rfl, rfl, rfl, fun _ hp => hp⟩

theorem initUpload_same :
    (srv.initUpload junk dir w).Same dir dir' (srv.initUpload junk dir' w) := by
  unfold initUpload
  dsimp only
  split
  · exact ⟨rfl, rfl, rfl, fun _ hp => hp⟩
  · exact ⟨rfl, rfl, rfl, fun _ hp => touch_same _ hp⟩

theorem writeChunk_same {file : Option Path} {pos : Nat} {n m : Int} {b : Nat → UInt8} :
    (srv.writeChunk file pos n m b dir w).Same dir dir'
      (srv.writeChunk file pos n m b dir' w) := by
  unfold writeChunk
  cases file with
  | none => exact ⟨rfl, rfl, rfl, fun _ hp => hp⟩
  | some f =>
    refine ⟨rfl, rfl, rfl, fun p hp => ?_⟩
    show update dir f _ p = update dir' f _ p
    by_cases hpf : p = f
    · subst hpf
      rw [update_self, update_self, content_congr hp]
    · rw [update_of_ne _ _ hpf, update_of_ne _ _ hpf, hp]

theorem receiveChunkTurn_same {file : Option Path} {pos : Nat} {n m : Int} {b : Nat → UInt8} :
    (srv.receiveChunkTurn file pos n m b dir w).Same dir dir'
      (srv.receiveChunkTurn file pos n m b dir' w) := by
  unfold receiveChunkTurn
  dsimp only
  by_cases hend : (if (w.readInt64 n).br ≤ 0 then -1 else (w.readInt64 n).value) = -1
  · rw [if_pos hend, if_pos hend]
    exact ⟨rfl, rfl, rfl, fun _ hp => hp⟩
  · rw [if_neg hend, if_neg hend]
    split
    · exact ⟨rfl, rfl, rfl, fun _ hp => hp⟩
    · split <;> exact writeChunk_same

theorem rcvCmd_same (hpc : srv.pc = .rcvCmd)
    (h : ∀ p, srv.looksAt junk w = some p → dir p = dir' p) :
    (srv.rcvCmd md5 junk dir w).Same dir dir' (srv.rcvCmd md5 junk dir' w) := by
  unfold looksAt nextCommand at h
  simp only [hpc] at h
  unfold rcvCmd
  dsimp only
  by_cases hbr : (w.soRead 1).br ≤ 0
  · rw [if_pos hbr, if_pos hbr]
    exact ⟨rfl, rfl, rfl, fun _ hp => hp⟩
  rw [if_neg hbr] at h ⊢
  rw [if_neg hbr]
  by_cases h₁ : (w.soRead 1).value = [1]
  · rw [if_pos h₁] at h ⊢
    rw [if_pos h₁]
    exact sendChunkToClient_same fun p hp => h p (congrArg some hp.symm)
  rw [if_neg h₁] at h ⊢
  rw [if_neg h₁]
  by_cases h₂ : (w.soRead 1).value = [2]
  · rw [if_pos h₂] at h ⊢
    rw [if_pos h₂]
    exact sendMetadataToClient_same h
  rw [if_neg h₂] at h ⊢
  rw [if_neg h₂]
  by_cases h₃ : (w.soRead 1).value = [3]
  · rw [if_pos h₃] at h ⊢
    rw [if_pos h₃]
    exact receiveChunkFromClient_same (h _ rfl)
  rw [if_neg h₃, if_neg h₃]
  split
  · exact initUpload_same
  · exact ⟨rfl, rfl, rfl, fun _ hp => hp⟩

/-- **A step does not depend on other files** than the one it looks at. -/
theorem step_same (h : ∀ p, srv.looksAt junk w = some p → dir p = dir' p)
    (hr : srv.step md5 junk dir w = some r) :
    ∃ q, srv.step md5 junk dir' w = some q ∧ r.Same dir dir' q := by
  unfold step at hr ⊢
  cases hpc : srv.pc with
  | rcvCmd =>
    rw [hpc] at hr
    obtain rfl := Option.some.inj hr
    exact ⟨_, rfl, rcvCmd_same hpc h⟩
  | sendChunk file wait pos =>
    rw [hpc] at hr
    obtain rfl := Option.some.inj hr
    have hlook : srv.looksAt junk w = some file := by
      unfold looksAt
      rw [hpc]
    exact ⟨_, rfl, sendChunkTurn_same (h file hlook)⟩
  | receiveChunk file pos n m b =>
    rw [hpc] at hr
    obtain rfl := Option.some.inj hr
    exact ⟨_, rfl, receiveChunkTurn_same⟩
  | exited =>
    rw [hpc] at hr
    cases hr
  | faulted =>
    rw [hpc] at hr
    cases hr

/-- **A step changes no other file** than the one it writes to. -/
theorem step_unchanged (hr : srv.step md5 junk dir w = some r) {p : Path}
    (hp : srv.writesTo junk w ≠ some p) : r.dir p = dir p := by
  unfold writesTo at hp
  obtain ⟨q, hpath, -, hdir, -⟩ | ⟨hpath, -, hfiles, -⟩ := step_names hr
  · rw [hpath] at hp
    rw [hdir, touch_of_ne fun he => hp (congrArg some he.symm)]
  · rw [hpath] at hp
    obtain hdir | ⟨f, content, hopen, hdir⟩ := hfiles
    · rw [hdir]
    · rw [hdir, update_of_ne _ _ fun he => hp (hopen.trans (congrArg some he.symm))]

end Steps
end MhProtoServer

/-! ### The processes of a host -/

/-- A server process and its connection. -/
structure Connection where
  server : MhProtoServer
  unread : List UInt8
  short : Bool := false
  sent : List UInt8 := []

namespace Connection

/-- It by itself over a directory. -/
def session (l : Connection) (dir : Dir) : Session := ⟨l.server, dir, l.unread, l.short, l.sent⟩

def looksAt (l : Connection) : SessionAct → Option Path
  | .serve junk script => l.server.looksAt junk ⟨l.unread, script, l.short⟩
  | .files _ => none

def writesTo (l : Connection) : SessionAct → Path → Prop
  | .serve junk script, p => l.server.writesTo junk ⟨l.unread, script, l.short⟩ = some p
  | .files _, _ => True

end Connection

def Session.connection (s : Session) : Connection := ⟨s.server, s.unread, s.short, s.sent⟩

/-- What the processes have in common is the directory. -/
def serverProcess (md5 : Md5) : Component Dir Connection SessionAct :=
  ⟨fun dir l a => ((l.session dir).step md5 a).map fun s => (s.dir, s.connection)⟩

def host (md5 : Md5) (ι : Type) [DecidableEq ι] :
    Machine (Component.System Dir Connection ι) (ι × SessionAct) :=
  (serverProcess md5).machine

section Host
variable {md5 : Md5} {l l' : Connection} {dir dir' g : Dir} {a : SessionAct}

theorem serverProcess_cases (h : (serverProcess md5).step dir l a = some (g, l')) :
    ∃ s, (l.session dir).step md5 a = some s ∧ s.dir = g ∧ s.connection = l' := by
  obtain ⟨s, hs, he⟩ := Option.map_eq_some_iff.mp h
  cases he
  exact ⟨s, hs, rfl, rfl⟩

theorem serverProcess_same (hlook : ∀ p, l.looksAt a = some p → dir p = dir' p)
    (h : (serverProcess md5).step dir l a = some (g, l')) :
    ∃ g', (serverProcess md5).step dir' l a = some (g', l') ∧ ∀ p, dir p = dir' p → g p = g' p := by
  obtain ⟨s, hs, rfl, rfl⟩ := serverProcess_cases h
  cases a with
  | files d =>
    obtain rfl := Option.some.inj hs
    exact ⟨d, rfl, fun _ _ => rfl⟩
  | serve junk script =>
    obtain ⟨r, hr, rfl⟩ := Option.map_eq_some_iff.mp hs
    obtain ⟨q, hq, hsame⟩ := MhProtoServer.step_same hlook hr
    refine ⟨q.dir, ?_, hsame.files⟩
    show (((l.session dir').step md5 (.serve junk script)).map _) = _
    simp only [Session.step, Connection.session, hq, Option.map_some, Session.after,
      Session.connection, hsame.server, hsame.wire, hsame.out]

theorem serverProcess_unchanged (h : (serverProcess md5).step dir l a = some (g, l')) {p : Path}
    (hp : ¬ l.writesTo a p) : g p = dir p := by
  obtain ⟨s, hs, rfl, rfl⟩ := serverProcess_cases h
  cases a with
  | files d => exact absurd trivial hp
  | serve junk script =>
    obtain ⟨r, hr, rfl⟩ := Option.map_eq_some_iff.mp hs
    exact MhProtoServer.step_unchanged hr hp

/-- What a process sees and writes. -/
def serverFootprint (md5 : Md5) : Component.Footprint (serverProcess md5) where
  sees l a p := l.looksAt a = some p
  writes := Connection.writesTo
  same _ _ _ _ _ _ hlook h := serverProcess_same hlook h
  unchanged _ _ _ _ _ h _ hp := serverProcess_unchanged h hp

/-- A process by itself is a session. -/
theorem alone_run (s : Session) (as : List SessionAct) :
    (serverProcess md5).alone.run (s.dir, s.connection) as =
      ((Session.machine md5).run s as).map fun t => (t.dir, t.connection) := by
  induction as generalizing s with
  | nil => rfl
  | cons a as ih =>
    cases ht : s.step md5 a with
    | none =>
      have hstep : (serverProcess md5).alone.step (s.dir, s.connection) a = none :=
        congrArg (Option.map fun t : Session => (t.dir, t.connection)) ht
      have ht : (Session.machine md5).step s a = none := ht
      rw [Machine.run, Machine.run, hstep, ht]
      rfl
    | some t =>
      have hstep : (serverProcess md5).alone.step (s.dir, s.connection) a =
          some (t.dir, t.connection) :=
        congrArg (Option.map fun t : Session => (t.dir, t.connection)) ht
      have ht : (Session.machine md5).step s a = some t := ht
      rw [Machine.run_cons_of_step hstep, Machine.run_cons_of_step ht]
      exact ih t

/-- A session that looks at files in `V` only and writes to files in `W` only. -/
def Session.Within (V W : Path → Prop) (s : Session) (a : SessionAct) (_ : Session) : Prop :=
  (∀ p, s.connection.looksAt a = some p → V p) ∧ ∀ p, s.connection.writesTo a p → W p

theorem alone_along {V W : Path → Prop} {s : Session} {as : List SessionAct}
    (h : (Session.machine md5).Along (Session.Within V W) s as) :
    (serverProcess md5).alone.Along ((serverFootprint md5).Within V W) (s.dir, s.connection)
      as := by
  induction as generalizing s with
  | nil => trivial
  | cons a as ih =>
    intro r hr
    obtain ⟨t, ht, rfl⟩ := Option.map_eq_some_iff.mp
      (hr : (s.step md5 a).map (fun t : Session => (t.dir, t.connection)) = some r)
    obtain ⟨hwithin, hrest⟩ := h t ht
    exact ⟨hwithin, ih hrest⟩

end Host

/-! ### Many clients -/

namespace Command

/-- The files that a command names are in `V`, and those that it writes to in `W`. -/
def Within (V W : Path → Prop) (d : Desk) : Command → Prop
  | download h _ => V (cString h.fileFull.bytes)
  | metadata file_path _ => V file_path
  | upload _ => V d.localFile ∧ W d.localFile
  | init local_file _ _ _ => W (absoluteFile local_file)
  | unknown _ => True

end Command

section Pieces
variable {md5 : Md5} {V W : Path → Prop} {s : Session} {a : SessionAct} {rest : List UInt8}

theorem metadataPath_alike {junk : Nat → UInt8} {w v : Wire} (h : w.Alike v) :
    MhProtoServer.metadataPath junk w = MhProtoServer.metadataPath junk v := by
  have hchunkSize := h.readInt64 (decodeInt (unset junk 0 8))
  have hpathSize := hchunkSize.wire.readBuffer (unsetBuffer junk 8 2)
  unfold MhProtoServer.metadataPath
  simp only [hpathSize.value, (MhProtoServer.readPath_alike hpathSize.wire _).value]

theorem initPath_alike {junk : Nat → UInt8} {srv : MhProtoServer} {w v : Wire} (h : w.Alike v) :
    srv.initPath junk w = srv.initPath junk v := by
  have hpathSize := (h.soRead 1).wire.readBuffer (unsetBuffer junk 0 2)
  unfold MhProtoServer.initPath
  simp only [MhProtoServer.nextCommand_alike h, hpathSize.value,
    (MhProtoServer.readPath_alike hpathSize.wire _).value]

theorem looksAt_alike {junk : Nat → UInt8} {srv : MhProtoServer} {w v : Wire} (h : w.Alike v) :
    srv.looksAt junk w = srv.looksAt junk v := by
  unfold MhProtoServer.looksAt
  rw [MhProtoServer.nextCommand_alike h, metadataPath_alike (h.soRead 1).wire,
    ((h.soRead 1).wire.readMetadataHeader _).1]

/-- What a step looks at and writes to may be read off the clean wire. -/
theorem within_of_clean (ha : a.InPieces)
    (hlook : ∀ junk p, s.server.looksAt junk ⟨s.unread, [], s.short⟩ = some p → V p)
    (hwrite : ∀ junk p, s.server.writesTo junk ⟨s.unread, [], s.short⟩ = some p → W p)
    (t : Session) : s.Within V W a t := by
  cases a with
  | files => exact ha.elim
  | serve junk script =>
    have halike : (Wire.mk s.unread script s.short).Alike ⟨s.unread, [], s.short⟩ :=
      ⟨rfl, rfl, ha, fun _ h => nomatch h⟩
    refine ⟨fun p hp => hlook junk p ?_, fun p hp => hwrite junk p ?_⟩
    · rw [← looksAt_alike halike]
      exact hp
    · have hp : s.server.writesTo junk ⟨s.unread, script, s.short⟩ = some p := hp
      rw [MhProtoServer.writesTo, initPath_alike halike] at hp
      exact hp

theorem nextCommand_clean {srv : MhProtoServer} (hpc : srv.pc = .rcvCmd) (cmd : UInt8)
    (ys : List UInt8) (short : Bool) : srv.nextCommand ⟨cmd :: ys, [], short⟩ = [cmd] := by
  have hread : (Wire.mk (cmd :: ys) [] short).soRead 1 = ⟨1, [cmd], ys, [], short⟩ :=
    Wire.soRead_clean_append [cmd]
  unfold MhProtoServer.nextCommand
  simp only [hpc, hread]
  exact if_neg (by decide)

/-- Between two commands nothing is open, and the next command says what is looked at. -/
theorem within_command (ha : a.InPieces) (hpc : s.server.pc = .rcvCmd) {cmd : UInt8}
    {ys : List UInt8} (hu : s.unread = cmd :: ys)
    (hdownload : cmd = 1 → ∀ p,
      p = cString (s.server.metadata.readMetadataHeader ⟨ys, [], s.short⟩).1.fileFull.bytes → V p)
    (hmetadata : cmd = 2 → ∀ junk p,
      MhProtoServer.metadataPath junk ⟨ys, [], s.short⟩ = some p → V p)
    (hupload : cmd = 3 → V s.server.localFile)
    (hinit : cmd = 4 → ∀ junk p,
      s.server.initPath junk ⟨s.unread, [], s.short⟩ = some p → W (absoluteFile p))
    (t : Session) : s.Within V W a t := by
  have hread : (Wire.mk (cmd :: ys) [] s.short).soRead 1 = ⟨1, [cmd], ys, [], s.short⟩ :=
    Wire.soRead_clean_append [cmd]
  have hnext : s.server.nextCommand ⟨s.unread, [], s.short⟩ = [cmd] :=
    hu ▸ nextCommand_clean hpc cmd ys s.short
  refine within_of_clean ha (fun junk p hp => ?_) (fun junk p hp => ?_) t
  · unfold MhProtoServer.looksAt at hp
    simp only [hpc, hnext, List.cons.injEq, and_true] at hp
    simp only [hu, hread] at hp
    split at hp
    · next h => exact hdownload h p (Option.some.inj hp).symm
    split at hp
    · next h => exact hmetadata h junk p hp
    split at hp
    · next h => exact Option.some.inj hp ▸ hupload h
    · cases hp
  · unfold MhProtoServer.writesTo at hp
    cases hpath : s.server.initPath junk ⟨s.unread, [], s.short⟩ with
    | none =>
      rw [hpath, MhProtoServer.fileOpen, hpc] at hp
      cases hp
    | some q =>
      have hcmd : cmd = 4 := by
        by_contra hne
        rw [MhProtoServer.initPath_of_ne (by rw [hnext]; simpa using hne)] at hpath
        cases hpath
      rw [hpath] at hp
      exact Option.some.inj hp ▸ hinit hcmd junk q hpath

/-- In its loop a process looks at the file that it sends from. -/
theorem within_sendChunk (ha : a.InPieces) {file : Path} {wait pos : Nat}
    (hpc : s.server.pc = .sendChunk file wait pos) (hfile : V file) (t : Session) :
    s.Within V W a t := by
  have hcmd : s.server.nextCommand ⟨s.unread, [], s.short⟩ ≠ [4] := by
    rw [MhProtoServer.nextCommand_of_ne (by rw [hpc]; simp)]
    simp
  refine within_of_clean ha (fun junk p hp => ?_) (fun junk p hp => ?_) t
  · rw [MhProtoServer.looksAt, hpc] at hp
    exact Option.some.inj hp ▸ hfile
  · rw [MhProtoServer.writesTo, MhProtoServer.initPath_of_ne hcmd, MhProtoServer.fileOpen,
      hpc] at hp
    cases hp

/-- In the other loop it writes to the file that it has opened. -/
theorem within_receiveChunk (ha : a.InPieces) {file : Path} {pos : Nat} {n m : Int}
    {b : Nat → UInt8} (hpc : s.server.pc = .receiveChunk (some file) pos n m b) (hfile : W file)
    (t : Session) : s.Within V W a t := by
  have hcmd : s.server.nextCommand ⟨s.unread, [], s.short⟩ ≠ [4] := by
    rw [MhProtoServer.nextCommand_of_ne (by rw [hpc]; simp)]
    simp
  refine within_of_clean ha (fun junk p hp => ?_) (fun junk p hp => ?_) t
  · rw [MhProtoServer.looksAt, hpc] at hp
    cases hp
  · rw [MhProtoServer.writesTo, MhProtoServer.initPath_of_ne hcmd, MhProtoServer.fileOpen,
      hpc] at hp
    exact Option.some.inj hp ▸ hfile

/-- The requests of a download, and its end. -/
theorem along_requests (chunkNumbers : List Nat) {as : List SessionAct}
    (has : ∀ a ∈ as, a.InPieces) (hlength : as.length = chunkNumbers.length + 1) {file : Path}
    {wait pos : Nat} (hwait : wait ≠ 0) (hpc : s.server.pc = .sendChunk file wait pos)
    (hfits : ∀ k ∈ chunkNumbers, k < 10 ^ 6) {content : List UInt8}
    (hdir : s.dir file = some (.file content))
    (hcovers : ∀ k ∈ chunkNumbers, s.server.metadata.Covers content k)
    (hu : s.unread = chunkNumbers.flatMap (fun k : Nat => (requestChunk k).bytes) ++
      ((requestChunk (-1)).bytes ++ rest)) (hfile : V file) :
    (Session.machine md5).Along (Session.Within V W) s as := by
  induction chunkNumbers generalizing s as pos with
  | nil =>
    obtain ⟨a, rfl⟩ := List.length_eq_one_iff.mp hlength
    exact fun t _ => ⟨within_sendChunk (has a List.mem_cons_self) hpc hfile t, trivial⟩
  | cons k chunkNumbers ih =>
    obtain ⟨a, as, rfl⟩ := List.exists_cons_of_length_eq_add_one hlength
    rw [List.flatMap_cons, List.append_assoc] at hu
    obtain ⟨pos', hstep⟩ := step_request md5 (has a List.mem_cons_self) hwait hpc
      (hfits k List.mem_cons_self) hdir (hcovers k List.mem_cons_self) hu
    intro t ht
    refine ⟨within_sendChunk (has a List.mem_cons_self) hpc hfile t, ?_⟩
    obtain rfl := Option.some.inj (hstep.symm.trans ht)
    exact ih (fun b hb => has b (List.mem_cons_of_mem _ hb)) (by simpa using hlength) rfl
      (fun k hk => hfits k (List.mem_cons_of_mem _ hk)) hdir
      (fun k hk => hcovers k (List.mem_cons_of_mem _ hk)) rfl

/-- The messages of an upload, and its end. -/
theorem along_messages (messages : List ChunkMessage) {as : List SessionAct}
    (has : ∀ a ∈ as, a.InPieces) (hlength : as.length = messages.length + 1) {file : Path}
    {c : Int} (hmessages : ∀ m ∈ messages, m.Fits ∧ m.Placed c) {pos : Nat} {n m : Int}
    {b : Nat → UInt8} (hpc : s.server.pc = .receiveChunk (some file) pos n m b)
    (hc : s.server.chunkSize = c)
    (hu : s.unread = messages.flatMap ChunkMessage.bytes ++ (uploadEnd ++ rest)) (hfile : W file) :
    (Session.machine md5).Along (Session.Within V W) s as := by
  induction messages generalizing s as pos n m b with
  | nil =>
    obtain ⟨a, rfl⟩ := List.length_eq_one_iff.mp hlength
    exact fun t _ => ⟨within_receiveChunk (has a List.mem_cons_self) hpc hfile t, trivial⟩
  | cons message messages ih =>
    obtain ⟨a, as, rfl⟩ := List.exists_cons_of_length_eq_add_one hlength
    obtain ⟨hfits, hplaced⟩ := hmessages message List.mem_cons_self
    rw [List.flatMap_cons, List.append_assoc] at hu
    obtain ⟨pos', hstep⟩ := step_message md5 (has a List.mem_cons_self) hfits hplaced hpc hc hu
    intro t ht
    refine ⟨within_receiveChunk (has a List.mem_cons_self) hpc hfile t, ?_⟩
    obtain rfl := Option.some.inj (hstep.symm.trans ht)
    exact ih (fun d hd => has d (List.mem_cons_of_mem _ hd)) (by simpa using hlength)
      (fun d hd => hmessages d (List.mem_cons_of_mem _ hd)) rfl hc rfl

/-- **A command stays with the files that it names.** -/
theorem along_command {short : Bool} (c : Command) (rest : List UInt8) (s : Session) (d : Desk)
    (as : List SessionAct) (hidle : s.Idle short (c.bytes ++ rest) d)
    (hadmits : (c.Fits ∧ c.Admitted d) ∧ c.Within V W d) (has : ∀ a ∈ as, a.InPieces)
    (hlength : as.length = c.turns) :
    (Session.machine md5).Along (Session.Within V W) s as := by
  obtain ⟨hpc, hu, rfl, rfl⟩ := hidle
  obtain ⟨⟨hfits, hadmitted⟩, hwithin⟩ := hadmits
  cases c with
  | download h chunkNumbers =>
    obtain ⟨hchunks, content, hdir, hcovers⟩ := hadmitted
    have hdir : s.dir (cString h.fileFull.bytes) = some (.file content) := hdir
    obtain ⟨a, as, rfl⟩ := List.exists_cons_of_length_eq_add_one hlength
    simp only [Command.bytes, List.cons_append, List.append_assoc] at hu
    intro t ht
    refine ⟨within_command (has a List.mem_cons_self) hpc hu (fun _ p hp => ?_)
      (fun h => absurd h (by decide)) (fun h => absurd h (by decide))
      (fun h => absurd h (by decide)) t, ?_⟩
    · rw [readMetadataHeader_clean hfits.1] at hp
      exact hp ▸ hwithin
    · have hstep := step_sendChunk md5 hfits.1 hchunks (has a List.mem_cons_self) hpc hu
        (by rw [hdir]; rfl)
      obtain rfl := Option.some.inj (hstep.symm.trans ht)
      exact along_requests chunkNumbers (fun b hb => has b (List.mem_cons_of_mem _ hb))
        (Nat.succ.inj hlength) (show mhRetry ≠ 0 by decide) rfl hfits.2 hdir hcovers rfl hwithin
  | metadata p size =>
    obtain ⟨a, rfl⟩ := List.length_eq_one_iff.mp hlength
    simp only [Command.bytes, MetadataRequest.bytes, List.cons_append, List.append_assoc] at hu
    refine fun t _ => ⟨within_command (has a List.mem_cons_self) hpc hu
      (fun h => absurd h (by decide)) (fun _ junk q hq => ?_) (fun h => absurd h (by decide))
      (fun h => absurd h (by decide)) t, trivial⟩
    obtain ⟨pathSize, hpathSize, hread⟩ := readPathSize_clean hfits.1
      (unsetBuffer junk 8 2) (p ++ rest) s.short
    unfold MhProtoServer.metadataPath at hq
    simp only [Wire.readInt64_clean hfits.2.2, hread, hpathSize, readPath_clean hfits.2.1] at hq
    have hle : ¬ (fnameSize : Int) < p.length := by
      have := hfits.1
      omega
    rw [if_neg hle] at hq
    exact Option.some.inj hq ▸ hwithin
  | upload messages =>
    obtain ⟨hsome, hplaced⟩ := hadmitted
    obtain ⟨a, as, rfl⟩ := List.exists_cons_of_length_eq_add_one hlength
    simp only [Command.bytes, List.cons_append, List.append_assoc] at hu
    intro t ht
    refine ⟨within_command (has a List.mem_cons_self) hpc hu
      (fun h => absurd h (by decide)) (fun h => absurd h (by decide)) (fun _ => hwithin.1)
      (fun h => absurd h (by decide)) t, ?_⟩
    obtain ⟨chunkSize, buffer, hstart⟩ :=
      step_uploadChunk md5 (has a List.mem_cons_self) hpc hu hsome
    obtain rfl := Option.some.inj (hstart.symm.trans ht)
    exact along_messages messages (fun b hb => has b (List.mem_cons_of_mem _ hb))
      (Nat.succ.inj hlength) (fun m hm => ⟨hfits m hm, hplaced m hm⟩) rfl rfl rfl hwithin.2
  | init p size fileSize digest =>
    obtain ⟨a, rfl⟩ := List.length_eq_one_iff.mp hlength
    simp only [Command.bytes, uploadInit, List.cons_append, List.append_assoc] at hu
    refine fun t _ => ⟨within_command (has a List.mem_cons_self) hpc hu
      (fun h => absurd h (by decide)) (fun h => absurd h (by decide))
      (fun h => absurd h (by decide)) (fun _ junk q hq => ?_) t, trivial⟩
    obtain ⟨pathSize, hpathSize, hread⟩ := readPathSize_clean hfits.1
      (unsetBuffer junk 0 2)
      (p ++ (encodeInt 8 size ++ (encodeInt 8 fileSize ++ (digest.bytes ++ rest)))) s.short
    have hcmd : ∀ zs, (Wire.mk (4 :: zs) [] s.short).soRead 1 = ⟨1, [4], zs, [], s.short⟩ :=
      fun zs => Wire.soRead_clean_append [4]
    unfold MhProtoServer.initPath at hq
    rw [hu] at hq
    simp only [nextCommand_clean hpc, if_true, hcmd, hread, hpathSize,
      readPath_clean hfits.2.1] at hq
    have hle : ¬ (fnameSize : Int) < p.length := by
      have := hfits.1
      omega
    rw [if_neg hle] at hq
    exact Option.some.inj hq ▸ hwithin
  | unknown cmd =>
    obtain ⟨a, rfl⟩ := List.length_eq_one_iff.mp hlength
    have hcmd : cmd ∉ [1, 2, 3, 4] := hfits
    simp only [List.mem_cons, List.not_mem_nil, or_false, not_or] at hcmd
    obtain ⟨h₁, h₂, h₃, h₄⟩ := hcmd
    exact fun t _ => ⟨within_command (has a List.mem_cons_self) hpc hu (fun h => absurd h h₁)
      (fun h => absurd h h₂) (fun h => absurd h h₃) (fun h => absurd h h₄) t, trivial⟩

end Pieces

section Clients
variable (md5 : Md5)

/-- The service of a session, for commands that name files of `V` and `W` only. -/
def confinedService (short : Bool) (V W : Path → Prop) :
    Service (Session.machine md5) Command UInt8 Desk :=
  (sessionService md5 short).restrict (Command.Within V W)

variable {md5} {V W : Path → Prop} {cs : List Command} {rest : List UInt8} {s : Session}
  {as : List SessionAct}

/-- A client by itself is served, and stays with its files. -/
theorem client_served (hpc : s.server.pc = .rcvCmd)
    (hu : s.unread = cs.flatMap Command.bytes ++ rest)
    (hadmits : (confinedService md5 s.short V W).AdmitsAll s.desk cs)
    (has : ∀ a ∈ as, a.InPieces) (hlength : as.length = (cs.map Command.turns).sum) :
    (Session.machine md5).Along (Session.Within V W) s as ∧
      ∃ t, (Session.machine md5).run s as = some t ∧ t.server.pc = .rcvCmd ∧ t.unread = rest ∧
        (sessionService md5 s.short).Effects s.desk cs t.desk := by
  have hidle : s.Idle s.short (cs.flatMap Command.bytes ++ rest) s.desk := ⟨hpc, hu, rfl, rfl⟩
  refine ⟨(confinedService md5 s.short V W).along along_command cs hidle hadmits has hlength, ?_⟩
  obtain ⟨t, d, hrun, ⟨hpc', hu', rfl, -⟩, heffects⟩ :=
    (confinedService md5 s.short V W).run cs hidle hadmits has hlength
  exact ⟨t, hrun, hpc', hu', (sessionService md5 s.short).effects_restrict.mp heffects⟩

end Clients

/-- One client uploads a file, and the other one asks for one that is not there. -/
def sampleClientCommands : Bool → List Command
  | true => [.init [97] 2 3 (Buffer.zero _), .upload sampleMessages]
  | false => [.metadata [98] 2, .unknown 7]

def sampleClients (i : Bool) : Connection :=
  (Session.accept ⟨Buffer.zero _, 0, Buffer.zero _, 0, 0⟩ [] (Buffer.zero _) (fun _ => none)
    ((sampleClientCommands i).flatMap Command.bytes)).connection

def sampleNames (i : Bool) (p : Path) : Prop := p = if i then [97] else [98]

def sampleUploads (i : Bool) (p : Path) : Prop := i = true ∧ p = [97]

def sampleSchedule : List (Bool × SessionAct) :=
  [(true, .serve (fun _ => 0) []), (false, .serve (fun _ => 0) [[], [.count 1]]),
    (true, .serve (fun _ => 0) []), (true, .serve (fun _ => 0) [[.count 1]]),
    (false, .serve (fun _ => 0) []), (true, .serve (fun _ => 0) []),
    (true, .serve (fun _ => 0) [])]

theorem sampleNames_apart (i j : Bool) (h : i ≠ j) (p : Path) (hp : sampleNames i p) :
    ¬ sampleUploads j p := by
  rintro ⟨rfl, rfl⟩
  cases i with
  | true => exact h rfl
  | false => cases hp

theorem sampleClients_pc (i : Bool) :
    ((sampleClients i).session fun _ => none).server.pc = .rcvCmd := rfl

theorem sampleClients_unread (i : Bool) : ((sampleClients i).session fun _ => none).unread =
    (sampleClientCommands i).flatMap Command.bytes ++ [] := (List.append_nil _).symm

theorem sampleClients_admitted (i : Bool) :
    (confinedService (fun _ => Buffer.zero _) (sampleClients i).short (sampleNames i)
      (sampleUploads i)).AdmitsAll ((sampleClients i).session fun _ => none).desk
        (sampleClientCommands i) := by
  cases i with
  | true =>
    have hinit : (Command.init [97] 2 3 (Buffer.zero _)).Fits :=
      ⟨by decide, by decide, by decide, by decide⟩
    refine ⟨⟨⟨hinit, trivial⟩, rfl, rfl⟩, fun d₁ h₁ => ?_⟩
    cases h₁ with
    | init =>
      exact ⟨⟨⟨fun m hm => (sampleMessages_placed m hm).1, rfl,
        fun m hm => (sampleMessages_placed m hm).2⟩, rfl, rfl, rfl⟩, fun _ _ => trivial⟩
  | false =>
    have hmetadata : (Command.metadata [98] 2).Fits := ⟨by decide, by decide, by decide⟩
    have hunknown : (Command.unknown 7).Fits := by
      show (7 : UInt8) ∉ [1, 2, 3, 4]
      decide
    exact ⟨⟨⟨hmetadata, trivial⟩, rfl⟩, fun d₁ h₁ => ⟨⟨⟨hunknown, trivial⟩, trivial⟩,
      fun _ _ => trivial⟩⟩

theorem sampleSchedule_inPieces : ∀ b ∈ sampleSchedule, b.2.InPieces := by
  simp [sampleSchedule, SessionAct.InPieces, Pieces, ReadResult.Piece]

theorem sampleSchedule_length (i : Bool) : (Component.actsOf i sampleSchedule).length =
    ((sampleClientCommands i).map Command.turns).sum := by
  cases i <;> rfl

/-- **Sessions apart.**  If each session by itself looks at files of its part only and no other
one writes to these, then in every interleaving each process does what it does by itself: it
reads, sends and keeps in its members the same, and the files of its part are in the end what
they would be.  What nobody writes to stays as it was. -/
theorem sessions_apart {ι : Type} [DecidableEq ι] (md5 : Md5) {V W : ι → Path → Prop}
    (hapart : ∀ i j, i ≠ j → ∀ p, V i p → ¬ W j p) {dir : Dir} {own : ι → Connection}
    {as : List (ι × SessionAct)} {t : ι → Session}
    (hwithin : ∀ i, (Session.machine md5).Along (Session.Within (V i) (W i))
      ((own i).session dir) (Component.actsOf i as))
    (hruns : ∀ i, (Session.machine md5).run ((own i).session dir) (Component.actsOf i as) =
      some (t i)) :
    ∃ s', (host md5 ι).run ⟨dir, own⟩ as = some s' ∧
      (∀ i, s'.own i = (t i).connection ∧ ∀ p, V i p → (t i).dir p = s'.store p) ∧
      ∀ p, (∀ i, ¬ W i p) → s'.store p = dir p := by
  refine Component.run_apart (f := serverFootprint md5) hapart (h := fun _ => dir)
    (r := fun i => ((t i).dir, (t i).connection)) (fun _ _ _ => rfl) (fun i => ?_) (fun i => ?_)
  · exact alone_along (s := (own i).session dir) (hwithin i)
  · have hrun := @alone_run md5 ((own i).session dir) (Component.actsOf i as)
    rw [hruns i] at hrun
    exact hrun

theorem sessions_apart_sample :
    ∃ s', (host (fun _ => Buffer.zero _) Bool).run ⟨fun _ => none, sampleClients⟩ sampleSchedule =
        some s' ∧
      (s'.own true).unread = [] ∧ (s'.own false).unread = [] ∧ s'.store [98] = none := by
  have hclients := fun i => client_served (sampleClients_pc i) (sampleClients_unread i)
    (sampleClients_admitted i)
    (fun a ha => sampleSchedule_inPieces _ (Component.mem_of_mem_actsOf ha))
    (sampleSchedule_length i)
  choose hwithin t hrun hpc hu heffects using hclients
  obtain ⟨s', hrun', hown, hstore⟩ :=
    sessions_apart (fun _ => Buffer.zero _) sampleNames_apart hwithin hrun
  refine ⟨s', hrun', ?_, ?_, hstore [98] fun i hi => nomatch hi⟩
  · rw [(hown true).1]
    exact hu true
  · rw [(hown false).1]
    exact hu false

/-- **Any number of clients are served as if each of them were the only one.**  Whatever the
commands on their connections are, if the files and chunks that a client names are there when
its turn comes, and no client uploads to a file that another one names, then in every
interleaving of their processes each connection is served to its end: its commands
have in their order the effects that they have on the directory as it was at first, the bytes
that it gets are theirs, and so are the files that it names.  What nobody uploads to stays as
it was. -/
theorem clients_served {ι : Type} [DecidableEq ι] (md5 : Md5) {V W : ι → Path → Prop}
    (hapart : ∀ i j, i ≠ j → ∀ p, V i p → ¬ W j p) (dir : Dir) (own : ι → Connection)
    (cs : ι → List Command) (rest : ι → List UInt8) (as : List (ι × SessionAct))
    (hpc : ∀ i, (own i).server.pc = .rcvCmd)
    (hu : ∀ i, (own i).unread = (cs i).flatMap Command.bytes ++ rest i)
    (hadmits : ∀ i, (confinedService md5 (own i).short (V i) (W i)).AdmitsAll
      ((own i).session dir).desk (cs i))
    (has : ∀ b ∈ as, b.2.InPieces)
    (hlength : ∀ i, (Component.actsOf i as).length = ((cs i).map Command.turns).sum) :
    ∃ s', (host md5 ι).run ⟨dir, own⟩ as = some s' ∧
      (∀ i, (s'.own i).server.pc = .rcvCmd ∧ (s'.own i).unread = rest i ∧
        ∃ t : Session, t.connection = s'.own i ∧
          (sessionService md5 (own i).short).Effects ((own i).session dir).desk (cs i) t.desk ∧
          ∀ p, V i p → t.dir p = s'.store p) ∧
      ∀ p, (∀ i, ¬ W i p) → s'.store p = dir p := by
  have hclients := fun i => client_served (s := (own i).session dir) (hpc i) (hu i) (hadmits i)
    (fun a ha => has _ (Component.mem_of_mem_actsOf ha)) (hlength i)
  choose hwithin t hrun hpc' hu' heffects using hclients
  obtain ⟨s', hrun', hown, hstore⟩ := Component.run_apart (f := serverFootprint md5) hapart
    (s := ⟨dir, own⟩) (h := fun _ => dir) (r := fun i => ((t i).dir, (t i).connection))
    (fun _ _ _ => rfl) (fun i => alone_along (s := (own i).session dir) (hwithin i)) fun i => by
      have halone := @alone_run md5 ((own i).session dir) (Component.actsOf i as)
      rw [hrun i] at halone
      exact halone
  refine ⟨s', hrun', fun i => ?_, hstore⟩
  obtain ⟨hconnection, hfiles⟩ := hown i
  have hconnection : s'.own i = (t i).connection := hconnection
  rw [hconnection]
  exact ⟨hpc' i, hu' i, t i, rfl, heffects i, hfiles⟩

theorem clients_served_sample :
    ∃ s', (host (fun _ => Buffer.zero _) Bool).run ⟨fun _ => none, sampleClients⟩ sampleSchedule =
        some s' ∧
      s'.store [97] = some (.file [1, 2, 3]) ∧ (s'.own false).sent = encodeInt 2 1 := by
  obtain ⟨s', hrun, hclients, -⟩ := clients_served (fun _ => Buffer.zero _) sampleNames_apart
    (fun _ => none) sampleClients sampleClientCommands (fun _ => []) sampleSchedule sampleClients_pc
    sampleClients_unread sampleClients_admitted sampleSchedule_inPieces
    sampleSchedule_length
  refine ⟨s', hrun, ?_, ?_⟩
  · obtain ⟨-, -, t, -, ⟨d₁, h₁, d₂, h₂, hdesk⟩, hfiles⟩ := hclients true
    rw [← hfiles [97] rfl]
    cases h₁
    cases h₂ with
    | upload hdir =>
      obtain rfl := Node.file.inj (Option.some.inj hdir)
      exact congrFun (congrArg Desk.dir hdesk) [97]
  · obtain ⟨-, -, t, hconnection, ⟨d₁, h₁, d₂, h₂, hdesk⟩, -⟩ := hclients false
    rw [← hconnection]
    cases h₁ with
    | metadata hdir => cases hdir
    | folder hdir => cases hdir
    | notFound =>
      cases h₂
      exact congrArg Desk.sent hdesk

end Mhftp
