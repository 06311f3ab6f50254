import Mhftp.Session

/-! # The accesses of a server process

Every access of a server process to memory at a place or of a length that depends on what
it has read: the lengths given to `so_read`, with the capacity of the destination, the
length of the `write` of a received chunk, and the indexes into `payLoadArray_`.  The code
checks none of them.  The process faults at such an access, or of the number or the size of
the chunks of a header (`step_faulted`).
-/

namespace Mhftp
open Library

inductive Access
  /-- a `so_read` of `len` bytes into memory of `capacity` bytes -/
  | read (len : Int) (capacity : Nat)
  /-- a `write` of `len` bytes from memory of `capacity` bytes -/
  | write (len : Int) (capacity : Nat)
  /-- `payLoadArray_[i]`, of `chunks` entries -/
  | index (i chunks : Int)

def Access.InBounds : Access → Prop
  | read len capacity => 0 ≤ len ∧ len ≤ capacity
  | write len capacity => 0 ≤ len ∧ len ≤ capacity
  | index i chunks => 0 ≤ i ∧ i < chunks

namespace MhProtoServer
variable (junk : Nat → UInt8)

/-- `ReadMetadataHeader` -/
def headerAccesses : List Access :=
  [.read digestSize digestSize, .read 8 8, .read fnameSize fnameSize, .read 8 8, .read 8 8]

/-- The size of a path and the path; the memory of the size starts at `start`. -/
def pathAccesses (start : Nat) (w : Wire) : List Access :=
  let path_size := w.readBuffer (unsetBuffer junk start 2)
  [.read 2 2, .read (decodeInt path_size.value.bytes) fnameSize]

def sendMetadataAccesses (w : Wire) : List Access :=
  .read 8 8 :: pathAccesses junk 8 (w.readInt64 (decodeInt (unset junk 0 8))).wire

/-- `InitUpload` reads on behind a path that has fit. -/
def initUploadAccesses (w : Wire) : List Access :=
  let path_size := w.readBuffer (unsetBuffer junk 0 2)
  pathAccesses junk 0 w ++
    if (fnameSize : Int) < decodeInt path_size.value.bytes then []
    else [.read 8 8, .read 8 8, .read digestSize digestSize]

def sendChunkAccesses (srv : MhProtoServer) (w : Wire) : List Access :=
  let chunkNumberStr := w.readBuffer (Buffer.zero 7)
  let chunkNumber := atoi chunkNumberStr.value.bytes
  .read 7 7 ::
    if chunkNumberStr.br ≤ 0 ∨ chunkNumber = -1 then []
    else [.index chunkNumber srv.metadata.chunks]

def receiveChunkAccesses (chunkNumber chunkSize : Int) (w : Wire) : List Access :=
  let number := w.readInt64 chunkNumber
  let size := number.wire.readInt64 chunkSize
  .read 8 8 ::
    if number.br ≤ 0 ∨ number.value = -1 then []
    else [.read 8 8, .read (size.value.bmod (2 ^ 32)) maxChunkSize, .write size.value maxChunkSize]

/-- The accesses of the next step. -/
def accesses (srv : MhProtoServer) (w : Wire) : List Access :=
  match srv.pc with
  | .rcvCmd =>
    .read 1 1 ::
      match srv.nextCommand w with
      | [1] => headerAccesses
      | [2] => sendMetadataAccesses junk (w.soRead 1).wire
      | [4] => initUploadAccesses junk (w.soRead 1).wire
      | _ => []
  | .sendChunk _ _ _ => srv.sendChunkAccesses w
  | .receiveChunk _ _ chunkNumber chunkSize _ => receiveChunkAccesses chunkNumber chunkSize w
  | .exited | .faulted => []

end MhProtoServer

def Session.accesses (s : Session) : SessionAct → List Access
  | .serve junk script => s.server.accesses junk ⟨s.unread, script, s.short⟩
  | .files _ => []

/-- Every access of the step is in bounds. -/
def StepInBounds (s : Session) (a : SessionAct) (_ : Session) : Prop :=
  ∀ access ∈ s.accesses a, access.InBounds

instance (access : Access) : Decidable access.InBounds :=
  match access with
  | .read len capacity => inferInstanceAs (Decidable (0 ≤ len ∧ len ≤ capacity))
  | .write len capacity => inferInstanceAs (Decidable (0 ≤ len ∧ len ≤ capacity))
  | .index i chunks => inferInstanceAs (Decidable (0 ≤ i ∧ i < chunks))

instance (s s' : Session) (a : SessionAct) : Decidable (StepInBounds s a s') :=
  inferInstanceAs (Decidable (∀ access ∈ s.accesses a, access.InBounds))

/-! ### How the bytes come in pieces makes no difference -/

namespace MhProtoServer
variable {junk : Nat → UInt8} {srv : MhProtoServer} {w v : Wire}

theorem pathAccesses_alike (h : w.Alike v) (start : Nat) :
    pathAccesses junk start w = pathAccesses junk start v := by
  unfold pathAccesses
  dsimp only
  rw [(h.readBuffer _).value]

theorem initUploadAccesses_alike (h : w.Alike v) :
    initUploadAccesses junk w = initUploadAccesses junk v := by
  unfold initUploadAccesses
  dsimp only
  rw [pathAccesses_alike h 0, (h.readBuffer _).value]

theorem sendChunkAccesses_alike (h : w.Alike v) :
    srv.sendChunkAccesses w = srv.sendChunkAccesses v := by
  have hnumber := h.readBuffer (Buffer.zero 7)
  unfold sendChunkAccesses
  dsimp only
  rw [hnumber.br, hnumber.value]

theorem receiveChunkAccesses_alike (h : w.Alike v) (chunkNumber chunkSize : Int) :
    receiveChunkAccesses chunkNumber chunkSize w =
      receiveChunkAccesses chunkNumber chunkSize v := by
  have hnumber := h.readInt64 chunkNumber
  unfold receiveChunkAccesses
  dsimp only
  rw [hnumber.br, hnumber.value, (hnumber.wire.readInt64 chunkSize).value]

/-- How the bytes come in pieces makes no difference. -/
theorem accesses_alike (h : w.Alike v) : srv.accesses junk w = srv.accesses junk v := by
  have hcmd := (h.soRead 1).wire
  unfold accesses
  rw [nextCommand_alike h, initUploadAccesses_alike hcmd, sendChunkAccesses_alike h,
    sendMetadataAccesses, pathAccesses_alike (hcmd.readInt64 _).wire 8, ← sendMetadataAccesses]
  simp only [receiveChunkAccesses_alike h]

end MhProtoServer

/-- All accesses are in bounds. -/
def AllInBounds (accesses : List Access) : Prop := ∀ access ∈ accesses, access.InBounds

section List
variable {x : Access} {xs ys : List Access}

theorem allInBounds_cons : AllInBounds (x :: xs) ↔ x.InBounds ∧ AllInBounds xs :=
  List.forall_mem_cons

theorem allInBounds_append : AllInBounds (xs ++ ys) ↔ AllInBounds xs ∧ AllInBounds ys :=
  List.forall_mem_append

theorem allInBounds_nil : AllInBounds [] := nofun

end List

/-! ### Where the process faults -/

section Faults
open MhProtoServer
variable {md5 : Md5} {junk : Nat → UInt8} {srv : MhProtoServer} {dir : Dir} {w : Wire}

/-- The process ends on a request for a chunk of that size: there is no memory for it, or
`md5Buffer` takes it for negative. -/
def EndsProcess (size : Int) : Prop := NoBlock size ∨ 2 ^ 31 ≤ size.toNat % 2 ^ 32

/-- What makes a process fault that stays in bounds. -/
inductive FaultsInBounds (srv : MhProtoServer) (r : Served) : Prop
  /-- `getPayLoadArray` leaves its array -/
  | chunks (hpc : srv.pc = .rcvCmd) (h : 2 ^ 31 ≤ r.server.metadata.chunks)
  /-- `md5Buffer` takes a size for negative -/
  | size (file : Path) (wait pos k : Nat) (hpc : srv.pc = .sendChunk file wait pos)
      (h : EndsProcess (payLoad srv.metadata.fileSize srv.metadata.chunkSize k))

theorem sendMetadataToClient_not_faulted (hin : AllInBounds (sendMetadataAccesses junk w)) :
    (srv.sendMetadataToClient md5 junk dir w).server.pc ≠ .faulted := by
  have hpath := hin _ (List.mem_cons_of_mem _ (List.mem_cons_of_mem _ List.mem_cons_self))
  unfold sendMetadataToClient
  dsimp only
  rw [if_neg (not_lt.mpr hpath.2)]
  split <;> nofun

theorem initUpload_not_faulted (hin : AllInBounds (initUploadAccesses junk w)) :
    (srv.initUpload junk dir w).server.pc ≠ .faulted := by
  have hpath := (allInBounds_append.mp hin).1 _ (List.mem_cons_of_mem _ List.mem_cons_self)
  unfold initUpload
  dsimp only
  rw [if_neg (not_lt.mpr hpath.2)]
  nofun

theorem sendChunkTurn_faulted {file : Path} {wait pos : Nat}
    (hin : AllInBounds (srv.sendChunkAccesses w))
    (h : (srv.sendChunkTurn md5 junk file wait pos dir w).server.pc = .faulted) :
    ∃ k, EndsProcess (payLoad srv.metadata.fileSize srv.metadata.chunkSize k) := by
  have hloop (n pos : Nat) :
      (srv.goto (if n = 0 then .rcvCmd else .sendChunk file n pos)).pc ≠ .faulted := by
    cases n <;> nofun
  unfold sendChunkAccesses at hin
  unfold sendChunkTurn at h
  dsimp only at hin h
  split at h
  · cases h
  next hbr =>
  split at h
  · cases h
  next hend =>
  rw [if_neg (not_or.mpr ⟨hbr, hend⟩)] at hin
  have hindex := hin _ (List.mem_cons_of_mem _ List.mem_cons_self)
  split at h
  · next hrange => exact absurd hindex.2 (by have := hindex.1; omega)
  split at h
  · cases h
  · unfold writeAnswer md5Buffer at h
    rw [length_loadChunkFromFile] at h
    split at h
    · next hmd5 =>
      exact ⟨_, .inr (not_lt.mp fun hlt => by rw [if_pos hlt] at hmd5; cases hmd5)⟩
    · exact absurd h (hloop _ _)

theorem receiveChunkTurn_not_faulted {file : Option Path} {pos : Nat} {chunkNumber chunkSize : Int}
    {buffer : Nat → UInt8} (hin : AllInBounds (receiveChunkAccesses chunkNumber chunkSize w)) :
    (srv.receiveChunkTurn file pos chunkNumber chunkSize buffer dir w).server.pc ≠ .faulted := by
  have hwrite (n m : Int) (b : Nat → UInt8) (v : Wire) :
      (srv.writeChunk file pos n m b dir v).server.pc ≠ .faulted := by
    unfold writeChunk
    split <;> nofun
  unfold receiveChunkAccesses at hin
  unfold receiveChunkTurn
  dsimp only at hin ⊢
  by_cases hend : (w.readInt64 chunkNumber).br ≤ 0 ∨ (w.readInt64 chunkNumber).value = -1
  · rw [if_pos (by split <;> simp_all)]
    nofun
  · rw [if_neg hend, allInBounds_cons, allInBounds_cons, allInBounds_cons] at hin
    have hsize := hin.2.2.1
    have hcount := hin.2.2.2 _ List.mem_cons_self
    rw [if_neg (by split <;> simp_all), if_neg (not_or.mpr ⟨not_lt.mpr hsize.2, not_lt.mpr hcount.2⟩),
      if_neg (not_lt.mpr hsize.1)]
    exact hwrite _ _ _ _

/-- **A step that faults has an access out of bounds**, or the process dies of the number or
the size of the chunks. -/
theorem step_faulted {r : Served} (hr : srv.step md5 junk dir w = some r)
    (h : r.server.pc = .faulted) (hin : AllInBounds (srv.accesses junk w)) :
    FaultsInBounds srv r := by
  unfold step at hr
  unfold accesses at hin
  cases hpc : srv.pc with
  | rcvCmd =>
    rw [hpc] at hr hin
    cases hr
    dsimp only at hin
    rw [allInBounds_cons] at hin
    replace hin := hin.2
    unfold nextCommand at hin
    rw [hpc] at hin
    unfold rcvCmd at h ⊢
    dsimp only at h hin ⊢
    split at h
    · cases h
    next hbr =>
    rw [if_neg hbr] at hin
    split at h
    · next hcmd =>
      rw [if_neg hbr, if_pos hcmd]
      unfold sendChunkToClient at h ⊢
      dsimp only at h ⊢
      split at h
      · next hchunks =>
        rw [if_pos hchunks]
        exact .chunks hpc hchunks
      · split at h <;> cases h
    -- only the commands that come with a path can fault
    split at h
    · next hcmd =>
      rw [hcmd] at hin
      exact absurd h (sendMetadataToClient_not_faulted hin)
    split at h
    · cases h
    split at h
    · next hcmd =>
      rw [hcmd] at hin
      exact absurd h (initUpload_not_faulted hin)
    · rw [hpc] at h
      cases h
  | sendChunk file wait pos =>
    rw [hpc] at hr hin
    cases hr
    obtain ⟨k, hk⟩ := sendChunkTurn_faulted hin h
    exact .size file wait pos k hpc hk
  | receiveChunk file pos n m buffer =>
    rw [hpc] at hr hin
    cases hr
    exact absurd h (receiveChunkTurn_not_faulted hin)
  | exited | faulted =>
    rw [hpc] at hr
    cases hr

end Faults

end Mhftp
