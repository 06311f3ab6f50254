import Mathlib.Tactic.IntervalCases
import Mhftp.UploadWire

/-! # A cut upload

The stream of an upload session ends somewhere.  The server has then read a number of
complete messages and is left with a residue of the next one.  `ReceiveChunkFromClient`
checks only the first of its three reads, and that one only for having read something,
so a residue that is not empty makes it write once more: what the residue leaves of its
local variables, laid over what the last complete message left there (`Locals.cutBy`).

`cut_upload_iff`: the file holds foreign bytes exactly when that last write puts some.
-/

namespace Mhftp
open Library

/-- An upload of the file `content`: the fields of UPLOAD_INIT, the chunk messages after
UPLOAD_CHUNK, and whether the closing number is sent. -/
structure UploadSession where
  content : List UInt8
  local_file : Path
  chunk_size : Nat
  digest : Digest
  messages : List ChunkMessage
  closed : Bool

namespace UploadSession

def init (s : UploadSession) : List UInt8 :=
  uploadInit s.local_file s.chunk_size s.content.length s.digest

def closing (s : UploadSession) : List UInt8 := if s.closed then uploadEnd else []

/-- What follows UPLOAD_CHUNK. -/
def body (s : UploadSession) : List UInt8 := s.messages.flatMap ChunkMessage.bytes ++ s.closing

/-- The fields fit, the path is that of a file, and each message carries the bytes of the
file at its chunk's offset. -/
structure WellFormed (s : UploadSession) : Prop where
  path_length : s.local_file.length < fnameSize
  path_nul : 0 ∉ s.local_file
  path_named : namesNoFile (absoluteFile s.local_file) = false
  chunk_size : (s.chunk_size : Int) < 2 ^ 63
  file_size : (s.content.length : Int) < 2 ^ 63
  fits : ∀ m ∈ s.messages, m.Fits
  data : ∀ m ∈ s.messages, ∀ i, m.data[i]? ≠ none →
    m.data[i]? = s.content[m.chunkNumber * s.chunk_size + i]?

end UploadSession

/-- The complete messages in the first `k` bytes of a body, and the residue. -/
def cutMessages (closing : List UInt8) : List ChunkMessage → Nat → List ChunkMessage × List UInt8
  | [], k => ([], closing.take k)
  | m :: ms, k =>
    if m.bytes.length ≤ k then
      (m :: (cutMessages closing ms (k - m.bytes.length)).1,
        (cutMessages closing ms (k - m.bytes.length)).2)
    else ([], m.bytes.take k)

/-- The position in the file and the local variables of `ReceiveChunkFromClient`. -/
structure Locals where
  pos : Nat
  chunkNumber : Int
  chunkSize : Int
  buffer : Nat → UInt8

namespace Locals

/-- After a complete message. -/
def after (c : Nat) (l : Locals) (m : ChunkMessage) : Locals :=
  ⟨seek l.pos (m.chunkNumber * c) + m.data.length, m.chunkNumber, m.data.length,
    store l.buffer m.data⟩

/-- What a residue makes of the number, the size and the buffer. -/
def cutBy (c : Nat) (l : Locals) (residue : List UInt8) : Locals :=
  let chunkNumber := Wire.overlayInt l.chunkNumber (residue.take 8)
  let chunkSize := Wire.overlayInt l.chunkSize ((residue.drop 8).take 8)
  ⟨seek l.pos (chunkNumber * c), chunkNumber, chunkSize, store l.buffer (residue.drop 16)⟩

end Locals

/-- A residue does no harm: there is none, it is the closing number, or what it makes of
the local variables is a write inside the buffer of bytes that `old` or `content` has at
that place. -/
def ResidueHarmless (old content : List UInt8) (c : Nat) (l : Locals) (residue : List UInt8) :
    Prop :=
  residue = [] ∨ (l.cutBy c residue).chunkNumber = -1 ∨
    ((l.cutBy c residue).chunkSize.bmod (2 ^ 32) ≤ maxChunkSize ∧
      (l.cutBy c residue).chunkSize ≤ maxChunkSize ∧
      ∀ i < (l.cutBy c residue).chunkSize.toNat,
        (l.cutBy c residue).buffer i = old.getD ((l.cutBy c residue).pos + i) 0 ∨
        content[(l.cutBy c residue).pos + i]? = some ((l.cutBy c residue).buffer i))

/-- Each byte of a file is the byte it held before, a gap counting as zeros, or the byte
of the uploaded file. -/
def NoForeignByte (old content file : List UInt8) : Prop :=
  ∀ i, file.getD i 0 = old.getD i 0 ∨ content[i]? = some (file.getD i 0)

/-- A process runs until it ends or the fuel is used up. -/
def runServer (md5 : Md5) (junk : Nat → UInt8) : Nat → MhProtoServer → Dir → Wire → Served
  | 0, srv, dir, w => ⟨srv, dir, w, []⟩
  | fuel + 1, srv, dir, w =>
    match srv.step md5 junk dir w with
    | none => ⟨srv, dir, w, []⟩
    | some s => runServer md5 junk fuel s.server s.dir s.wire

section Run
variable (md5 : Md5) (junk : Nat → UInt8) {srv : MhProtoServer} {dir : Dir} {w : Wire} {fuel : Nat}

theorem runServer_rcvCmd (hpc : srv.pc = .rcvCmd) :
    runServer md5 junk (fuel + 1) srv dir w =
      runServer md5 junk fuel (srv.rcvCmd md5 junk dir w).server
        (srv.rcvCmd md5 junk dir w).dir (srv.rcvCmd md5 junk dir w).wire := by
  rw [runServer, step_of_rcvCmd md5 junk hpc]

theorem runServer_receive {file : Option Path} {pos : Nat} {chunkNumber chunkSize : Int}
    {buffer : Nat → UInt8} (hpc : srv.pc = .receiveChunk file pos chunkNumber chunkSize buffer) :
    runServer md5 junk (fuel + 1) srv dir w =
      runServer md5 junk fuel
        (srv.receiveChunkTurn file pos chunkNumber chunkSize buffer dir w).server
        (srv.receiveChunkTurn file pos chunkNumber chunkSize buffer dir w).dir
        (srv.receiveChunkTurn file pos chunkNumber chunkSize buffer dir w).wire := by
  rw [runServer, MhProtoServer.step, hpc]

theorem runServer_exited (hpc : srv.pc = .exited ∨ srv.pc = .faulted) :
    runServer md5 junk fuel srv dir w = ⟨srv, dir, w, []⟩ := by
  cases fuel with
  | zero => rfl
  | succ fuel =>
    rcases hpc with hpc | hpc <;> rw [runServer, MhProtoServer.step, hpc]

/-- Back at `RcvCmd` with nothing left to read the process ends. -/
theorem runServer_eof (hpc : srv.pc = .rcvCmd) {short : Bool} (hfuel : 1 ≤ fuel) :
    (runServer md5 junk fuel srv dir ⟨[], [], short⟩).server.pc = .exited ∧
      (runServer md5 junk fuel srv dir ⟨[], [], short⟩).dir = dir := by
  obtain ⟨fuel, rfl⟩ : ∃ n, fuel = n + 1 := ⟨fuel - 1, by omega⟩
  rw [runServer_rcvCmd md5 junk hpc, rcvCmd_eof, runServer_exited md5 junk (Or.inl rfl)]
  exact ⟨rfl, rfl⟩

/-- In the loop of `ReceiveChunkFromClient` with nothing left to read, too. -/
theorem runServer_receive_eof {file : Option Path} {pos : Nat} {chunkNumber chunkSize : Int}
    {buffer : Nat → UInt8} (hpc : srv.pc = .receiveChunk file pos chunkNumber chunkSize buffer)
    {short : Bool} (hfuel : 2 ≤ fuel) :
    (runServer md5 junk fuel srv dir ⟨[], [], short⟩).server.pc = .exited ∧
      (runServer md5 junk fuel srv dir ⟨[], [], short⟩).dir = dir := by
  obtain ⟨fuel, rfl⟩ : ∃ n, fuel = n + 1 := ⟨fuel - 1, by omega⟩
  have hturn : srv.receiveChunkTurn file pos chunkNumber chunkSize buffer dir
      ⟨[], [], short⟩ = ⟨srv.goto .rcvCmd, dir, ⟨[], [], true⟩, []⟩ := by
    simp [MhProtoServer.receiveChunkTurn, Wire.readInt64, Wire.soRead_clean]
  rw [runServer_receive md5 junk hpc, hturn]
  exact runServer_eof md5 junk rfl (by omega)

end Run

/-! ### Bytes written -/

section Bytes
variable {old content file data : List UInt8} {pos : Nat}

/-- A write to a file without foreign bytes keeps it so exactly when it writes none. -/
theorem noForeignByte_pwrite_iff (h : NoForeignByte old content file) :
    NoForeignByte old content (pwrite file pos data) ↔
      ∀ i < data.length, data.getD i 0 = old.getD (pos + i) 0 ∨
        content[pos + i]? = some (data.getD i 0) := by
  constructor
  · intro hw i hi
    have := hw (pos + i)
    rwa [getD_pwrite, if_pos (by omega), Nat.add_sub_cancel_left] at this
  · intro hd i
    rw [getD_pwrite]
    split
    · next hi =>
      have := hd (i - pos) (by omega)
      rwa [Nat.add_sub_cancel' hi.1] at this
    · exact h i

theorem getD_map_range {n : Nat} {buffer : Nat → UInt8} {i : Nat} (hi : i < n) :
    ((List.range n).map buffer).getD i 0 = buffer i := by
  rw [List.getD_eq_getElem?_getD]
  simp [hi]

end Bytes

/-! ### The last turn -/

/-- A residue is what is left of a message, or of something no longer than the closing
number. -/
def IsResidue (r : List UInt8) : Prop :=
  r.length ≤ 8 ∨ ∃ m : ChunkMessage, m.Fits ∧ r <+: m.bytes

/-- A residue longer than a number starts with the number of its message, and one longer
than number and size goes on with its size and no more than its data. -/
theorem IsResidue.fields {r : List UInt8} (h : IsResidue r) (x y : Int) :
    (8 < r.length → Wire.overlayInt x (r.take 8) ≠ -1) ∧
      (16 ≤ r.length → 0 ≤ Wire.overlayInt y ((r.drop 8).take 8) ∧
        (Wire.overlayInt y ((r.drop 8).take 8)).bmod (2 ^ 32) =
          Wire.overlayInt y ((r.drop 8).take 8) ∧
        r.length ≤ 16 + (Wire.overlayInt y ((r.drop 8).take 8)).toNat) := by
  rcases h with h | ⟨m, hm, hpre⟩
  · exact ⟨fun hr => by omega, fun hr => by omega⟩
  · have hlen : r.length ≤ 16 + m.data.length := m.length_bytes ▸ hpre.length_le
    have hdata : m.data.length ≤ 20971520 := maxChunkSize_eq ▸ hm.data
    have hnumber := hm.chunkNumber
    have hr : r = m.bytes.take r.length := List.prefix_iff_eq_take.mp hpre
    have htake : ∀ n, n ≤ r.length → r.take n = m.bytes.take n := by
      intro n hn
      conv_lhs => rw [hr, List.take_take, min_eq_left hn]
    constructor
    · intro h8
      rw [htake 8 (by omega), ChunkMessage.bytes, List.take_left' (length_encodeInt 8 _),
        Wire.overlayInt_encodeInt (by omega)]
      omega
    · intro h16
      have hsize : (r.drop 8).take 8 = encodeInt 8 m.data.length := by
        have htake₁₆ := congrArg (List.drop 8) (htake 16 h16)
        rw [List.drop_take, List.drop_take] at htake₁₆
        rw [show 8 = 16 - 8 from rfl, htake₁₆, ChunkMessage.bytes,
          List.drop_left' (length_encodeInt 8 _), List.take_left' (length_encodeInt 8 _)]
      rw [hsize, Wire.overlayInt_encodeInt (by omega), Int.toNat_natCast]
      exact ⟨by omega, Int.bmod_eq_of_le_mul_two (by omega) (by omega), hlen⟩

section LastTurn
variable (md5 : Md5) (junk : Nat → UInt8) {srv : MhProtoServer} {dir : Dir} {fuel : Nat}
  {file : Path} {l : Locals} {c : Nat} {r old content cur : List UInt8} {short : Bool}

/-- The write of a residue would leave the buffer. -/
def Locals.Overrun (l : Locals) : Prop :=
  (maxChunkSize : Int) < l.chunkSize.bmod (2 ^ 32) ∨ (maxChunkSize : Int) < l.chunkSize

/-- The turn on a residue: it leaves the loop, faults, or writes once, and has then read
everything. -/
theorem receiveChunkTurn_residue (hr : IsResidue r) (hne : r ≠ []) {turn : Served}
    (hturn : srv.receiveChunkTurn (some file) l.pos l.chunkNumber l.chunkSize l.buffer dir
      ⟨r, [], short⟩ = turn) :
    ((l.cutBy c r).chunkNumber = -1 ∧
      ∃ short', turn = ⟨srv.goto .rcvCmd, dir, ⟨[], [], short'⟩, []⟩) ∨
    ((l.cutBy c r).chunkNumber ≠ -1 ∧ (l.cutBy c r).Overrun ∧
      turn.server = srv.goto .faulted) ∨
    ((l.cutBy c r).chunkNumber ≠ -1 ∧ ¬ (l.cutBy c r).Overrun ∧
      ∃ short', turn = srv.writeChunk (some file) l.pos (l.cutBy c r).chunkNumber
        (l.cutBy c r).chunkSize (l.cutBy c r).buffer dir ⟨[], [], short'⟩) := by
  have hpos : ¬ ((min 8 r.length : Nat) : Int) ≤ 0 := by
    have := List.length_pos_of_ne_nil hne
    omega
  obtain ⟨h8, h16⟩ := hr.fields l.chunkNumber l.chunkSize
  simp only [MhProtoServer.receiveChunkTurn, Wire.readInt64, Wire.soRead_clean, hpos, if_false,
    List.drop_drop] at hturn
  by_cases hn : Wire.overlayInt l.chunkNumber (r.take 8) = -1
  · -- only a cut field can come out as -1, so nothing follows it
    have hdrop : r.drop 8 = [] := List.drop_eq_nil_of_le (by
      by_contra hlt
      exact h8 (by omega) hn)
    rw [if_pos hn, hdrop] at hturn
    exact Or.inl ⟨hn, _, hturn.symm⟩
  · rw [if_neg hn] at hturn
    by_cases hlarge : (maxChunkSize : Int) <
          (Wire.overlayInt l.chunkSize ((r.drop 8).take 8)).bmod (2 ^ 32) ∨
        (maxChunkSize : Int) < Wire.overlayInt l.chunkSize ((r.drop 8).take 8)
    · rw [if_pos hlarge] at hturn
      exact Or.inr (Or.inl ⟨hn, hlarge, by rw [← hturn]⟩)
    · rw [if_neg hlarge] at hturn
      refine Or.inr (Or.inr ⟨hn, hlarge, ?_⟩)
      by_cases h : 16 ≤ r.length
      · -- both fields are whole, and the data is cut
        obtain ⟨hnonneg, hbmod, hlen⟩ := h16 h
        have htake := List.take_of_length_le (l := r.drop (8 + 8))
          (i := (Wire.overlayInt l.chunkSize ((r.drop 8).take 8)).toNat)
          (by rw [List.length_drop]; omega)
        have hdrop :
            r.drop (8 + 8 + (Wire.overlayInt l.chunkSize ((r.drop 8).take 8)).toNat) = [] :=
          List.drop_eq_nil_of_le (by omega)
        rw [hbmod, if_neg (by omega), htake, hdrop] at hturn
        exact ⟨_, hturn.symm⟩
      · -- a field is cut: no data comes, and the buffer stays as it was
        have hdrop : r.drop (8 + 8) = [] := List.drop_eq_nil_of_le (by omega)
        have hstore : (l.cutBy c r).buffer = l.buffer := by
          show store l.buffer (r.drop (8 + 8)) = _
          rw [hdrop]
          rfl
        rw [hstore]
        have hrest : ∀ n, r.drop (8 + 8 + n) = [] :=
          fun n => List.drop_eq_nil_of_le (by omega)
        rw [hdrop] at hturn
        split at hturn
        · exact ⟨_, hturn.symm⟩
        · rw [List.take_nil, hrest] at hturn
          exact ⟨_, hturn.symm⟩

/-- The process has ended by itself and has left no foreign byte in the file. -/
def Clean (old content : List UInt8) (file : Path) (final : Served) : Prop :=
  final.server.pc = .exited ∧ NoForeignByte old content (final.dir.content file)

/-- At the end of the stream the file stays as it is. -/
theorem clean_eof_iff (hpc : srv.pc = .rcvCmd ∨ ∃ f pos n sz buffer,
    srv.pc = .receiveChunk f pos n sz buffer) (hfuel : 2 ≤ fuel) :
    Clean old content file (runServer md5 junk fuel srv dir ⟨[], [], short⟩) ↔
      NoForeignByte old content (dir.content file) := by
  have hend : (runServer md5 junk fuel srv dir ⟨[], [], short⟩).server.pc = .exited ∧
      (runServer md5 junk fuel srv dir ⟨[], [], short⟩).dir = dir := by
    rcases hpc with hpc | ⟨f, pos, n, sz, buffer, hpc⟩
    · exact runServer_eof md5 junk hpc (by omega)
    · exact runServer_receive_eof md5 junk hpc hfuel
  rw [Clean, hend.2]
  exact and_iff_right hend.1

/-- **The last turn**: from a file without foreign bytes, the residue decides. -/
theorem clean_lastTurn_iff
    (hpc : srv.pc = .receiveChunk (some file) l.pos l.chunkNumber l.chunkSize l.buffer)
    (hc : srv.chunkSize = c) (hr : IsResidue r)
    (hok : NoForeignByte old content (dir.content file)) :
    Clean old content file (runServer md5 junk (fuel + 3) srv dir ⟨r, [], short⟩) ↔
      ResidueHarmless old content c l r := by
  by_cases hne : r = []
  · subst hne
    refine iff_of_true ((clean_eof_iff md5 junk (Or.inr ⟨_, _, _, _, _, hpc⟩) ?_).mpr hok)
      (Or.inl rfl)
    omega
  · rw [runServer_receive md5 junk hpc]
    rcases receiveChunkTurn_residue (c := c) hr hne rfl with
      ⟨hn, short', hturn⟩ | ⟨hn, hover, hturn⟩ | ⟨hn, hover, short', hturn⟩
    · rw [hturn]
      refine iff_of_true ((clean_eof_iff md5 junk (Or.inl rfl) ?_).mpr hok) (Or.inr (Or.inl hn))
      omega
    · -- the process faults, so it does not end by itself
      rw [hturn, runServer_exited md5 junk (Or.inr rfl)]
      refine iff_of_false (fun h => by cases h.1) fun h => ?_
      rcases h with h | h | ⟨h₁, h₂, -⟩
      · exact hne h
      · exact hn h
      · unfold Locals.Overrun at hover
        omega
    · -- the buffer is written, whatever part of it has come
      rw [hturn, MhProtoServer.writeChunk, hc]
      refine (clean_eof_iff md5 junk (Or.inr ⟨_, _, _, _, _, rfl⟩) (by omega)).trans ?_
      dsimp only
      rw [content_update_self]
      refine (noForeignByte_pwrite_iff hok).trans ?_
      rw [List.length_map, List.length_range]
      constructor
      · intro h
        unfold Locals.Overrun at hover
        refine Or.inr (Or.inr ⟨by omega, by omega, fun i hi => ?_⟩)
        have := h i hi
        rwa [getD_map_range hi] at this
      · intro h i hi
        rcases h with h | h | ⟨-, -, h⟩
        · exact absurd h hne
        · exact absurd h hn
        · rw [getD_map_range hi]
          exact h i hi

end LastTurn

/-! ### The whole session -/

section Session
variable (md5 : Md5) (junk : Nat → UInt8) {srv : MhProtoServer} {dir : Dir} {fuel c k : Nat}
  {file : Path} {old content closing : List UInt8} {l : Locals} {short : Bool}

/-- A complete message puts no foreign byte into the file. -/
theorem noForeignByte_message {m : ChunkMessage} {cur : List UInt8} {pos : Nat}
    (hlen : content.length < 2 ^ 63)
    (hdata : ∀ i, m.data[i]? ≠ none → m.data[i]? = content[m.chunkNumber * c + i]?)
    (h : NoForeignByte old content cur) :
    NoForeignByte old content (pwrite cur (seek pos (m.chunkNumber * c)) m.data) := by
  refine (noForeignByte_pwrite_iff h).mpr fun i hi => Or.inr ?_
  have hsome : m.data[i]? = some (m.data.getD i 0) := by
    rw [List.getD_eq_getElem?_getD, List.getElem?_eq_getElem hi]
    rfl
  have hbyte := hdata i (by rw [hsome]; exact Option.some_ne_none _)
  rw [hsome] at hbyte
  obtain ⟨hlt, -⟩ := List.getElem?_eq_some_iff.mp hbyte.symm
  rw [seek_mul pos (by omega), ← hbyte]

/-- **The loop**, by induction on the messages: after the complete ones the residue
decides. -/
theorem clean_messages_iff (hlen : content.length < 2 ^ 63) (hclosing : closing.length ≤ 8)
    (ms : List ChunkMessage)
    (hfits : ∀ m ∈ ms, m.Fits)
    (hdata : ∀ m ∈ ms, ∀ i, m.data[i]? ≠ none → m.data[i]? = content[m.chunkNumber * c + i]?)
    (hpc : srv.pc = .receiveChunk (some file) l.pos l.chunkNumber l.chunkSize l.buffer)
    (hc : srv.chunkSize = c) (hok : NoForeignByte old content (dir.content file))
    (hfuel : ms.length + 3 ≤ fuel) :
    Clean old content file (runServer md5 junk fuel srv dir
        ⟨(ms.flatMap ChunkMessage.bytes ++ closing).take k, [], short⟩) ↔
      ResidueHarmless old content c ((cutMessages closing ms k).1.foldl (Locals.after c) l)
        (cutMessages closing ms k).2 := by
  induction ms generalizing k l srv dir fuel with
  | nil =>
    obtain ⟨fuel, rfl⟩ : ∃ n, fuel = n + 3 := ⟨fuel - 3, by simp at hfuel; omega⟩
    exact clean_lastTurn_iff md5 junk hpc hc
      (Or.inl (by simp; omega)) hok
  | cons m ms ih =>
    have hm := hfits m List.mem_cons_self
    rw [List.flatMap_cons, List.append_assoc]
    by_cases hk : m.bytes.length ≤ k
    · obtain ⟨fuel, rfl⟩ : ∃ n, fuel = n + 1 := ⟨fuel - 1, by omega⟩
      rw [List.take_append, List.take_of_length_le hk, runServer_receive md5 junk hpc,
        receiveChunkTurn_message hm, MhProtoServer.writeChunk, hc, Int.toNat_natCast, map_store,
        cutMessages, if_pos hk, List.foldl_cons]
      refine ih (fun m' h => hfits m' (List.mem_cons_of_mem _ h))
        (fun m' h => hdata m' (List.mem_cons_of_mem _ h)) rfl hc ?_ (by simpa using hfuel)
      dsimp only
      rw [content_update_self]
      exact noForeignByte_message hlen (hdata m List.mem_cons_self) hok
    · obtain ⟨fuel, rfl⟩ : ∃ n, fuel = n + 3 := ⟨fuel - 3, by omega⟩
      rw [List.take_append_of_le_length (by omega), cutMessages, if_neg hk]
      exact clean_lastTurn_iff md5 junk hpc hc
        (Or.inr ⟨m, hm, List.take_prefix _ _⟩) hok

/-- The local variables when `ReceiveChunkFromClient` starts: the size and the buffer are
whatever the memory held. -/
def Locals.start (junk : Nat → UInt8) : Locals :=
  ⟨0, 0, decodeInt (unset junk 0 8), fun i => junk (8 + i)⟩

/-- **A cut upload writes foreign bytes exactly when its residue does harm.**  The stream
of a session ends anywhere after UPLOAD_CHUNK; the process reads what there is and ends.
Its file, which is no folder, holds only bytes it held before and bytes of the uploaded file if
and only if the residue is harmless after the complete messages. -/
theorem cut_upload_iff (s : UploadSession) (hs : s.WellFormed) (hpc : srv.pc = .rcvCmd)
    (hfolder : dir.isFolder (absoluteFile s.local_file) = false)
    (hfuel : s.messages.length + 5 ≤ fuel) :
    Clean (dir.content (absoluteFile s.local_file)) s.content (absoluteFile s.local_file)
        (runServer md5 junk fuel srv dir ⟨s.init ++ 3 :: s.body.take k, [], short⟩) ↔
      ResidueHarmless (dir.content (absoluteFile s.local_file)) s.content s.chunk_size
        ((cutMessages s.closing s.messages k).1.foldl (Locals.after s.chunk_size)
          (Locals.start junk))
        (cutMessages s.closing s.messages k).2 := by
  obtain ⟨fuel, rfl⟩ : ∃ n, fuel = n + 1 + 1 := ⟨fuel - 2, by omega⟩
  have hc := hs.chunk_size
  have hf := hs.file_size
  rw [runServer_rcvCmd md5 junk hpc, UploadSession.init,
    rcvCmd_uploadInit md5 junk hs.path_length hs.path_nul (by omega) (by omega),
    runServer_rcvCmd md5 junk rfl, rcvCmd_uploadChunk, MhProtoServer.receiveChunkFromClient]
  simp only [hasFile_touch hs.path_named hfolder, if_true]
  refine clean_messages_iff md5 junk (l := Locals.start junk) (by omega) ?_ s.messages hs.fits
    hs.data rfl rfl ?_ (by omega)
  · unfold UploadSession.closing
    split
    · exact (length_encodeInt 8 _).le
    · exact Nat.zero_le _
  · rw [content_touch]
    exact fun i => Or.inl rfl

end Session

/-- Four bytes in chunks of two. -/
def sampleSession : UploadSession where
  content := [1, 2, 3, 4]
  local_file := [97]
  chunk_size := 2
  digest := Buffer.zero _
  messages := [⟨0, [1, 2]⟩, ⟨1, [3, 4]⟩]
  closed := true

def sampleServer : MhProtoServer :=
  .create ⟨Buffer.zero _, 0, Buffer.zero _, 0, 0⟩ [] (Buffer.zero _)

theorem sampleSession_wellFormed : sampleSession.WellFormed where
  path_length := by decide
  path_nul := by decide
  path_named := by decide
  chunk_size := by decide
  file_size := by decide
  fits := by
    intro m hm
    have hmax := maxChunkSize_eq
    simp only [sampleSession, List.mem_cons, List.not_mem_nil, or_false] at hm
    rcases hm with rfl | rfl <;> exact ⟨by decide, by rw [hmax]; decide⟩
  data := by
    intro m hm i hi
    simp only [sampleSession, List.mem_cons, List.not_mem_nil, or_false] at hm
    have hlt : i < 2 := by
      rcases hm with rfl | rfl <;> simpa using hi
    rcases hm with rfl | rfl <;> interval_cases i <;> rfl

/-- The stream that ends after both messages. -/
theorem cut_upload_sample :
    Clean [] [1, 2, 3, 4] [97] (runServer (fun _ => Buffer.zero _) (fun _ => 0) 7 sampleServer
        (fun _ => none) ⟨sampleSession.init ++ 3 :: sampleSession.body.take 36, [], false⟩) ↔
      ResidueHarmless [] [1, 2, 3, 4] 2
        ((cutMessages sampleSession.closing sampleSession.messages 36).1.foldl (Locals.after 2)
          (Locals.start fun _ => 0))
        (cutMessages sampleSession.closing sampleSession.messages 36).2 :=
  cut_upload_iff (fun _ => Buffer.zero _) (fun _ => 0) sampleSession sampleSession_wellFormed rfl
    rfl (by decide)

/-- The stream that ends in the middle of the number of the second message: the first
message goes to the file a second time, where the second belongs. -/
theorem cut_upload_fails :
    ¬ Clean [] [1, 2, 3, 4] [97] (runServer (fun _ => Buffer.zero _) (fun _ => 0) 7 sampleServer
        (fun _ => none) ⟨sampleSession.init ++ 3 :: sampleSession.body.take 22, [], false⟩) := by
  have hfile : (runServer (fun _ => Buffer.zero _) (fun _ => 0) 7 sampleServer
      (fun _ => none)
      ⟨sampleSession.init ++ 3 :: sampleSession.body.take 22, [], false⟩).dir.content [97] =
        [1, 2, 1, 2] := by
    decide +kernel
  rintro ⟨-, h⟩
  rw [hfile] at h
  rcases h 2 with h | h <;> cases h

end Mhftp
