import Mhftp.Chunks
import Mhftp.MetadataPipeline
import Mhftp.Upload

/-! # The chunk sizes that a client admits

The argument of `-c` becomes an int by `SuffixToInt`, goes over the wire to the server's
`create` in a download and to the client's own in an upload, and comes back as the sizes of
the chunks.  Nobody compares it with MAX_CHUNK_SIZE on the way, which is what the buffers
have.
-/

namespace Mhftp
open Library

/-- MH_K -/
def mhK : Int := 1024

/-- MH_M -/
def mhM : Int := 1048576

/-- `SuffixToInt`, whose products wrap around; `none` where it leaves `str_number` or `aux`,
which has 64 bytes. -/
def suffixToInt (str_number : List UInt8) : Option Int :=
  match str_number.getLast? with
  | none => none
  | some suffix =>
    if isDigit suffix then some (atoi str_number)
    else
      let aux := str_number.dropLast
      if 64 ≤ aux.length then none
      else if suffix ||| 32 = 107 then some ((atoi aux * mhK).bmod (2 ^ 32))
      else if suffix ||| 32 = 109 then some ((atoi aux * mhM).bmod (2 ^ 32))
      else some (-1)

/-- A length that a buffer of a transfer takes, and that is not empty. -/
def InBuffer (n : Int) : Prop := 1 ≤ n ∧ n ≤ maxChunkSize

instance (n : Int) : Decidable (InBuffer n) := inferInstanceAs (Decidable (_ ∧ _))

/-- The lengths in the transfer of a file with this header: the upload worker reads the
payload into `snd_buffer`; it sends what `read` returns, and `ReceiveChunkFromClient` reads
that; the download worker reads as much into `rcv_buffer` as the server sends. -/
structure TransferFits (content : List UInt8) (h : Header) : Prop where
  chunkSize : InBuffer h.chunkSize
  chunks : 0 ≤ h.chunks
  snd_buffer : ∀ i : Nat, (i : Int) < h.chunks → InBuffer (payLoad h.fileSize h.chunkSize i)
  buffer : ∀ i pos : Nat, (i : Int) < h.chunks →
    InBuffer (pread content (seek pos (i * h.chunkSize))
      (payLoad h.fileSize h.chunkSize i).toNat).length
  rcv_buffer : ∀ (i pos : Nat) (junk : Nat → UInt8), (i : Int) < h.chunks →
    InBuffer (loadChunkFromFile junk content (seek pos (i * h.chunkSize))
      (payLoad h.fileSize h.chunkSize i).toNat).length

/-- Whatever server is asked for the metadata, its answer is that of a transfer that fits. -/
def DownloadFits (md5 : Md5) (r : MetadataRequest) : Prop :=
  ∀ (s : Session) (a : SessionAct), a.InPieces → s.server.pc = .rcvCmd → s.unread = r.bytes →
    s.dir r.file_path = some (.file r.content) →
    ∃ h s', s.step md5 a = some s' ∧ h.InRange ∧
      s'.sent = s.sent ++ (encodeInt 2 0 ++ h.writeMetadataHeader) ∧ TransferFits r.content h

/-- The metadata that an upload creates is that of a transfer that fits. -/
def UploadFits (md5 : Md5) (local_file : FileName) (content : List UInt8) (chunk_size : Int) :
    Prop :=
  ∀ numClient dir junk, TransferFits content
    (Upload.createdMetadata md5 junk
      (.begin numClient chunk_size local_file content none dir)).header

/-- A number that ends in a digit or in k or m, without more than 63 characters before that,
and is at most MAX_CHUNK_SIZE, in 32 bits. -/
def ArgFits (str_number : List UInt8) : Prop :=
  match str_number.getLast? with
  | none => False
  | some suffix =>
    if isDigit suffix then 0 ≤ atoi str_number ∧ atoi str_number ≤ maxChunkSize
    else
      str_number.length ≤ 64 ∧
      ((suffix = 75 ∨ suffix = 107) ∧
          0 ≤ (atoi str_number.dropLast * 1024).bmod (2 ^ 32) ∧
          (atoi str_number.dropLast * 1024).bmod (2 ^ 32) ≤ maxChunkSize ∨
        (suffix = 77 ∨ suffix = 109) ∧
          0 ≤ (atoi str_number.dropLast * 1048576).bmod (2 ^ 32) ∧
          (atoi str_number.dropLast * 1048576).bmod (2 ^ 32) ≤ maxChunkSize)

section Chunks
variable {content : List UInt8} {h : Header}

theorem chunkCount_le {fileSize chunkSize : Int} (hf : 0 ≤ fileSize) (hc : 1 ≤ chunkSize) :
    chunkCount fileSize chunkSize ≤ fileSize := by
  by_contra hlt
  have hi : ((fileSize.toNat : Nat) : Int) < chunkCount fileSize chunkSize := by omega
  have hmul := mul_lt_of_lt_chunkCount hf hc hi
  have hge : 1 * (fileSize.toNat : Int) ≤ chunkSize * fileSize.toNat :=
    Int.mul_le_mul_of_nonneg_right hc (Int.natCast_nonneg _)
  omega

/-- **A transfer fits exactly if its chunk size does.** -/
theorem transferFits_iff (hcontent : content.length < 2 ^ 63) (hsize : h.fileSize = content.length)
    (hchunks : h.chunks = chunkCount h.fileSize h.chunkSize) :
    TransferFits content h ↔ InBuffer h.chunkSize := by
  refine ⟨TransferFits.chunkSize, fun hc => ?_⟩
  obtain ⟨c, hcast⟩ := Int.eq_ofNat_of_zero_le (show 0 ≤ h.chunkSize by have := hc.1; omega)
  have hone : 1 ≤ c := by have := hc.1; omega
  let src : ChunkedFile := ⟨content, c, hone⟩
  rw [hsize, hcast] at hchunks
  have hcount : h.chunks = chunkCount src.content.length src.chunkSize := hchunks
  have hpayLoad : ∀ i : Nat, (i : Int) < h.chunks → src.Has i ∧
      payLoad h.fileSize h.chunkSize i = src.size i ∧ InBuffer (src.size i) ∧
        ∀ pos, seek pos (i * h.chunkSize) = i * c := by
    intro i hi
    rw [hcount] at hi
    have hk : src.Has i := hi
    have hlt : i * c < content.length := hk.lt
    have hsrc : src.size i = min c (content.length - i * c) := rfl
    rw [hsize, hcast]
    refine ⟨hk, hk.payLoad_eq hcontent, ⟨by omega, ?_⟩, fun pos => seek_mul pos (by omega)⟩
    have := hc.2
    omega
  refine ⟨hc, hcount ▸ src.count_nonneg, fun i hi => ?_, fun i pos hi => ?_,
    fun i pos junk hi => ?_⟩
  · obtain ⟨-, hpay, hin, -⟩ := hpayLoad i hi
    rw [hpay]
    exact hin
  · obtain ⟨hk, hpay, hin, hseek⟩ := hpayLoad i hi
    have hlength : (pread content (i * c) (src.size i)).length = src.size i := hk.length_chunk
    rw [hpay, hseek, Int.toNat_natCast, hlength]
    exact hin
  · obtain ⟨-, hpay, hin, -⟩ := hpayLoad i hi
    rw [hpay, length_loadChunkFromFile, Int.toNat_natCast]
    exact hin

end Chunks

section Argument
variable {arg : List UInt8}

/-- The default is taken for 0. -/
theorem inBuffer_chunkSizeMember {n : Int} :
    InBuffer (Upload.chunkSizeMember n) ↔ 0 ≤ n ∧ n ≤ maxChunkSize := by
  unfold InBuffer Upload.chunkSizeMember
  split
  · next h =>
    rw [h, maxChunkSize_eq]
    decide
  · next h => omega

/-- The letters that a suffix may be. -/
theorem or_32_eq_iff (suffix : UInt8) :
    (suffix ||| 32 = 107 ↔ suffix = 75 ∨ suffix = 107) ∧
      (suffix ||| 32 = 109 ↔ suffix = 77 ∨ suffix = 109) := by
  have hall : ∀ n < 256, (UInt8.ofNat n ||| 32 = 107 ↔ UInt8.ofNat n = 75 ∨ UInt8.ofNat n = 107) ∧
      (UInt8.ofNat n ||| 32 = 109 ↔ UInt8.ofNat n = 77 ∨ UInt8.ofNat n = 109) := by
    decide +kernel
  have hsuffix := hall suffix.toNat suffix.toNat_lt
  rwa [UInt8.ofNat_toNat] at hsuffix

theorem argFits_iff :
    (∃ n, suffixToInt arg = some n ∧ 0 ≤ n ∧ n ≤ maxChunkSize) ↔ ArgFits arg := by
  have hsome : ∀ x : Int,
      (∃ n, some x = some n ∧ 0 ≤ n ∧ n ≤ maxChunkSize) ↔ 0 ≤ x ∧ x ≤ maxChunkSize := by
    intro x
    simp only [Option.some.injEq, exists_eq_left']
  unfold suffixToInt ArgFits
  cases hlast : arg.getLast? with
  | none => simp
  | some suffix =>
    obtain ⟨hk, hm⟩ := or_32_eq_iff suffix
    have hlen : arg.dropLast.length = arg.length - 1 := List.length_dropLast
    have hne : arg.length ≠ 0 := by
      rw [ne_eq, List.length_eq_zero_iff]
      rintro rfl
      cases hlast
    dsimp only
    split
    · -- a number without a suffix
      exact hsome _
    next hdigit =>
    split
    · -- the front does not fit into its array
      next hlong => exact iff_of_false nofun fun h => by omega
    next hshort =>
    have hfits : arg.length ≤ 64 := by omega
    rw [and_iff_right hfits]
    split
    · next hletter =>
      have hno : ¬ (suffix = 77 ∨ suffix = 109) := by
        rw [← hm, hletter]
        decide
      rw [hsome, and_iff_right (hk.mp hletter), or_iff_left fun h => hno h.1]
      rfl
    next hnk =>
    split
    · next hletter =>
      rw [hsome, and_iff_right (hm.mp hletter), or_iff_right fun h => hnk (hk.mpr h.1)]
      rfl
    · -- an unknown suffix gives -1
      next hnm =>
      rw [hsome]
      exact iff_of_false (by omega)
        fun h => h.elim (fun h => hnk (hk.mpr h.1)) (fun h => hnm (hm.mpr h.1))

end Argument

section Routes
variable (md5 : Md5) {n : Int} {content : List UInt8} (hcontent : content.length < 2 ^ 63)
  (hn : 0 ≤ n ∧ n ≤ maxChunkSize)
include hcontent hn

/-- The way of a download. -/
theorem downloadFits {file_path : Path} (hlength : file_path.length < fnameSize)
    (hnul : 0 ∉ file_path) : DownloadFits md5 ⟨file_path, content, n⟩ := by
  intro s a ha hpc hu hdir
  have hin := inBuffer_chunkSizeMember.mpr hn
  have hmax := hn.2
  rw [maxChunkSize_eq] at hmax
  obtain ⟨h, s', hdescribes, hstep, -, -, hsent⟩ :=
    step_sendMetadata_of_range md5 hlength hnul (by dsimp only; omega) ha hpc hu hdir
  have hfileSize : h.fileSize = content.length := hdescribes.fileSize
  have hchunkSize : h.chunkSize = Upload.chunkSizeMember n := hdescribes.chunkSize
  have hchunks : h.chunks = chunkCount content.length (Upload.chunkSizeMember n) :=
    hdescribes.chunks
  have hle := chunkCount_le (Int.natCast_nonneg content.length) hin.1
  have hnonneg := chunkCount_nonneg (Int.natCast_nonneg content.length) hin.1
  have hlt := hin.2
  rw [maxChunkSize_eq] at hlt
  have hpos := hin.1
  refine ⟨h, s', hstep, ⟨by omega, by omega, by omega⟩, hsent, ?_⟩
  refine (transferFits_iff hcontent hfileSize ?_).mpr (hchunkSize ▸ hin)
  rw [hchunks, hfileSize, hchunkSize]

/-- The way of an upload. -/
theorem uploadFits (local_file : FileName) : UploadFits md5 local_file content n := by
  intro numClient dir junk
  have hin := inBuffer_chunkSizeMember.mpr hn
  have hnonneg := chunkCount_nonneg (Int.natCast_nonneg content.length) hin.1
  rw [Upload.createdMetadata, Header.fresh_header hnonneg]
  exact (transferFits_iff hcontent rfl rfl).mpr hin

end Routes

instance (arg : List UInt8) : Decidable (ArgFits arg) := by
  unfold ArgFits
  cases arg.getLast? with
  | none => exact isFalse id
  | some suffix => dsimp only; split <;> infer_instance

end Mhftp
