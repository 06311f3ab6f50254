import Mhftp.Server

/-! # Chunk requests

A chunk number goes to the server as decimal text in seven bytes and comes back
through `atoi`.  `snprintf` keeps six digits, so the two agree below a million and
nowhere else (`atoi_requestChunk`, `atoi_requestChunk_ne`).
-/

namespace Mhftp
open Library

section Digits
variable {n : Nat} {l : List Char}

/-- The characters of a decimal number. -/
def Digits (l : List Char) : Prop := ∀ c ∈ l, c.isDigit = true

theorem digits_toDigits (n : Nat) : Digits (Nat.toDigits 10 n) :=
  fun _ hc => Nat.isDigit_of_mem_toDigits (by decide) (by decide) hc

theorem Digits.take (h : Digits l) (k : Nat) : Digits (l.take k) :=
  fun c hc => h c (List.mem_of_mem_take hc)

/-- The bytes of a string. -/
def charBytes (l : List Char) : List UInt8 := l.map fun c => UInt8.ofNat c.toNat

theorem toNat_of_isDigit {c : Char} (h : c.isDigit = true) : 48 ≤ c.toNat ∧ c.toNat ≤ 57 := by
  simp only [Char.isDigit, Bool.and_eq_true, decide_eq_true_eq] at h
  exact ⟨h.1, h.2⟩

theorem toNat_charByte {c : Char} (h : c.isDigit = true) :
    (UInt8.ofNat c.toNat).toNat = c.toNat := by
  have := toNat_of_isDigit h
  rw [UInt8.toNat_ofNat']
  omega

theorem isDigit_charByte {c : Char} (h : c.isDigit = true) :
    isDigit (UInt8.ofNat c.toNat) = true := by
  have := toNat_of_isDigit h
  simp only [isDigit, Bool.and_eq_true, decide_eq_true_eq, UInt8.le_iff_toNat_le, toNat_charByte h]
  exact this

theorem digitsValue_charBytes (h : Digits l) :
    digitsValue (charBytes l) = Nat.ofDigitChars 10 l 0 := by
  rw [digitsValue, charBytes, List.foldl_map, Nat.ofDigitChars_eq_foldl]
  have step : ∀ (k : Nat) (m : List Char), Digits m →
      m.foldl (fun v c => 10 * v + ((UInt8.ofNat c.toNat).toNat - 48)) k =
        m.foldl (fun v c => 10 * v + (c.toNat - '0'.toNat)) k := by
    intro k m hm
    induction m generalizing k with
    | nil => rfl
    | cons c m ih =>
      rw [List.foldl_cons, List.foldl_cons, toNat_charByte (hm c List.mem_cons_self)]
      exact ih _ fun d hd => hm d (List.mem_cons_of_mem _ hd)
  exact step 0 l h

theorem ofDigitChars_lt (h : Digits l) : Nat.ofDigitChars 10 l 0 < 10 ^ l.length := by
  induction l with
  | nil => simp
  | cons c l ih =>
    have hc := toNat_of_isDigit (h c List.mem_cons_self)
    rw [Nat.ofDigitChars_cons, Nat.ofDigitChars_eq_ofDigitChars_zero, List.length_cons, pow_succ]
    have := ih fun d hd => h d (List.mem_cons_of_mem _ hd)
    have h48 : '0'.toNat = 48 := rfl
    have : 10 ^ l.length * (10 * 0 + (c.toNat - '0'.toNat)) ≤ 10 ^ l.length * 9 :=
      Nat.mul_le_mul_left _ (by omega)
    omega

end Digits

theorem isDigit_charBytes {l : List Char} (h : Digits l) :
    ∀ b ∈ charBytes l, isDigit b = true := by
  intro b hb
  obtain ⟨c, hc, rfl⟩ := List.mem_map.mp hb
  exact isDigit_charByte (h c hc)

/-! ### What `atoi` reads -/

/-- The number that `atoi` reads at the front of a string, before it is cut to its type. -/
def numberRead (s : List UInt8) : Int :=
  let s := s.dropWhile isSpace
  let text := if s.head? = some 45 ∨ s.head? = some 43 then s.tail else s
  let value : Int := digitsValue (text.takeWhile isDigit)
  if s.head? = some 45 then -value else value

theorem atoi_eq (s : List UInt8) :
    atoi s = (max (-2 ^ 63) (min (2 ^ 63 - 1) (numberRead s))).bmod (2 ^ 32) := rfl

/-- One or more decimal digits. -/
def IsNumber (s : List UInt8) : Prop := s ≠ [] ∧ ∀ b ∈ s, isDigit b = true

instance (s : List UInt8) : Decidable (IsNumber s) := inferInstanceAs (Decidable (_ ∧ _))

/-- A digit is no blank and no sign. -/
theorem not_blank_of_isDigit {b : UInt8} (h : isDigit b = true) :
    isSpace b = false ∧ b ≠ 45 ∧ b ≠ 43 := by
  simp only [isDigit, isSpace, Bool.and_eq_true, decide_eq_true_eq, UInt8.le_iff_toNat_le,
    Bool.or_eq_false_iff, Bool.and_eq_false_iff, decide_eq_false_iff_not, ne_eq,
    ← UInt8.toNat_inj, UInt8.reduceToNat] at h ⊢
  omega

/-- A number in front of something else is read. -/
theorem numberRead_append {s rest : List UInt8} (h : IsNumber s)
    (hrest : rest.takeWhile isDigit = []) : numberRead (s ++ rest) = digitsValue s := by
  obtain ⟨hne, hdigits⟩ := h
  obtain ⟨b, t, rfl⟩ := List.exists_cons_of_ne_nil hne
  obtain ⟨hspace, hminus, hplus⟩ := not_blank_of_isDigit (hdigits b List.mem_cons_self)
  have hblank : (b :: t ++ rest).dropWhile isSpace = b :: t ++ rest :=
    List.dropWhile_cons_of_neg (by rw [hspace]; decide)
  have hhead : (b :: t ++ rest).head? = some b := rfl
  have htake : (b :: t ++ rest).takeWhile isDigit = b :: t := by
    rw [List.takeWhile_append_of_pos hdigits, hrest, List.append_nil]
  rw [numberRead, hblank]
  simp only [hhead, Option.some.injEq, hminus, hplus, or_self, if_false, htake]

/-- `atoi` of a number that is an int, in front of something else. -/
theorem atoi_append {s rest : List UInt8} (h : IsNumber s) (hrest : rest.takeWhile isDigit = [])
    (hlt : digitsValue s < 2 ^ 31) : atoi (s ++ rest) = digitsValue s := by
  rw [atoi_eq, numberRead_append h hrest, min_eq_right (by omega), max_eq_right (by omega)]
  exact Int.bmod_eq_of_le_mul_two (by omega) (by omega)

theorem atoi_of_isNumber {s : List UInt8} (h : IsNumber s) (hlt : digitsValue s < 2 ^ 31) :
    atoi s = digitsValue s := by
  simpa using atoi_append h List.takeWhile_nil hlt

/-- `atoi` of a short number followed by a NUL. -/
theorem atoi_charBytes {l : List Char} (h : Digits l) (hne : l ≠ []) (hlen : l.length ≤ 6)
    (rest : List UInt8) : atoi (charBytes l ++ 0 :: rest) = Nat.ofDigitChars 10 l 0 := by
  have hlt : Nat.ofDigitChars 10 l 0 < 10 ^ 6 :=
    (ofDigitChars_lt h).trans_le (Nat.pow_le_pow_right (by decide) hlen)
  have hvalue := digitsValue_charBytes h
  have hnumber : IsNumber (charBytes l) := ⟨by simpa [charBytes] using hne, isDigit_charBytes h⟩
  rw [atoi_append hnumber rfl (by omega), hvalue]

theorem decimalText_eq (n : Nat) : decimalText n = charBytes (Nat.toDigits 10 n) := by
  have hn : ¬ (n : Int) < 0 := by omega
  simp [decimalText, charBytes, hn]

theorem requestChunk_bytes (n : Nat) : ∃ rest,
    (requestChunk n).bytes = charBytes ((Nat.toDigits 10 n).take 6) ++ 0 :: rest := by
  have hlen : ((Nat.toDigits 10 n).take 6).length ≤ 6 := List.length_take_le _ _
  have htext : (decimalText n).take 6 = charBytes ((Nat.toDigits 10 n).take 6) := by
    rw [decimalText_eq, charBytes, charBytes, List.map_take]
  have hbytes : (charBytes ((Nat.toDigits 10 n).take 6)).length =
      ((Nat.toDigits 10 n).take 6).length := List.length_map _
  refine ⟨List.replicate (6 - ((Nat.toDigits 10 n).take 6).length) 0, ?_⟩
  rw [← List.replicate_succ]
  simp only [requestChunk, Buffer.overlay, htext, Buffer.zero, List.drop_replicate, hbytes]
  rw [List.take_of_length_le (by rw [List.length_append, hbytes, List.length_replicate]; omega)]
  congr 2
  omega

/-- **The request round trip**, below a million. -/
theorem atoi_requestChunk {n : Nat} (h : n < 10 ^ 6) : atoi (requestChunk n).bytes = n := by
  obtain ⟨rest, hrest⟩ := requestChunk_bytes n
  have hlen : (Nat.toDigits 10 n).length ≤ 6 :=
    (Nat.length_toDigits_le_iff (by decide) (by decide)).mpr h
  rw [List.take_of_length_le hlen] at hrest
  rw [hrest, atoi_charBytes (digits_toDigits n) Nat.toDigits_ne_nil hlen,
    Nat.ofDigitChars_ten_toDigits]

/-- **From a million on the request is for another chunk**: six digits are less. -/
theorem atoi_requestChunk_ne {n : Nat} (h : 10 ^ 6 ≤ n) : atoi (requestChunk n).bytes ≠ n := by
  obtain ⟨rest, hrest⟩ := requestChunk_bytes n
  have hlen : ((Nat.toDigits 10 n).take 6).length ≤ 6 := List.length_take_le _ _
  have hne : (Nat.toDigits 10 n).take 6 ≠ [] := by
    simp [Nat.toDigits_ne_nil]
  have hlt := ofDigitChars_lt ((digits_toDigits n).take 6)
  have hpow : 10 ^ ((Nat.toDigits 10 n).take 6).length ≤ 10 ^ 6 :=
    Nat.pow_le_pow_right (by decide) hlen
  rw [hrest, atoi_charBytes ((digits_toDigits n).take 6) hne hlen]
  omega

/-! ### What the server answers -/

section Answer
variable (md5 : Md5) (junk : Nat → UInt8) {srv : MhProtoServer} {file : Path} {wait pos n : Nat}
  {dir : Dir} {w : Wire} {req : Buffer 7} {ys : List UInt8}

/-- The answer to a request that was read in full and is for chunk `n`. -/
theorem sendChunkTurn_of_full (hu : w.unread = req.bytes ++ ys)
    (hfull : (w.readBuffer (Buffer.zero 7)).br = 7) (hn : atoi req.bytes = n)
    (hchunks : (n : Int) < srv.metadata.chunks)
    (hblock : ¬ NoBlock (payLoad srv.metadata.fileSize srv.metadata.chunkSize n)) :
    srv.sendChunkTurn md5 junk file wait pos dir w =
      let pos := seek pos (n * srv.metadata.chunkSize)
      let size := (payLoad srv.metadata.fileSize srv.metadata.chunkSize n).toNat
      let content := dir.content file
      srv.writeAnswer md5 (if wait = 0 then .rcvCmd
          else .sendChunk file wait (pos + (pread content pos (min size maxCount)).length))
        (loadChunkFromFile junk content pos size) dir ⟨ys, w.script.tail, w.short⟩ := by
  rw [MhProtoServer.sendChunkTurn, Wire.readBuffer_of_full hu hfull]
  simp only [hn, Int.toNat_natCast]
  rw [if_neg (by decide), if_neg (by omega), if_neg (by omega), if_neg hblock]
  simp

/-- A chunk that one `read` and one `write` can move. -/
theorem sendChunkTurn_of_le (hu : w.unread = req.bytes ++ ys)
    (hfull : (w.readBuffer (Buffer.zero 7)).br = 7) (hn : atoi req.bytes = n)
    (hchunks : (n : Int) < srv.metadata.chunks)
    (hsize : 0 ≤ payLoad srv.metadata.fileSize srv.metadata.chunkSize n)
    (hmax : payLoad srv.metadata.fileSize srv.metadata.chunkSize n ≤ maxCount) :
    srv.sendChunkTurn md5 junk file wait pos dir w =
      let pos := seek pos (n * srv.metadata.chunkSize)
      let size := (payLoad srv.metadata.fileSize srv.metadata.chunkSize n).toNat
      let content := dir.content file
      ⟨srv.goto (if wait = 0 then .rcvCmd
          else .sendChunk file wait (pos + (pread content pos size).length)), dir,
        ⟨ys, w.script.tail, w.short⟩,
        chunkMessage md5 (loadChunkFromFile junk content pos size)⟩ := by
  rw [sendChunkTurn_of_full md5 junk hu hfull hn hchunks (not_noBlock hsize hmax)]
  dsimp only
  rw [srv.writeAnswer_of_le md5 _ dir _ (by rw [length_loadChunkFromFile]; omega),
    min_eq_left (by omega)]

/-- Outside the table, and for a chunk size that makes no sense, there is no answer. -/
theorem sendChunkTurn_out_nil (hu : w.unread = req.bytes ++ ys)
    (hfull : (w.readBuffer (Buffer.zero 7)).br = 7) (hn : atoi req.bytes = n)
    (h : srv.metadata.chunks ≤ n ∨
      NoBlock (payLoad srv.metadata.fileSize srv.metadata.chunkSize n)) :
    (srv.sendChunkTurn md5 junk file wait pos dir w).out = [] := by
  rw [MhProtoServer.sendChunkTurn, Wire.readBuffer_of_full hu hfull]
  simp only [hn, Int.toNat_natCast]
  rw [if_neg (by decide), if_neg (by omega)]
  split
  · rfl
  · next hrange =>
    rw [if_pos (h.resolve_left fun hle => hrange (.inr hle))]

/-- The round trip of the request for chunk `n` of a file: the server decodes `n`; what it
answers, if it answers, is the chunk at offset `n * chunkSize`; and it answers for every
chunk that the file has, of a size that one `read` and one `write` can move.  A file has
less than 2 ^ 63 bytes. -/
structure RequestRoundTrip (content : List UInt8) (chunkSize : Int) (n : Nat) : Prop where
  decoded : atoi (requestChunk n).bytes = n
  answered : content.length < 2 ^ 63 → ∀ (name : FName) (junk : Nat → UInt8) (srv : MhProtoServer)
    (file : Path) (wait pos : Nat) (dir : Dir) (w : Wire) (ys : List UInt8),
    dir file = some (.file content) →
    srv.metadata = createHeader md5 name content chunkSize →
    w.unread = (requestChunk n).bytes ++ ys → (w.readBuffer (Buffer.zero 7)).br = 7 →
    ((srv.sendChunkTurn md5 junk file wait pos dir w).out = [] ∨
      ∃ md5sum, md5Buffer md5 (loadChunkFromFile junk content (n * chunkSize).toNat
          (payLoad content.length chunkSize n).toNat) = some md5sum ∧
        (srv.sendChunkTurn md5 junk file wait pos dir w).out =
          sentMessage md5sum (loadChunkFromFile junk content (n * chunkSize).toNat
            (payLoad content.length chunkSize n).toNat)) ∧
    (1 ≤ chunkSize → chunkSize ≤ maxCount → (n : Int) < chunkCount content.length chunkSize →
      (srv.sendChunkTurn md5 junk file wait pos dir w).out =
        chunkMessage md5 (loadChunkFromFile junk content (n * chunkSize).toNat
          (payLoad content.length chunkSize n).toNat))

/-- **Requests are answered with the chunk asked for exactly below a million.** -/
theorem requestRoundTrip_iff (content : List UInt8) (chunkSize : Int) (n : Nat) :
    RequestRoundTrip md5 content chunkSize n ↔ n < 10 ^ 6 := by
  constructor
  · intro h
    by_contra hn
    exact atoi_requestChunk_ne (by omega) h.decoded
  · intro hn
    refine ⟨atoi_requestChunk hn,
      fun hlen name junk srv file wait pos dir w ys hdir hmeta hu hfull => ?_⟩
    have hplace (h : (n : Int) < chunkCount content.length chunkSize) :
        seek pos (n * chunkSize) = (n * chunkSize).toNat := by
      obtain ⟨hpos, hle⟩ := mul_bounds_of_lt_chunkCount (Int.natCast_nonneg _) h
      rw [mul_comm] at hpos hle
      rw [seek, int64_of_range (by omega), if_pos hpos]
    constructor
    · by_cases h : srv.metadata.chunks ≤ n ∨
          NoBlock (payLoad srv.metadata.fileSize srv.metadata.chunkSize n)
      · exact Or.inl (sendChunkTurn_out_nil md5 junk hu hfull (atoi_requestChunk hn) h)
      · rw [not_or, not_le] at h
        rw [sendChunkTurn_of_full md5 junk hu hfull (atoi_requestChunk hn) h.1 h.2,
          content_of_file hdir, hmeta]
        rw [hmeta] at h
        dsimp only [createHeader] at h ⊢
        rw [hplace h.1, MhProtoServer.writeAnswer]
        cases hmd5 : md5Buffer md5 (loadChunkFromFile junk content (n * chunkSize).toNat
            (payLoad content.length chunkSize n).toNat) with
        | none => exact .inl rfl
        | some md5sum => exact .inr ⟨md5sum, rfl, rfl⟩
    · intro hone hmax hchunks
      obtain ⟨hlt, hpay⟩ :=
        payLoad_place ⟨Int.natCast_nonneg _, by exact_mod_cast hlen⟩ hone hchunks
      rw [sendChunkTurn_of_le md5 junk hu hfull (atoi_requestChunk hn)
        (by rw [hmeta]; exact hchunks) (by rw [hmeta]; dsimp only [createHeader]; omega)
        (by rw [hmeta]; dsimp only [createHeader]; omega),
        content_of_file hdir, hmeta]
      dsimp only [createHeader]
      rw [hplace hchunks]

end Answer

/-- The file of 1,000,001 bytes in chunks of one byte has a chunk 1,000,000, and the
request for it is taken for chunk 100,000. -/
theorem requestRoundTrip_fails :
    (1000000 : Int) < chunkCount (List.replicate 1000001 (0 : UInt8)).length 1 ∧
      atoi (requestChunk 1000000).bytes = 100000 ∧
      ¬ RequestRoundTrip (fun _ => Buffer.zero _) (List.replicate 1000001 0) 1 1000000 := by
  refine ⟨by rw [List.length_replicate]; decide, by decide, fun h => ?_⟩
  exact atoi_requestChunk_ne (n := 1000000) (by decide) h.decoded

end Mhftp
