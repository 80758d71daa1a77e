import Inkwell.Codec.EspRom.Framing

namespace Inkwell.EspRom
open List hiding head

/-- What a text was before its bytes were stuffed. -/
def unescape : Bytes → Option Bytes
  | [] => some []
  | byte :: text =>
    if byte ≠ slipEsc then (unescape text).map (byte :: ·)
    else
      match text with
      | [] => none
      | code :: text =>
        if code = slipEscEnd then (unescape text).map (slipEnd :: ·)
        else if code = slipEscEsc then (unescape text).map (slipEsc :: ·)
        else none

/-- A request as the ROM reads it: the op, the checksum and the payload. -/
def received (text : Bytes) : Option (UInt8 × Nat × Bytes) :=
  match unescape text with
  | some (0x00 :: op :: low :: high :: c₀ :: c₁ :: c₂ :: c₃ :: payload) =>
    if low.toNat + high.toNat * 2 ^ 8 = payload.length then some (op, getU32 c₀ c₁ c₂ c₃, payload)
    else none
  | _ => none

theorem unescape_escape (packet : Bytes) : unescape (escape packet) = some packet := by
  induction packet with
  | nil => rfl
  | cons byte packet ih =>
    have hcons : escape (byte :: packet) = escapeByte byte ++ escape packet := rfl
    rw [hcons, escapeByte]
    split
    · rename_i hend
      simp [unescape, ih, hend]
    split
    · rename_i hesc
      simp [unescape, ih, hesc, slipEscEsc, slipEscEnd]
    · rename_i hesc
      rw [singleton_append, unescape.eq_def]
      simp [ih, hesc]

theorem length_escape_le (packet : Bytes) : (escape packet).length ≤ 2 * packet.length := by
  induction packet with
  | nil => exact le_refl 0
  | cons byte packet =>
    have hbyte : (escapeByte byte).length ≤ 2 := by
      unfold escapeByte
      split <;> [skip; split] <;> simp
    have hcons : escape (byte :: packet) = escapeByte byte ++ escape packet := rfl
    rw [hcons, length_append, length_cons]
    omega

theorem received_escape (op : RomOp) (hsize : head.length + body.length < 2 ^ 16)
    (hsum : checksum < 2 ^ 32) :
    received (escape (requestPacket op head body checksum)) =
      some (op.code, checksum, head ++ body) := by
  rw [received, unescape_escape]
  simp only [requestPacket, putU32, cons_append, nil_append, length_append, UInt8.toNat_ofNat',
    getU32_putU32 hsum]
  rw [if_pos (by omega)]

def requestMax : Nat := 2 + 2 * (8 + 16 + romBlock)

/-- A request is refused if it has to be. If not there is a frame that the ROM reads as its op,
words and bytes, and it is built exactly if there is room for it. -/
def Built (op : RomOp) (refused : Prop) (values : List Nat) (body : Bytes) (checksum : Nat)
    (build : Nat → Except Errno Bytes) : Prop :=
  (refused → ∀ outLen, build outLen = .error .einval) ∧
  (¬ refused → ∃ text, slipEnd ∉ text ∧ text.length + 2 ≤ requestMax ∧
    received text = some (op.code, checksum, values.flatMap putU32 ++ body) ∧
    ∀ outLen, build outLen =
      if text.length + 2 ≤ outLen then .ok (slipEnd :: (text ++ [slipEnd])) else .error .enobufs)

theorem request_built (hsize : 4 * values.length + body.length ≤ 16 + romBlock)
    (hsum : checksum < 2 ^ 32) :
    Built op False values body checksum (request op (values.flatMap putU32) body checksum) := by
  have hwords : (values.flatMap putU32).length = 4 * values.length := by
    simp [length_flatMap, putU32, mul_comm]
  have hlength := length_escape_le (requestPacket op (values.flatMap putU32) body checksum)
  rw [← hwords, romBlock] at hsize
  refine ⟨False.elim, fun _ => ⟨_, escape_free, ?_, received_escape op ?_ hsum, fun outLen => ?_⟩⟩
  · simp only [requestPacket, putU32, requestMax, romBlock, length_append, length_cons, length_nil]
      at hlength ⊢
    omega
  · omega
  · rw [request_framed, framed, length_cons, length_append]
    rfl

theorem Built.guarded [Decidable p] (h : ¬ p → Built op False values body checksum build) :
    Built op p values body checksum fun outLen => if p then .error .einval else build outLen := by
  refine ⟨fun hp _ => if_pos hp, fun hp => ?_⟩
  simpa only [if_neg hp] using (h hp).2 id

theorem words_built (hlength : values.length ≤ 6) :
    Built op False values [] 0 (words op values) := by
  apply request_built
  · rw [length_nil, romBlock]
    omega
  · decide

/-- All builders do so, each with its own words and bytes. -/
theorem builders_built (address flashSize baud size offset sequence : Nat) (chip : Chip)
    (run : Bool) (block : Bytes) :
    let padded := block ++ replicate (romBlock - block.length) 0xFF
    Built .sync False [] ([0x07, 0x07, 0x12, 0x20] ++ replicate 32 0x55) 0 romSync ∧
    Built .readReg False [address] [] 0 (romReadReg address) ∧
    Built .spiAttach False [0, 0] [] 0 romSpiAttach ∧
    Built .spiSetParams (flashSize = 0) [0, flashSize, 64 * 1024, 4 * 1024, 256, 0xFFFF] [] 0
      (romSpiSetParams flashSize) ∧
    Built .changeBaudrate (baud = 0) [baud, 0] [] 0 (romChangeBaud baud) ∧
    Built .flashBegin (size = 0)
      ([size, romBlocks size, romBlock, offset] ++ if chip = .esp32 then [] else [0]) [] 0
      (romFlashBegin chip size offset) ∧
    Built .flashData (block.length > romBlock) [romBlock, sequence, 0, 0] padded
      (padded.foldl (· ^^^ ·) checksumSeed).toNat (romFlashData sequence block) ∧
    Built .flashEnd False [if run then 0 else 1] [] 0 (romFlashEnd run) ∧
    Built .spiFlashMd5 (size = 0) [offset, size, 0, 0] [] 0 (romFlashMd5 offset size) := by
  refine ⟨request_built (by decide) (by decide), words_built (by simp), words_built (by simp),
    .guarded fun _ => words_built (by simp), .guarded fun _ => words_built (by simp), ?_,
    .guarded fun hblock => request_built ?_ ?_, words_built (by simp),
    .guarded fun _ => words_built (by simp)⟩
  · cases chip <;> exact .guarded fun _ => words_built (by simp)
  · simp
    omega
  · exact lt_trans (UInt8.toNat_lt _) (by decide)

/-- A digest in hexadecimal, in capitals or not. -/
def hexText (upper : Bool) (digest : Bytes) : Bytes :=
  digest.flatMap fun byte => [digit (byte.toNat / 16), digit (byte.toNat % 16)]
where
  digit (n : Nat) : UInt8 :=
    .ofNat (if n < 10 then 0x30 + n else (if upper then 0x41 else 0x61) + (n - 10))

theorem hexNibble_digit (upper : Bool) : ∀ n < 16, hexNibble (hexText.digit upper n) = some n := by
  cases upper <;> decide

theorem digitsMatch_hexText (upper : Bool) (tail digest : Bytes)
    (h : digest'.length = digest.length) :
    digitsMatch digest' (hexText upper digest ++ tail) ↔ digest' = digest := by
  induction digest generalizing digest' with
  | nil =>
    cases length_eq_zero_iff.mp h
    simp [digitsMatch]
  | cons byte _ ih =>
    obtain ⟨_, _, rfl⟩ := exists_cons_of_length_eq_add_one h
    have hbyte : UInt8.ofNat (byte.toNat / 16 * 16 + byte.toNat % 16) = byte := by
      rw [Nat.div_add_mod', UInt8.ofNat_toNat]
    have hhigh := hexNibble_digit upper (byte.toNat / 16) (by have := byte.toNat_lt; omega)
    have hlow := hexNibble_digit upper (byte.toNat % 16) (Nat.mod_lt _ (by decide))
    have hrest := ih (Nat.succ.inj h)
    rw [hexText] at hrest
    simp only [hexText, flatMap_cons, cons_append, nil_append, digitsMatch, hhigh, hlow, hbyte,
      Bool.and_eq_true, beq_iff_eq, hrest, cons.injEq, eq_comm (a := byte)]

abbrev Digest := { digest : Bytes // digest.length = 16 }

theorem digest_sized (upper : Bool) (digest : Digest) (status : Bytes)
    (hstatus : status.length = statusLen) : let data := hexText upper digest.1 ++ status
    statusLen ≤ data.length ∧ data.length < 2 ^ 16 := by
  simp [hexText, digest.2, hstatus, statusLen]

/-- The ROM's answer with the digest of what is in its flash. -/
def digestAnswer (upper : Bool) (digest : Digest) (status error b₀ b₁ : UInt8) : RomResponse where
  op := RomOp.spiFlashMd5.code
  value := 0
  data := hexText upper digest.1 ++ [status, error, b₀, b₁]
  word := Nat.two_pow_pos 32
  status := (digest_sized upper digest _ rfl).1
  size := (digest_sized upper digest _ rfl).2

/-- An answer verifies exactly the digest in it, if it is no refusal. -/
theorem md5Matches_iff (upper : Bool) (digest digest' : Digest) (status error b₀ b₁ : UInt8) :
    md5Matches (digestAnswer upper digest status error b₀ b₁).report digest'.1 ↔
      status = 0 ∧ digest' = digest := by
  have hlength : (hexText upper digest.1).length = 32 := by simp [hexText, digest.2]
  have hdigits := digitsMatch_hexText upper [status, error, b₀, b₁] digest.1
    (digest'.2.trans digest.2.symm)
  simp [md5Matches, digestAnswer, RomResponse.report, hlength, statusLen, hdigits, Subtype.ext_iff]

end Inkwell.EspRom
