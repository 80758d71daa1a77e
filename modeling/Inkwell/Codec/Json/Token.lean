import Inkwell.Codec.Json

namespace Inkwell.Json
open Http Library
open List hiding tail

def Blank (gap : Bytes) : Prop := ∀ c ∈ gap, space c

instance : DecidablePred Blank := fun gap => inferInstanceAs (Decidable (∀ c ∈ gap, _))

def utf8 (letters : List Char) : Bytes := letters.flatMap String.utf8EncodeChar

def shortEscapes : List (UInt8 × Char) :=
  [('"'.toUInt8, '"'), ('\\'.toUInt8, '\\'), ('/'.toUInt8, '/'), ('b'.toUInt8, '\x08'),
    ('f'.toUInt8, '\x0C'), ('n'.toUInt8, '\n'), ('r'.toUInt8, '\r'), ('t'.toUInt8, '\t')]

def HexDigit (c : UInt8) (n : Nat) : Prop :=
  (ascii "0123456789abcdef")[n]? = some c ∨ (ascii "0123456789ABCDEF")[n]? = some c

/-- The ways to write a character of a string. Half of a surrogate pair is no character, and
stands for a question mark. -/
inductive Glyph : Char → Bytes → Prop
  | raw (quote_ne : c ≠ '"') (backslash_ne : c ≠ '\\') : Glyph c (String.utf8EncodeChar c)
  | short (h : (e, c) ∈ shortEscapes) : Glyph c [backslash, e]
  | code (h₁ : HexDigit c₁ d₁) (h₂ : HexDigit c₂ d₂) (h₃ : HexDigit c₃ d₃) (h₄ : HexDigit c₄ d₄)
      (value : c.toNat = d₁ * 4096 + d₂ * 256 + d₃ * 16 + d₄) :
      Glyph c [backslash, 'u'.toUInt8, c₁, c₂, c₃, c₄]
  | surrogate (h₁ : HexDigit c₁ d₁) (h₂ : HexDigit c₂ d₂) (h₃ : HexDigit c₃ d₃)
      (h₄ : HexDigit c₄ d₄) (low : 0xD800 ≤ d₁ * 4096 + d₂ * 256 + d₃ * 16 + d₄)
      (high : d₁ * 4096 + d₂ * 256 + d₃ * 16 + d₄ ≤ 0xDFFF) :
      Glyph '?' [backslash, 'u'.toUInt8, c₁, c₂, c₃, c₄]

inductive Glyphs : List Char → Bytes → Prop
  | nil : Glyphs [] []
  | cons (glyph : Glyph c written) (glyphs : Glyphs letters text) :
      Glyphs (c :: letters) (written ++ text)

@[grind =] def fitting (room : Nat) : List Char → List Char
  | [] => []
  | c :: letters =>
    if (String.utf8EncodeChar c).length ≤ room then
      c :: fitting (room - (String.utf8EncodeChar c).length) letters
    else []

def decimal (n : Nat) (digits : Bytes) : Nat :=
  digits.foldl (fun n c => n * 10 + (c.toNat - '0'.toNat)) n

inductive Lead : Bool → Bytes → Prop
  | first (h : Blank gap) : Lead true gap
  | comma (before : Blank gap) (after : Blank gap') : Lead false (gap ++ comma :: gap')

/-- What may stand behind a value. -/
def Follows (rest : Bytes) : Prop := ∀ c ∈ rest.head?, delimiter c

instance : DecidablePred Follows := fun rest => inferInstanceAs (Decidable (∀ c ∈ rest.head?, _))

theorem skipSpace_blank (hg : Blank gap) (hc : space c = false) :
    skipSpace (gap ++ c :: text) = c :: text := by
  rw [skipSpace, dropWhile_append_of_pos hg, dropWhile_cons_of_neg (by simp [hc])]

theorem peek_on (hg : Blank gap) (hc : space c = false) :
    peek ⟨gap ++ c :: text, b⟩ = (c, ⟨c :: text, b⟩) := by
  simp [peek, skipSpace_blank hg hc]

theorem take_hit (hg : Blank gap) (hc : space c = false) :
    take ⟨gap ++ c :: text, b⟩ c = (true, ⟨text, b⟩) := by
  simp [take, peek_on hg hc]

theorem take_miss (hg : Blank gap) (hc : space c = false) (hne : c ≠ expected) :
    take ⟨gap ++ c :: text, b⟩ expected = (false, ⟨c :: text, b⟩) := by
  simp [take, peek_on hg hc, hne]

theorem Blank.nil : Blank [] := by
  intro c hc
  cases hc

theorem hexDigit_of (h : HexDigit c n) : hexDigit c = some n ∧ n < 16 := by
  have hlt : n < 16 := by
    rcases h with h | h
    · exact (List.getElem?_eq_some_iff.mp h).choose
    · exact (List.getElem?_eq_some_iff.mp h).choose
  refine ⟨?_, hlt⟩
  rcases h with h | h
  · have hall : ∀ n < 16, ((ascii "0123456789abcdef")[n]?).bind hexDigit = some n := by decide
    simpa [h] using hall n hlt
  · have hall : ∀ n < 16, ((ascii "0123456789ABCDEF")[n]?).bind hexDigit = some n := by decide
    simpa [h] using hall n hlt

theorem hex4_of (h₁ : HexDigit c₁ d₁) (h₂ : HexDigit c₂ d₂) (h₃ : HexDigit c₃ d₃)
    (h₄ : HexDigit c₄ d₄) : hex4 c₁ c₂ c₃ c₄ = some (d₁ * 4096 + d₂ * 256 + d₃ * 16 + d₄) := by
  simp only [hex4, (hexDigit_of h₁).1, (hexDigit_of h₂).1, (hexDigit_of h₃).1, (hexDigit_of h₄).1,
    Option.bind_eq_bind, Option.bind_some, Option.pure_def]
  congr 1
  omega

theorem encodeUtf8_char (h : c.toNat < 0x10000) :
    encodeUtf8 (characterOf c.toNat) 4 = String.utf8EncodeChar c := by
  have hvalid : ¬(0xD800 ≤ c.toNat ∧ c.toNat ≤ 0xDFFF) := by
    have := c.valid
    have hval : c.toNat = c.val.toNat := rfl
    omega
  have hval : c.val.toNat = c.toNat := rfl
  rw [characterOf, if_neg hvalid, encodeUtf8, String.utf8EncodeChar]
  simp only [hval]
  generalize c.toNat = v at h
  have hlead₂ : v < 0x800 → 0xC0 + v / 2 ^ 6 = v / 64 % 32 + 192 := by omega
  have hlead₃ : 0xE0 + v / 2 ^ 12 = v / 4096 % 16 + 224 := by omega
  have hmiddle : 0x80 + v / 2 ^ 6 % 2 ^ 6 = v / 64 % 64 + 128 := by omega
  have hlast : 0x80 + v % 2 ^ 6 = v % 64 + 128 := by omega
  by_cases h₁ : v < 0x80
  · rw [if_pos h₁, if_neg (by decide), if_pos (by omega)]
  · rw [if_neg h₁, if_neg (show ¬v ≤ 127 by omega)]
    by_cases h₂ : v < 0x800
    · rw [if_pos h₂, if_neg (by decide), if_pos (show v ≤ 2047 by omega), hlead₂ h₂, hlast]
    · rw [if_neg h₂, if_neg (by decide), if_neg (show ¬v ≤ 2047 by omega),
        if_pos (show v ≤ 65535 by omega), hlead₃, hmiddle, hlast]

def charLength (first : UInt8) : Nat :=
  if first ≥ 0xF0 then 4 else if first ≥ 0xE0 then 3 else if first ≥ 0xC0 then 2 else 1

structure Encoded (c : Char) (first : UInt8) (more : Bytes) : Prop where
  bytes : String.utf8EncodeChar c = first :: more
  lead : continuation first = false
  continued : ∀ b ∈ more, continuation b
  length : more.length + 1 = charLength first
  ascii : first.toNat < 128 → c.toNat = first.toNat

theorem encoded_of (codes : List Nat) (hbytes : String.utf8EncodeChar c =
      UInt8.ofNat lead :: codes.map fun n => UInt8.ofNat (n % 64 + 128))
    (hlength : codes.length + 1 =
      if 240 ≤ lead then 4 else if 224 ≤ lead then 3 else if 192 ≤ lead then 2 else 1)
    (hlead : lead < 128 ∧ c.toNat = lead ∨ 192 ≤ lead ∧ lead < 256) :
    ∃ first more, Encoded c first more := by
  have hbyte : (UInt8.ofNat lead).toNat = lead := by
    rw [UInt8.toNat_ofNat']
    omega
  refine ⟨_, _, hbytes, ?_, ?_, ?_, by omega⟩
  · rw [continuation, beq_eq_false_iff_ne, hbyte]
    omega
  · intro b hb
    obtain ⟨_, -, rfl⟩ := mem_map.mp hb
    rw [continuation, beq_iff_eq, UInt8.toNat_ofNat']
    omega
  · simp only [length_map, hlength, charLength, ge_iff_le, UInt8.le_iff_toNat_le, hbyte]
    rfl

theorem encoded (c : Char) : ∃ first more, Encoded c first more := by
  have hval : c.val.toNat = c.toNat := rfl
  have hbytes := String.utf8EncodeChar.eq_def c
  simp only [hval] at hbytes
  split at hbytes
  · exact encoded_of [] hbytes (by grind) (by omega)
  · split at hbytes
    · exact encoded_of [c.toNat] hbytes (by grind) (by omega)
    · split at hbytes
      · exact encoded_of [c.toNat / 64, c.toNat] hbytes (by grind) (by omega)
      · exact encoded_of [c.toNat / 4096, c.toNat / 64, c.toNat] hbytes (by grind) (by omega)

theorem ascii_of_utf8 (h : b ∈ String.utf8EncodeChar c) (hb : b.toNat < 128) :
    c.toNat = b.toNat := by
  obtain ⟨_, _, henc⟩ := encoded c
  rw [henc.bytes] at h
  rcases mem_cons.mp h with rfl | hmore
  · exact henc.ascii hb
  · have hcont := henc.continued b hmore
    rw [continuation, beq_iff_eq] at hcont
    omega

theorem not_mem_utf8 (hb : b.toNat < 128) (hne : c.toNat ≠ b.toNat) : b ∉ String.utf8EncodeChar c :=
  fun hmem => hne (ascii_of_utf8 hmem hb)

/-- The walk back from the end of a text finds the byte that began the last character. -/
theorem wholeCharacters_last (hfirst : continuation first = false)
    (hmore : ∀ b ∈ more, continuation b) (hlength : more.length ≤ 3) :
    wholeCharacters (w ++ first :: more) =
      if more.length + 1 < charLength first then w.length else (w ++ first :: more).length := by
  have hback : (((w ++ first :: more).reverse.take 3).takeWhile continuation).length =
      more.length := by
    rw [reverse_append, reverse_cons, append_assoc, take_append,
      take_of_length_le (by simpa using hlength), takeWhile_append_of_pos (by simpa using hmore)]
    cases 3 - more.reverse.length with
    | zero => simp
    | succ => simp [hfirst]
  have hlead : (w ++ first :: more).length - more.length = w.length + 1 := by
    simp only [length_append, length_cons]
    omega
  have hat : (w ++ first :: more).getD (w.length + 1 - 1) 0 = first := by simp
  have hleft : (w ++ first :: more).length - (w.length + 1 - 1) = more.length + 1 := by omega
  rw [wholeCharacters]
  simp only [hback, hlead, hat, hleft, Nat.succ_ne_zero, if_false]
  rw [← charLength, Nat.add_sub_cancel]
  by_cases h : more.length + 1 < charLength first
  · rw [if_pos h, if_pos ⟨by omega, h⟩]
  · rw [if_neg h, if_neg fun hneed => h hneed.2]

theorem utf8_append (front letters : List Char) :
    utf8 (front ++ letters) = utf8 front ++ utf8 letters := flatMap_append

theorem utf8_singleton (c : Char) : utf8 [c] = String.utf8EncodeChar c := append_nil _

theorem charLength_le (first : UInt8) : charLength first ≤ 4 := by
  rw [charLength]
  split_ifs <;> decide

theorem close_cut (hpart : part <+: String.utf8EncodeChar c)
    (hproper : part ≠ String.utf8EncodeChar c) :
    Buffer.close ⟨utf8 front ++ part, true⟩ = utf8 front := by
  rw [Buffer.close, if_pos rfl]
  obtain ⟨first, _, henc⟩ := encoded c
  have hlength := charLength_le first
  rw [← henc.length] at hlength
  rw [henc.bytes] at hpart hproper
  cases part with
  | nil =>
    rw [append_nil]
    rcases eq_nil_or_concat front with rfl | ⟨_, d, rfl⟩
    · rfl
    · obtain ⟨first, _, henc⟩ := encoded d
      have hlength := charLength_le first
      rw [← henc.length] at hlength
      rw [concat_eq_append, utf8_append, utf8_singleton, henc.bytes,
        wholeCharacters_last henc.lead henc.continued (by omega),
        if_neg (by rw [henc.length]; exact lt_irrefl _), take_length]
  | cons b =>
    obtain ⟨rest, hrest⟩ := hpart
    rw [cons_append, List.cons.injEq] at hrest
    obtain ⟨rfl, rfl⟩ := hrest
    have hrest : rest ≠ [] := by
      rintro rfl
      exact hproper (by rw [append_nil])
    have hpos := length_pos_iff.mpr hrest
    have hshort := henc.length
    rw [length_append] at hlength hshort
    rw [wholeCharacters_last henc.lead (fun b hb => henc.continued b (mem_append_left _ hb))
      (by omega), if_pos (by omega), take_left]

theorem unescape_short : ∀ p ∈ shortEscapes,
    p.1 ≠ 'u'.toUInt8 ∧ [unescape p.1] = String.utf8EncodeChar p.2 := by
  decide

theorem stringFrom_raw (hq : quote ∉ raw) (hb : backslash ∉ raw) :
    stringFrom room out (raw ++ rest) =
      stringFrom room (raw.foldl (fun out b => out.append room [b]) out) rest := by
  induction raw generalizing out with
  | nil => rfl
  | cons c _ ih =>
    simp only [mem_cons, not_or] at hq hb
    rw [cons_append, stringFrom_plain (Ne.symm hq.1) (Ne.symm hb.1), ih hq.2 hb.2, foldl_cons]

/-- A character that is written out is copied byte by byte, an escape whole. -/
theorem Glyph.reads (h : Glyph c written) (room : Nat) (out : Buffer) (rest : Bytes) :
    stringFrom room out (written ++ rest) =
        stringFrom room (out.append room (String.utf8EncodeChar c)) rest ∨
      stringFrom room out (written ++ rest) = stringFrom room
        ((String.utf8EncodeChar c).foldl (fun out b => out.append room [b]) out) rest := by
  cases h with
  | raw quote_ne backslash_ne =>
    right
    apply stringFrom_raw
    · exact not_mem_utf8 (by decide) fun h => quote_ne (Char.toNat_inj.mp h)
    · exact not_mem_utf8 (by decide) fun h => backslash_ne (Char.toNat_inj.mp h)
  | short he =>
    obtain ⟨hu, hbyte⟩ := unescape_short _ he
    left
    rw [cons_append, singleton_append, stringFrom_escape hu, hbyte]
  | code h₁ h₂ h₃ h₄ value =>
    left
    have hlt : c.toNat < 0x10000 := by
      have := (hexDigit_of h₁).2
      have := (hexDigit_of h₂).2
      have := (hexDigit_of h₃).2
      have := (hexDigit_of h₄).2
      omega
    simp only [cons_append, nil_append]
    rw [stringFrom_code (hex4_of h₁ h₂ h₃ h₄), ← value, encodeUtf8_char hlt]
  | surrogate h₁ h₂ h₃ h₄ low high =>
    left
    simp only [cons_append, nil_append]
    rw [stringFrom_code (hex4_of h₁ h₂ h₃ h₄), characterOf, if_pos ⟨low, high⟩]
    rfl

theorem append_full (w decoded : Bytes) : Buffer.append room ⟨w, true⟩ decoded = ⟨w, true⟩ := by
  simp [Buffer.append]

theorem fill_full (w raw : Bytes) :
    raw.foldl (fun out b => Buffer.append room out [b]) ⟨w, true⟩ = ⟨w, true⟩ := by
  induction raw with
  | nil => rfl
  | cons b _ ih => rw [foldl_cons, append_full, ih]

theorem fill_open {w raw : Bytes} (hw : w.length ≤ room) :
    raw.foldl (fun out b => Buffer.append room out [b]) ⟨w, false⟩ =
      if w.length + raw.length ≤ room then ⟨w ++ raw, false⟩
      else ⟨w ++ raw.take (room - w.length), true⟩ := by
  induction raw generalizing w with
  | nil => simp [hw]
  | cons b raw ih =>
    by_cases hb : w.length + 1 ≤ room
    · have hnext : (w ++ [b]).length = w.length + 1 := by simp
      have hleft : room - w.length = room - (w.length + 1) + 1 := by omega
      have hall : w.length + 1 + raw.length = w.length + (b :: raw).length := by
        rw [length_cons]
        omega
      have happend : Buffer.append room ⟨w, false⟩ [b] = ⟨w ++ [b], false⟩ := by
        simp [Buffer.append, hb]
      rw [foldl_cons, happend, ih (by omega), hnext, hall, hleft, take_succ_cons,
        append_assoc, append_assoc]
      rfl
    · have happend : Buffer.append room ⟨w, false⟩ [b] = ⟨w, true⟩ := by simp [Buffer.append, hb]
      have hnone : room - w.length = 0 := by omega
      rw [foldl_cons, happend, fill_full, if_neg (by rw [length_cons]; omega), hnone,
        take_zero, append_nil]

theorem Glyph.fits (h : Glyph c written)
    (hfit : w.length + (String.utf8EncodeChar c).length ≤ room) :
    stringFrom room ⟨w, false⟩ (written ++ rest) =
      stringFrom room ⟨w ++ String.utf8EncodeChar c, false⟩ rest := by
  rcases h.reads room ⟨w, false⟩ rest with hread | hread
  · rw [hread, Buffer.append, if_pos ⟨rfl, hfit⟩]
  · rw [hread, fill_open (by omega), if_pos hfit]

theorem Glyph.overflows (h : Glyph c written) (hw : w.length ≤ room)
    (hover : room < w.length + (String.utf8EncodeChar c).length) (rest : Bytes) :
    ∃ part, part <+: String.utf8EncodeChar c ∧ part ≠ String.utf8EncodeChar c ∧
      stringFrom room ⟨w, false⟩ (written ++ rest) = stringFrom room ⟨w ++ part, true⟩ rest := by
  rcases h.reads room ⟨w, false⟩ rest with hread | hread
  · refine ⟨[], nil_prefix, ?_, ?_⟩
    · intro hnil
      rw [← hnil, length_nil] at hover
      omega
    · rw [hread, Buffer.append, if_neg fun h => absurd h.2 (not_le.mpr hover), append_nil]
  · refine ⟨_, take_prefix (room - w.length) _, ?_, ?_⟩
    · intro hall
      have hlength := congrArg List.length hall
      rw [length_take] at hlength
      omega
    · rw [hread, fill_open hw, if_neg (by omega)]

theorem Glyphs.full (h : Glyphs letters text) :
    stringFrom room ⟨w, true⟩ (text ++ rest) = stringFrom room ⟨w, true⟩ rest := by
  induction h with
  | nil => rfl
  | cons glyph _ ih =>
    rw [append_assoc]
    rcases glyph.reads room ⟨w, true⟩ (_ ++ rest) with hread | hread
    · rw [hread, append_full, ih]
    · rw [hread, fill_full, ih]

theorem Glyphs.reads (h : Glyphs letters text) (rest : Bytes) (front : List Char)
    (hfront : (utf8 front).length ≤ room) :
    stringFrom room ⟨utf8 front, false⟩ (text ++ quote :: rest) =
      (some (utf8 (front ++ fitting (room - (utf8 front).length) letters)), rest) := by
  induction h generalizing front with
  | nil => simp [stringFrom_quote, Buffer.close, fitting]
  | @cons c _ _ text glyph glyphs ih =>
    rw [append_assoc, fitting]
    by_cases hfit : (String.utf8EncodeChar c).length ≤ room - (utf8 front).length
    · have hnext : utf8 (front ++ [c]) = utf8 front ++ String.utf8EncodeChar c := by
        rw [utf8_append, utf8_singleton]
      have hlength : (utf8 (front ++ [c])).length =
          (utf8 front).length + (String.utf8EncodeChar c).length := by
        rw [hnext, length_append]
      rw [glyph.fits (by omega), ← hnext, ih _ (by omega), if_pos hfit, hlength,
        append_assoc, singleton_append, Nat.sub_sub]
    · obtain ⟨_, hpart, hproper, hread⟩ := glyph.overflows hfront (by omega) (text ++ quote :: rest)
      rw [hread, glyphs.full, stringFrom_quote, close_cut hpart hproper, if_neg hfit, append_nil]

theorem readString_glyphs (rest : Bytes) (hg : Blank gap) (h : Glyphs letters text) (size : Nat) :
    readString ⟨gap ++ quote :: (text ++ quote :: rest), b⟩ size =
      (some (utf8 (fitting (size - 1) letters)), ⟨rest, b⟩) := by
  have hread := h.reads rest [] (Nat.zero_le (size - 1))
  rw [readString, take_hit hg (by decide)]
  simp only [readStringBody, show ({} : Buffer) = ⟨utf8 [], false⟩ from rfl, hread]
  rfl

theorem fitting_self (h : (utf8 letters).length ≤ room) : fitting room letters = letters := by
  induction letters generalizing room with
  | nil => rfl
  | cons c _ ih =>
    rw [← singleton_append, utf8_append, utf8_singleton, length_append] at h
    rw [fitting, if_pos (by omega), ih (by omega)]

theorem fitting_prefix (room : Nat) (letters : List Char) : fitting room letters <+: letters := by
  induction letters generalizing room with
  | nil => exact nil_prefix
  | cons c _ ih =>
    rw [fitting]
    split
    · exact (prefix_cons_inj c).mpr (ih _)
    · exact nil_prefix

theorem fitting_length (room : Nat) (letters : List Char) :
    (utf8 (fitting room letters)).length ≤ room := by
  induction letters generalizing room with
  | nil => exact Nat.zero_le _
  | cons c _ ih =>
    rw [fitting]
    split
    next hfit =>
      have := ih (room - (String.utf8EncodeChar c).length)
      rw [← singleton_append, utf8_append, utf8_singleton, length_append]
      omega
    · exact Nat.zero_le _

/-- Whatever its buffer, a string is read up to its end. What is written is the characters of it
that fit, each of them whole, with room for a terminator. -/
theorem readString_cut (rest : Bytes) (b : Bool) (h : Glyphs letters text) (hsize : 0 < size) :
    ∃ front, front <+: letters ∧
      readString ⟨quote :: (text ++ quote :: rest), b⟩ size = (some (utf8 front), ⟨rest, b⟩) ∧
      (utf8 front ++ [0]).length ≤ size ∧ utf8 front <+: utf8 letters ∧
      ((utf8 letters ++ [0]).length ≤ size → front = letters) := by
  have hlength := fitting_length (size - 1) letters
  refine ⟨fitting (size - 1) letters, fitting_prefix _ _, readString_glyphs rest .nil h size,
    ?_, ?_, ?_⟩
  · rw [length_append, length_singleton]
    omega
  · obtain ⟨more, hmore⟩ := fitting_prefix (size - 1) letters
    exact ⟨utf8 more, by rw [← utf8_append, hmore]⟩
  · intro hfit
    rw [length_append, length_singleton] at hfit
    exact fitting_self (by omega)

theorem readString_cut_accent : Glyphs ['é'] [0xC3, 0xA9] ∧ ∃ front, front <+: ['é'] ∧
    readString ⟨[quote, 0xC3, 0xA9, quote], false⟩ 2 = (some (utf8 front), ⟨[], false⟩) := by
  have hglyphs : Glyphs ['é'] [0xC3, 0xA9] := .cons (.raw (by decide) (by decide)) .nil
  obtain ⟨front, hfront, hread, -⟩ := readString_cut [] false hglyphs (show 0 < 2 by decide)
  exact ⟨hglyphs, front, hfront, hread⟩

theorem decimal_cons (n : Nat) (c : UInt8) (digits : Bytes) :
    decimal n (c :: digits) = decimal (n * 10 + (c.toNat - '0'.toNat)) digits := by
  rw [decimal, foldl_cons, ← decimal]

theorem decimal_ge (n : Nat) (digits : Bytes) : n ≤ decimal n digits := by
  induction digits generalizing n with
  | nil => exact le_rfl
  | cons c _ ih =>
    have := ih (n * 10 + (c.toNat - '0'.toNat))
    rw [decimal_cons]
    omega

theorem digit_plain : ∀ c : UInt8, digit c → space c = false ∧ delimiter c = false ∧
    c ∉ [0, quote, openBrace, openBracket, closeBracket] :=
  forall_byte (by decide +kernel)

theorem digit_iff (c : UInt8) : digit c ↔ '0'.toUInt8 ≤ c ∧ c ≤ '9'.toUInt8 := by
  rw [digit, Bool.and_eq_true, decide_eq_true_eq, decide_eq_true_eq]

theorem digit_value (c : UInt8) : c.toNat - '0'.toNat ≤ uint64Max := by
  have hmax : uint64Max = 2 ^ 64 - 1 := rfl
  have := c.toNat_lt
  omega

theorem Follows.no_digit (h : Follows rest) : ∀ c ∈ rest.head?, digit c = false := by
  intro c hc
  cases hd : digit c with
  | false => rfl
  | true =>
    have hdelim := h c hc
    rw [(digit_plain c hd).2.1] at hdelim
    cases hdelim

theorem digitsFrom_digits (all : ∀ c ∈ digits, digit c)
    (hrest : ∀ c ∈ rest.head?, digit c = false) (hvalue : decimal n digits ≤ uint64Max) :
    digitsFrom n (digits ++ rest) = (some (decimal n digits), rest) := by
  induction digits generalizing n with
  | nil =>
    cases rest with
    | nil => rfl
    | cons c =>
      have hc : ¬('0'.toUInt8 ≤ c ∧ c ≤ '9'.toUInt8) := by
        rw [← digit_iff, hrest c rfl]
        exact Bool.false_ne_true
      rw [nil_append, digitsFrom, if_neg hc]
      rfl
  | cons c digits ih =>
    have hc := (digit_iff c).mp (all c (mem_cons_self))
    have hstep := decimal_ge (n * 10 + (c.toNat - '0'.toNat)) digits
    rw [decimal_cons] at hvalue
    have hroom : ¬n > (uint64Max - (c.toNat - '0'.toNat)) / 10 := by omega
    rw [cons_append, digitsFrom, if_pos hc]
    simp only [if_neg hroom]
    rw [ih (fun d hd => all d (mem_cons_of_mem _ hd)) hvalue, decimal_cons]

theorem digitsFrom_over (all : ∀ c ∈ digits, digit c) (hn : n ≤ uint64Max)
    (hvalue : uint64Max < decimal n digits) : ∃ left, left.length ≤ (digits ++ rest).length ∧
      digitsFrom n (digits ++ rest) = (none, left) := by
  induction digits generalizing n with
  | nil => exact absurd hvalue (not_lt.mpr hn)
  | cons c _ ih =>
    have hc := (digit_iff c).mp (all c (mem_cons_self))
    rw [decimal_cons] at hvalue
    rw [cons_append, digitsFrom, if_pos hc]
    by_cases hroom : n > (uint64Max - (c.toNat - '0'.toNat)) / 10
    · exact ⟨_, le_rfl, if_pos hroom⟩
    · have hdigit := digit_value c
      obtain ⟨left, hlength, hleft⟩ :=
        ih (fun d hd => all d (mem_cons_of_mem _ hd)) (by omega) hvalue
      exact ⟨left, Nat.le_succ_of_le hlength, by simp only [if_neg hroom, hleft]⟩

theorem readU64_digit (hc : digit c) :
    readU64 ⟨c :: text, b⟩ =
      ((digitsFrom (c.toNat - '0'.toNat) text).1,
        ⟨(digitsFrom (c.toNat - '0'.toNat) text).2, b⟩) := by
  have hpeek : peek ⟨c :: text, b⟩ = (c, ⟨c :: text, b⟩) := peek_on .nil (digit_plain c hc).1
  have hbyte := (digit_iff c).mp hc
  have hrange : ¬(c < '0'.toUInt8 ∨ c > '9'.toUInt8) := by grind
  have hfirst : ¬0 > (uint64Max - (c.toNat - '0'.toNat)) / 10 := Nat.not_lt_zero _
  simp only [readU64, hpeek, if_neg hrange, digitsFrom, if_pos hbyte, if_neg hfirst,
    zero_mul, zero_add]

def Digits (text : Bytes) : Prop := text ≠ [] ∧ ∀ c ∈ text, digit c

theorem readU64_whole (h : Digits whole) (htail : ∀ c ∈ tail.head?, digit c = false) :
    (decimal 0 whole ≤ uint64Max →
        readU64 ⟨whole ++ tail, b⟩ = (some (decimal 0 whole), ⟨tail, b⟩)) ∧
      (uint64Max < decimal 0 whole → (readU64 ⟨whole ++ tail, b⟩).1 = none) := by
  obtain ⟨hne, hall⟩ := h
  obtain ⟨c, digits, rfl⟩ := exists_cons_of_ne_nil hne
  have hrest : ∀ d ∈ digits, digit d := fun d hd => hall d (mem_cons_of_mem _ hd)
  rw [cons_append, readU64_digit (hall c (mem_cons_self)), decimal_cons, zero_mul, zero_add]
  constructor
  · intro hfits
    rw [digitsFrom_digits hrest htail hfits]
  · intro hover
    obtain ⟨_, -, hleft⟩ := digitsFrom_over hrest (digit_value c) hover
    rw [hleft]

theorem readString_other (hc : space c = false) (hq : c ≠ quote) :
    readString ⟨c :: text, b⟩ size = (none, ⟨c :: text, b⟩) := by
  rw [readString, show c :: text = [] ++ c :: text from rfl, take_miss .nil hc hq]
  rfl

theorem readU64_other (hc : space c = false) (hd : digit c = false) :
    readU64 ⟨c :: text, b⟩ = (none, ⟨c :: text, b⟩) := by
  have hpeek : peek ⟨c :: text, b⟩ = (c, ⟨c :: text, b⟩) := peek_on .nil hc
  have hrange : c < '0'.toUInt8 ∨ c > '9'.toUInt8 := by
    have := (digit_iff c).not.mp (by simp [hd])
    grind
  simp only [readU64, hpeek, if_pos hrange]

def plain (c : UInt8) : Bool := !delimiter c && !decide (c ∈ [0, quote, openBrace, openBracket])

/-- Something without a delimiter in it that is neither a string nor a container. -/
def Word (text : Bytes) : Prop := text ≠ [] ∧ ∀ c ∈ text, plain c

theorem plain_not : ∀ c : UInt8, plain c → delimiter c = false ∧ space c = false ∧
    c ≠ 0 ∧ c ≠ quote ∧ c ≠ openBrace ∧ c ≠ openBracket :=
  forall_byte (by decide +kernel)

theorem skipValue_word (h : Word text) (hrest : Follows rest) :
    skipValue ⟨text ++ rest, b⟩ = (true, ⟨rest, b⟩) := by
  have hstop : rest.dropWhile (fun c => !delimiter c) = rest := by
    cases rest with
    | nil => rfl
    | cons c => exact dropWhile_cons_of_neg (by simp [hrest c rfl])
  have hskip : (text ++ rest).dropWhile (fun c => !delimiter c) = rest := by
    rw [dropWhile_append_of_pos (fun c hc => by simp [(plain_not c (h.2 c hc)).1]), hstop]
  obtain ⟨c, tail, rfl⟩ := exists_cons_of_ne_nil h.1
  obtain ⟨-, hspace, hzero, hquote, hopen⟩ := plain_not c (h.2 c (mem_cons_self))
  have hpeek : peek ⟨c :: tail ++ rest, b⟩ = (c, ⟨c :: tail ++ rest, b⟩) := peek_on .nil hspace
  simp only [skipValue, hpeek, hskip, hzero, hquote, if_false]
  exact if_pos hopen

theorem nextMember_close (hg : Blank gap) (hs : space close = false) :
    nextMember ⟨gap ++ close :: text, first⟩ close = (false, ⟨text, false⟩) := by
  rw [nextMember, take_hit hg hs]

theorem nextMember_lead (h : Lead first lead) (hs : space c = false) (hc : c ≠ close)
    (hcomma : comma ≠ close) : ∃ gap, Blank gap ∧
      nextMember ⟨lead ++ c :: text, first⟩ close = (true, ⟨gap ++ c :: text, false⟩) := by
  cases h with
  | first hgap =>
    refine ⟨[], .nil, ?_⟩
    rw [nextMember, take_miss hgap hs hc]
    rfl
  | comma hbefore hafter =>
    refine ⟨_, hafter, ?_⟩
    have hsep (text : Bytes) : take ⟨comma :: text, false⟩ comma = (true, ⟨text, false⟩) :=
      take_hit .nil (by decide)
    rw [append_assoc, cons_append, nextMember, take_miss hbefore (by decide) hcomma]
    simp only [Bool.false_eq_true, if_false, hsep, if_true]

theorem nextKey_close (hg : Blank gap) :
    nextKey ⟨gap ++ closeBrace :: text, first⟩ size = (none, ⟨text, false⟩) := by
  rw [nextKey, nextMember_close hg (by decide)]

theorem nextKey_glyphs (rest : Bytes) (hlead : Lead first lead) (h : Glyphs letters text)
    (hgap : Blank gap) (size : Nat) :
    nextKey ⟨lead ++ quote :: (text ++ quote :: (gap ++ colon :: rest)), first⟩ size =
      (some (utf8 (fitting (size - 1) letters)), ⟨rest, false⟩) := by
  obtain ⟨_, hgap', hnext⟩ := nextMember_lead
    hlead (show space quote = false by decide) (show quote ≠ closeBrace by decide) (by decide)
  have hread := readString_glyphs (b := false) (gap ++ colon :: rest) hgap' h size
  rw [readString, take_hit hgap' (by decide)] at hread
  rw [nextKey, hnext]
  simp only [take_hit hgap' (show space quote = false by decide), hread,
    take_hit hgap (show space colon = false by decide)]

theorem follows_gap (hg : Blank gap) (hc : delimiter c) : Follows (gap ++ c :: rest) := by
  intro d hd
  cases gap with
  | nil =>
    cases hd
    exact hc
  | cons =>
    cases hd
    simp [delimiter, hg d (mem_cons_self)]

theorem Lead.follows (h : Lead false lead) : Follows (lead ++ rest) := by
  cases h with
  | comma hbefore =>
    rw [append_assoc, cons_append]
    exact follows_gap hbefore (by decide)

end Inkwell.Json
