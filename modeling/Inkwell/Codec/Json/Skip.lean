import Inkwell.Codec.Json.Token

namespace Inkwell.Json
open Http Library List

/-- Every `\u` up to the closing quote has its four hex digits. -/
@[grind =] def WholeCodes : Bytes → Prop
  | [] => True
  | c :: text =>
    if c = quote then True
    else if c ≠ backslash then WholeCodes text
    else
      match text with
      | [] => True
      | e :: text =>
        if e ≠ 'u'.toUInt8 then WholeCodes text
        else
          match text with
          | c₁ :: c₂ :: c₃ :: c₄ :: rest => hex4 c₁ c₂ c₃ c₄ ≠ none ∧ WholeCodes rest
          | _ => False

theorem hexDigit_plain : ∀ c : UInt8, hexDigit c ≠ none → c ≠ quote ∧ c ≠ backslash :=
  forall_byte (by decide +kernel)

theorem skipStringBody_plain (hq : c ≠ quote) (hb : c ≠ backslash) :
    skipStringBody (c :: text) = skipStringBody text := by
  rw [skipStringBody.eq_def]
  simp [hq, hb]

theorem skipStringBody_escape : skipStringBody (backslash :: e :: text) = skipStringBody text := by
  rw [skipStringBody.eq_def]
  simp [show backslash ≠ quote by decide]

theorem skipStringBody_hex4 (h : hex4 c₁ c₂ c₃ c₄ = some value) :
    skipStringBody (c₁ :: c₂ :: c₃ :: c₄ :: rest) = skipStringBody rest := by
  simp only [hex4, Option.bind_eq_bind, Option.bind_eq_some_iff] at h
  obtain ⟨_, h₁, _, h₂, _, h₃, _, h₄, -⟩ := h
  have hplain {c d} (h : hexDigit c = some d) := hexDigit_plain c (h ▸ (by simp))
  rw [skipStringBody_plain (hplain h₁).1 (hplain h₁).2,
    skipStringBody_plain (hplain h₂).1 (hplain h₂).2,
    skipStringBody_plain (hplain h₃).1 (hplain h₃).2,
    skipStringBody_plain (hplain h₄).1 (hplain h₄).2]

theorem stringFrom_ends : (∃ s, stringFrom room out text = (some s, rest)) ↔
      skipStringBody text = (true, rest) ∧ WholeCodes text := by
  fun_induction stringFrom room out text with
  | case1 => simp [skipStringBody]
  | case2 _ text => simp [skipStringBody.eq_def (quote :: text), WholeCodes.eq_def (quote :: text)]
  | case3 _ c text hq hb ih =>
    rw [ih, skipStringBody_plain hq hb, WholeCodes.eq_def (c :: text)]
    simp [hq, hb]
  | case4 _ c hq => simp [skipStringBody, hq]
  | case5 _ c hq hb e text he ih =>
    cases Classical.not_not.mp hb
    rw [ih, skipStringBody_escape, WholeCodes.eq_def (backslash :: e :: text)]
    simp [hq, he]
  | case6 _ c hq hb e he _ _ _ _ _ hnone =>
    rw [WholeCodes.eq_def (c :: _)]
    simp [hq, hb, he, hnone]
  | case7 _ c hq hb e he _ _ _ _ _ _ hvalue ih =>
    cases Classical.not_not.mp hb
    rw [ih, skipStringBody_escape, skipStringBody_hex4 hvalue, WholeCodes.eq_def (backslash :: _)]
    simp [hq, he, hvalue]
  | case8 _ c hq hb e _ he =>
    rw [WholeCodes.eq_def (c :: _)]
    simp only [hq, hb, he, if_false, and_false, iff_false]
    exact nofun

theorem suffix_after (h : rest <:+ text) : rest <:+ c :: text := h.trans (suffix_cons c text)

theorem stringFrom_suffix (room : Nat) (out : Buffer) (text : Bytes) :
    (stringFrom room out text).2 <:+ text := by
  fun_induction stringFrom room out text
  case case1 | case4 => exact nil_suffix
  case case2 => exact suffix_cons ..
  case case3 ih => exact suffix_after ih
  case case5 ih => exact suffix_after (suffix_after ih)
  case case6 | case8 => exact suffix_after (suffix_cons ..)
  case case7 ih => exact ih.trans (suffix_append [_, _, _, _, _, _] _)

theorem skipSpace_idem : skipSpace (skipSpace text) = skipSpace text :=
  dropWhile_idempotent space text

def Cursor.onValue (json : Cursor) : Cursor := { json with text := skipSpace json.text }

theorem peek_onValue : peek json.onValue = peek json := by
  simp only [peek, Cursor.onValue, skipSpace_idem]

theorem readString_onValue (json : Cursor) (size : Nat) :
    readString json.onValue size = readString json size := by
  simp only [readString, take, peek_onValue]

theorem readU64_onValue (json : Cursor) : readU64 json.onValue = readU64 json := by
  simp only [readU64, peek_onValue]

theorem skipValue_onValue (json : Cursor) : skipValue json.onValue = skipValue json := by
  simp only [skipValue, peek_onValue]

theorem readBool_onValue (json : Cursor) : readBool json.onValue = readBool json := by
  simp only [readBool, peek_onValue]

theorem readString_quote (h : json.onValue.text = quote :: body) :
    readString json size = ((stringFrom (size - 1) {} body).1,
      { json with text := (stringFrom (size - 1) {} body).2 }) := by
  have htext : skipSpace json.text = quote :: body := h
  simp [readString, take, peek, readStringBody, htext]

theorem readString_none (h : ∀ body, json.onValue.text ≠ quote :: body) :
    readString json size = (none, json.onValue) := by
  have hhead : (skipSpace json.text).headD 0 ≠ quote := by
    intro hhead
    cases htext : skipSpace json.text with
    | nil =>
      rw [htext] at hhead
      cases hhead
    | cons c body =>
      rw [htext] at hhead
      exact h body (htext.trans (congrArg (· :: body) hhead))
  have htake : take json quote = (false, json.onValue) := if_pos hhead
  rw [readString, htake]

theorem skipValue_quote (h : json.onValue.text = quote :: t) :
    skipValue json = ((skipStringBody t).1, { json with text := (skipStringBody t).2 }) := by
  have htext : skipSpace json.text = quote :: t := h
  simp [skipValue, peek, htext, show quote ≠ 0 by decide]

/-- A string that is read is also passed over, to the same place; one that is passed over is also
read if its codes are whole. -/
theorem readString_skips (json : Cursor) (size : Nat) :
    (∀ out json', readString json size = (some out, json') → skipValue json = (true, json')) ∧
      ∀ body json', json.onValue.text = quote :: body → WholeCodes body →
        skipValue json = (true, json') → ∃ out, readString json size = (some out, json') := by
  constructor
  · intro out _ hread
    by_cases hquote : ∃ body, json.onValue.text = quote :: body
    · obtain ⟨_, hbody⟩ := hquote
      rw [readString_quote hbody, Prod.mk.injEq] at hread
      obtain ⟨hsome, rfl⟩ := hread
      have hends := stringFrom_ends.mp ⟨out, Prod.ext hsome rfl⟩
      rw [skipValue_quote hbody, hends.1]
    · rw [readString_none fun body hbody => hquote ⟨body, hbody⟩] at hread
      cases hread
  · intro _ _ hbody hwhole hskip
    rw [skipValue_quote hbody, Prod.mk.injEq] at hskip
    obtain ⟨htrue, rfl⟩ := hskip
    obtain ⟨s, hs⟩ := stringFrom_ends.mpr ⟨Prod.ext htrue rfl, hwhole⟩
    exact ⟨s, by rw [readString_quote hbody, hs]⟩

/-- A string under the cursor ends and has its codes whole, and a number under it has at most 64
bits. -/
def Cursor.Readable (json : Cursor) : Prop :=
  (∀ body, json.onValue.text = quote :: body → (skipStringBody body).1 ∧ WholeCodes body) ∧
    decimal 0 (json.onValue.text.takeWhile digit) ≤ uint64Max

theorem readString_keeps :
    ((readString json size).1 = none → (readString json size).2 = json.onValue) ↔
      ∀ body, json.onValue.text = quote :: body → (skipStringBody body).1 ∧ WholeCodes body := by
  constructor
  · intro hkeeps body hbody
    cases hsome : (stringFrom (size - 1) {} body).1 with
    | some out =>
      obtain ⟨hskip, hwhole⟩ := stringFrom_ends.mp ⟨out, Prod.ext hsome rfl⟩
      exact ⟨congrArg Prod.fst hskip, hwhole⟩
    | none =>
      rw [readString_quote hbody] at hkeeps
      have hmoved : (stringFrom (size - 1) {} body).2 = json.onValue.text :=
        congrArg Cursor.text (hkeeps hsome)
      have hlength := (stringFrom_suffix (size - 1) {} body).length_le
      rw [hmoved, hbody, length_cons] at hlength
      omega
  · intro hends hnone
    by_cases hquote : ∃ body, json.onValue.text = quote :: body
    · obtain ⟨body, hbody⟩ := hquote
      obtain ⟨hskip, hwhole⟩ := hends body hbody
      obtain ⟨s, hs⟩ := stringFrom_ends.mpr ⟨Prod.ext hskip rfl, hwhole⟩
      rw [readString_quote hbody, hs] at hnone
      cases hnone
    · rw [readString_none fun body hbody => hquote ⟨body, hbody⟩]

theorem readU64_keeps : ((readU64 json).1 = none → (readU64 json).2 = json.onValue) ↔
      decimal 0 (json.onValue.text.takeWhile digit) ≤ uint64Max := by
  rw [← readU64_onValue]
  have hspace : ∀ c tail, json.onValue.text = c :: tail → space c = false := by
    intro c _ htext
    exact head_dropWhile json.text c (congrArg List.head? htext)
  generalize json.onValue = json at hspace ⊢
  obtain ⟨text, _⟩ := json
  cases text with
  | nil => exact ⟨fun _ => Nat.zero_le _, fun _ _ => rfl⟩
  | cons c tail =>
    cases hdigit : digit c with
    | false =>
      rw [readU64_other (hspace c tail rfl) hdigit, takeWhile_cons_of_neg (by simp [hdigit])]
      exact ⟨fun _ => Nat.zero_le _, fun _ _ => rfl⟩
    | true =>
      have hall : ∀ d ∈ tail.takeWhile digit, digit d = true := fun d hd => mem_takeWhile_imp hd
      have hsplit : tail = tail.takeWhile digit ++ tail.dropWhile digit :=
        (takeWhile_append_dropWhile ..).symm
      rw [readU64_digit hdigit, takeWhile_cons_of_pos hdigit, decimal_cons, Nat.zero_mul,
        Nat.zero_add]
      constructor
      · intro hkeeps
        by_contra hover
        obtain ⟨left, hlength, hleft⟩ := digitsFrom_over hall (digit_value c)
          (Nat.lt_of_not_le hover)
        rw [← hsplit] at hlength hleft
        rw [hleft] at hkeeps
        have hmoved : left = c :: tail := congrArg Cursor.text (hkeeps rfl)
        rw [hmoved, length_cons] at hlength
        omega
      · intro hfits hnone
        rw [hsplit, digitsFrom_digits hall (head_dropWhile tail) hfits] at hnone
        cases hnone

/-- A read that fails leaves the cursor on the value, and whatever comes next does as it would
have, if and only if what is under the cursor is `Readable`. -/
theorem failed_reads_keep (json : Cursor) :
    ((∀ size, (readString json size).1 = none → (readString json size).2 = json.onValue) ∧
        ((readU64 json).1 = none → (readU64 json).2 = json.onValue) ∧
        ((readBool json).1 = none → (readBool json).2 = json.onValue) ↔ json.Readable) ∧
      skipValue json.onValue = skipValue json ∧
      (∀ size, readString json.onValue size = readString json size) ∧
      readU64 json.onValue = readU64 json ∧ readBool json.onValue = readBool json := by
  refine ⟨⟨?_, ?_⟩, skipValue_onValue json, readString_onValue json, readU64_onValue json,
    readBool_onValue json⟩
  · rintro ⟨hstring, hnumber, -⟩
    exact ⟨readString_keeps.mp (hstring 0), readU64_keeps.mp hnumber⟩
  · rintro ⟨hstring, hnumber⟩
    refine ⟨fun size => readString_keeps.mpr hstring, readU64_keeps.mpr hnumber, ?_⟩
    simp only [readBool]
    split
    · exact nofun
    split
    · exact nofun
    · exact fun _ => rfl

/-- A number of more than 64 bits is given up in front of its last digit. -/
theorem overflow_moves_cursor :
    readU64 ⟨ascii "18446744073709551616,", false⟩ = (none, ⟨ascii "6,", false⟩) ∧
      ¬Cursor.Readable ⟨ascii "18446744073709551616,", false⟩ := by
  refine ⟨by decide, fun h => absurd h.2 (by decide)⟩

inductive Fraction : Bytes → Prop
  | none : Fraction []
  | some (h : Digits text) : Fraction ('.'.toUInt8 :: text)

inductive Exponent : Bytes → Prop
  | none : Exponent []
  | some (letter : e ∈ ascii "eE") (sign_ok : sign ∈ [[], ascii "+", ascii "-"]) (h : Digits text) :
      Exponent (e :: (sign ++ text))

structure Number where
  negative : Bool
  whole : Bytes
  fraction : Bytes
  exponent : Bytes
  whole_ok : Digits whole
  fraction_ok : Fraction fraction
  exponent_ok : Exponent exponent

def Number.text (n : Number) : Bytes :=
  (if n.negative then ascii "-" else []) ++ (n.whole ++ (n.fraction ++ n.exponent))

def Number.Natural (n : Number) : Prop :=
  n.negative = false ∧ n.fraction = [] ∧ n.exponent = [] ∧ decimal 0 n.whole ≤ uint64Max

theorem plain_digit : ∀ c : UInt8, digit c → plain c := forall_byte (by decide +kernel)

theorem plain_sign : ∀ text ∈ [[], ascii "+", ascii "-"], ∀ c ∈ text, plain c := by decide +kernel

theorem plain_letter : ∀ c ∈ ascii "eE", plain c ∧ digit c = false := by decide +kernel

theorem Fraction.plain (h : Fraction text) : ∀ c ∈ text, plain c := by
  cases h with
  | none => exact nofun
  | some h =>
    rintro c (_ | ⟨_, hc⟩)
    · rfl
    · exact plain_digit c (h.2 c hc)

theorem Exponent.plain (h : Exponent text) : ∀ c ∈ text, plain c := by
  cases h with
  | none => exact nofun
  | @some e sign _ letter sign_ok h =>
    rintro c (_ | ⟨_, hc⟩)
    · exact (plain_letter e letter).1
    · rcases mem_append.mp hc with hc | hc
      · exact plain_sign sign sign_ok c hc
      · exact plain_digit c (h.2 c hc)

theorem Number.word (n : Number) : Word n.text := by
  refine ⟨by simp [Number.text, n.whole_ok.1], ?_⟩
  intro c hc
  simp only [Number.text, mem_append] at hc
  rcases hc with hc | hc | hc | hc
  · refine plain_sign _ ?_ c hc
    split <;> simp
  · exact plain_digit c (n.whole_ok.2 c hc)
  · exact n.fraction_ok.plain c hc
  · exact n.exponent_ok.plain c hc

theorem no_digit_behind (hfraction : Fraction fraction) (hexponent : Exponent exponent)
    (hrest : Follows rest) : ∀ c ∈ (fraction ++ (exponent ++ rest)).head?, digit c = false := by
  cases hfraction with
  | some =>
    rintro c ⟨⟩
    rfl
  | none =>
    cases hexponent with
    | some letter =>
      rintro c ⟨⟩
      exact (plain_letter _ letter).2
    | none => exact hrest.no_digit

theorem readU64_sign (text : Bytes) (b : Bool) : (readU64 ⟨ascii "-" ++ text, b⟩).1 = none := by
  have hread : readU64 ⟨ascii "-" ++ text, b⟩ = (none, ⟨ascii "-" ++ text, b⟩) :=
    readU64_other (by decide) (by decide)
  rw [hread]

/-- The reader and the skipper agree on a number, and the reader takes none but `Natural` ones, if
and only if the number has no part behind its digits, or is given up for its sign or its size. -/
theorem readU64_number_iff (n : Number) (hrest : Follows rest) (b : Bool) :
    (((readU64 ⟨n.text ++ rest, b⟩).1 ≠ none ↔ n.Natural) ∧
        (n.Natural → readU64 ⟨n.text ++ rest, b⟩ = (some (decimal 0 n.whole), ⟨rest, b⟩)) ∧
        skipValue ⟨n.text ++ rest, b⟩ = (true, ⟨rest, b⟩)) ↔
      (n.fraction = [] ∧ n.exponent = []) ∨ n.negative ∨ uint64Max < decimal 0 n.whole := by
  have hskip := skipValue_word (b := b) n.word hrest
  have hbehind := no_digit_behind n.fraction_ok n.exponent_ok hrest
  obtain ⟨hfits, hover⟩ := readU64_whole (b := b) n.whole_ok hbehind
  cases hnegative : n.negative with
  | true =>
    have hnone : (readU64 ⟨n.text ++ rest, b⟩).1 = none := by
      rw [Number.text, hnegative, if_pos rfl, append_assoc]
      exact readU64_sign _ b
    have hnot : ¬n.Natural := fun h => nomatch hnegative.symm.trans h.1
    simp [hnone, hnot, hskip]
  | false =>
    have htext : n.text ++ rest = n.whole ++ (n.fraction ++ (n.exponent ++ rest)) := by
      simp [Number.text, hnegative]
    rw [htext] at hskip ⊢
    by_cases hsize : uint64Max < decimal 0 n.whole
    · have hnot : ¬n.Natural := fun h => absurd h.2.2.2 (not_le.mpr hsize)
      simp [hover hsize, hnot, hskip, hsize]
    · have hread := hfits (le_of_not_gt hsize)
      rw [hread]
      constructor
      · rintro ⟨hnatural, -⟩
        obtain ⟨-, hfraction, hexponent, -⟩ := hnatural.mp nofun
        exact .inl ⟨hfraction, hexponent⟩
      · rintro (⟨hfraction, hexponent⟩ | hnot | hnot)
        · have hnatural : n.Natural := ⟨hnegative, hfraction, hexponent, le_of_not_gt hsize⟩
          refine ⟨iff_of_true nofun hnatural, fun _ => ?_, hskip⟩
          rw [hfraction, hexponent]
          rfl
        · cases hnot
        · exact absurd hnot hsize

def seven : Number := ⟨false, ascii "7", [], [], ⟨nofun, by decide +kernel⟩, .none, .none⟩

theorem readU64_number_iff_seven : readU64 ⟨ascii "7,", false⟩ = (some 7, ⟨ascii ",", false⟩) :=
  ((readU64_number_iff seven (show Follows (ascii ",") by decide +kernel) false).mpr
    (.inl ⟨rfl, rfl⟩)).2.1
    ⟨rfl, rfl, rfl, by decide⟩

/-- The reader takes the digits in front of a fraction for the number. -/
theorem fraction_left_behind :
    readU64 ⟨ascii "1.5,", false⟩ = (some 1, ⟨ascii ".5,", false⟩) ∧
      skipValue ⟨ascii "1.5,", false⟩ = (true, ⟨ascii ",", false⟩) := by
  decide

inductive Body : Bytes → Prop
  | nil : Body []
  | plain (hq : c ≠ quote) (hb : c ≠ backslash) (h : Body text) : Body (c :: text)
  | escape (c : UInt8) (h : Body text) : Body (backslash :: c :: text)

inductive Label : UInt8 → Bytes → Prop
  | element : Label closeBracket []
  | key (h : Body text) (before : Blank gap) (after : Blank gap') :
      Label closeBrace (quote :: (text ++ quote :: (gap ++ colon :: gap')))

inductive Part where
  | value
  | items (close : UInt8) (first : Bool)

/-- The texts of values, and of what is left of a container, with how deep they nest. -/
inductive Written : Part → Nat → Bytes → Prop
  | string (h : Body text) : Written .value 0 (quote :: (text ++ [quote]))
  | number (n : Number) : Written .value 0 n.text
  | word (h : text ∈ [ascii "true", ascii "false", ascii "null"]) : Written .value 0 text
  | object (h : Written (.items closeBrace true) n text) : Written .value (n + 1)
      (openBrace :: text)
  | array (h : Written (.items closeBracket true) n text) : Written .value (n + 1)
      (openBracket :: text)
  | close (h : Blank gap) : Written (.items close first) 0 (gap ++ [close])
  | item (lead_ok : Lead first lead) (label_ok : Label close label)
      (value_ok : Written .value n text)
      (more_ok : Written (.items close false) m more) :
      Written (.items close first) (max n m) (lead ++ (label ++ (text ++ more)))

/-- On from a depth that has been reached, 0 being that of the value itself. -/
def resume (fuel depth : Nat) (text : Bytes) : Bool × Bytes :=
  if depth = 0 then (true, text) else skipNested fuel depth text

def Leads (depth : Nat) (text : Bytes) (depth' : Nat) : Prop :=
  ∀ fuel rest, (text ++ rest).length < fuel → ∃ fuel', rest.length < fuel' ∧
    skipNested fuel depth (text ++ rest) = resume fuel' depth' rest

def Refuses (depth : Nat) (text : Bytes) : Prop :=
  ∀ fuel rest, (text ++ rest).length < fuel → (skipNested fuel depth (text ++ rest)).1 = false

theorem Leads.trans (h : Leads d text d') (hd : d' ≠ 0) (h' : Leads d' more d'') :
    Leads d (text ++ more) d'' := by
  intro fuel rest hfuel
  rw [append_assoc] at hfuel ⊢
  obtain ⟨fuel', hfuel', hskip⟩ := h fuel (more ++ rest) hfuel
  rw [hskip, resume, if_neg hd]
  exact h' fuel' rest hfuel'

theorem Leads.refuses (h : Leads d text d') (hd : d' ≠ 0) (h' : Refuses d' more) :
    Refuses d (text ++ more) := by
  intro fuel rest hfuel
  rw [append_assoc] at hfuel ⊢
  obtain ⟨fuel', hfuel', hskip⟩ := h fuel (more ++ rest) hfuel
  rw [hskip, resume, if_neg hd]
  exact h' fuel' rest hfuel'

theorem Refuses.append (h : Refuses d text) (more : Bytes) : Refuses d (text ++ more) := by
  intro fuel rest hfuel
  rw [append_assoc] at hfuel ⊢
  exact h fuel (more ++ rest) hfuel

theorem leads_byte (h : ∀ fuel text, skipNested (fuel + 1) d (c :: text) = resume fuel d' text) :
    Leads d [c] d' := by
  intro fuel rest hfuel
  obtain ⟨fuel, rfl⟩ := Nat.exists_eq_add_one.mpr (Nat.zero_lt_of_lt hfuel)
  exact ⟨fuel, Nat.lt_of_succ_lt_succ hfuel, h fuel rest⟩

def inert (c : UInt8) : Bool :=
  decide (c ∉ [quote, openBrace, openBracket, closeBrace, closeBracket])

theorem leads_inert (h : ∀ c ∈ t, inert c) (hd : d ≠ 0) : Leads d t d := by
  induction t with
  | nil => exact fun fuel rest hfuel => ⟨fuel, hfuel, (if_neg hd).symm⟩
  | cons c t ih =>
    have hc := h c (mem_cons_self)
    simp only [inert, mem_cons, not_mem_nil, or_false, not_or, decide_eq_true_eq] at hc
    refine (leads_byte fun fuel text => ?_).trans hd (ih fun d hd => h d (mem_cons_of_mem _ hd))
    rw [skipNested]
    simp only [hc, if_false, or_self, resume, hd]

theorem skipStringBody_body (h : Body text) (rest : Bytes) :
    skipStringBody (text ++ quote :: rest) = (true, rest) := by
  induction h with
  | nil => simp [skipStringBody.eq_def]
  | plain hq hb _ ih => rw [cons_append, skipStringBody_plain hq hb, ih]
  | escape c _ ih => rw [cons_append, cons_append, skipStringBody_escape, ih]

theorem leads_string (h : Body text) (hd : d ≠ 0) : Leads d (quote :: (text ++ [quote])) d := by
  intro fuel _ hfuel
  obtain ⟨fuel, rfl⟩ := Nat.exists_eq_add_one.mpr (Nat.zero_lt_of_lt hfuel)
  simp only [cons_append, length_cons, append_assoc, length_append] at hfuel
  refine ⟨fuel, by omega, ?_⟩
  rw [cons_append, append_assoc, singleton_append, skipNested, if_pos rfl,
    skipStringBody_body h, resume, if_neg hd]

theorem skipNested_open (hc : c = openBrace ∨ c = openBracket) :
    skipNested (fuel + 1) d (c :: text) =
      if d + 1 > maxDepth then (false, text) else skipNested fuel (d + 1) text := by
  have hquote : c ≠ quote := by rcases hc with rfl | rfl <;> decide
  rw [skipNested, if_neg hquote, if_pos hc]

theorem skipNested_close (hc : c = closeBrace ∨ c = closeBracket) (hd : d < maxDepth) (fuel : Nat)
    (text : Bytes) : skipNested (fuel + 1) (d + 1) (c :: text) = resume fuel d text := by
  have hquote : c ≠ quote := by rcases hc with rfl | rfl <;> decide
  have hopen : ¬(c = openBrace ∨ c = openBracket) := by rcases hc with rfl | rfl <;> decide
  have hpred : sizePred (d + 1) = d := by
    simp only [sizePred, maxDepth] at hd ⊢
    omega
  rw [skipNested, if_neg hquote, if_neg hopen, if_pos hc, hpred]
  rfl

theorem inert_blank (h : Blank gap) : ∀ c ∈ gap, inert c := by
  have hall : ∀ c : UInt8, space c = true → inert c = true := forall_byte (by decide +kernel)
  exact fun c hc => hall c (h c hc)

theorem leads_comma (h : Lead first lead) (hd : d ≠ 0) : Leads d lead d := by
  cases h with
  | first h => exact leads_inert (inert_blank h) hd
  | comma before after =>
    refine (leads_inert (inert_blank before) hd).trans hd (leads_inert ?_ hd)
    rintro c (_ | ⟨_, hc⟩)
    · rfl
    · exact inert_blank after c hc

theorem leads_label (h : Label close label) (hd : d ≠ 0) : Leads d label d := by
  cases h with
  | element => exact leads_inert nofun hd
  | @key _ _ gap' h before after =>
    have hkey := (leads_string h hd).trans hd ((leads_inert (inert_blank before) hd).trans hd
      (leads_inert (t := colon :: gap') ?_ hd))
    · simpa using hkey
    rintro c (_ | ⟨_, hc⟩)
    · rfl
    · exact inert_blank after c hc

theorem leads_word (h : Word text) (hd : d ≠ 0) : Leads d text d := by
  have hall : ∀ c : UInt8, plain c = true → inert c = true := forall_byte (by decide +kernel)
  exact leads_inert (fun c hc => hall c (h.2 c hc)) hd

theorem word_literal (h : text ∈ [ascii "true", ascii "false", ascii "null"]) : Word text := by
  have hall : ∀ text ∈ [ascii "true", ascii "false", ascii "null"],
      text ≠ [] ∧ ∀ c ∈ text, plain c = true := by decide +kernel
  exact hall text h

/-- From inside of a container at some depth: a value is passed over if it is not too deep there,
and so is what is left of a container, which closes it. -/
def Part.Skipped (n : Nat) (text : Bytes) : Part → Prop
  | .value => ∀ d ≤ maxDepth, (d + n ≤ maxDepth → d + n ≠ 0 → Leads d text d) ∧
      (maxDepth < d + n → Refuses d text)
  | .items close _ => close = closeBrace ∨ close = closeBracket → ∀ d < maxDepth,
      (d + 1 + n ≤ maxDepth → Leads (d + 1) text d) ∧ (maxDepth < d + 1 + n → Refuses (d + 1) text)

theorem skipped_scalar (h : d ≠ 0 → Leads d text d) (hd : d ≤ maxDepth) :
    (d + 0 ≤ maxDepth → d + 0 ≠ 0 → Leads d text d) ∧ (maxDepth < d + 0 → Refuses d text) :=
  ⟨fun _ => h, fun hdeep => absurd hd (not_le.mpr hdeep)⟩

theorem skipped_container (hc : c = openBrace ∨ c = openBracket)
    (ih : ∀ d < maxDepth, (d + 1 + n ≤ maxDepth → Leads (d + 1) text d) ∧
      (maxDepth < d + 1 + n → Refuses (d + 1) text)) (hd : d ≤ maxDepth) :
    (d + (n + 1) ≤ maxDepth → d + (n + 1) ≠ 0 → Leads d (c :: text) d) ∧
      (maxDepth < d + (n + 1) → Refuses d (c :: text)) := by
  have hopen (hlt : d < maxDepth) : Leads d [c] (d + 1) := by
    refine leads_byte fun fuel text => ?_
    rw [skipNested_open hc, if_neg (by omega)]
    rfl
  constructor
  · intro _ _
    exact (hopen (by omega)).trans (Nat.succ_ne_zero d) ((ih d (by omega)).1 (by omega))
  · intro _
    by_cases hlt : d < maxDepth
    · exact (hopen hlt).refuses (Nat.succ_ne_zero d) ((ih d hlt).2 (by omega))
    · intro _ _ hfuel
      obtain ⟨_, rfl⟩ := Nat.exists_eq_add_one.mpr (Nat.zero_lt_of_lt hfuel)
      rw [cons_append, skipNested_open hc, if_pos (by omega)]

theorem Written.skipped (h : Written part n text) : part.Skipped n text := by
  induction h with
  | string h => exact fun d hd => skipped_scalar (leads_string h) hd
  | number n => exact fun d hd => skipped_scalar (leads_word n.word) hd
  | word h => exact fun d hd => skipped_scalar (leads_word (word_literal h)) hd
  | object _ ih => exact fun d hd => skipped_container (.inl rfl) (ih (.inl rfl)) hd
  | array _ ih => exact fun d hd => skipped_container (.inr rfl) (ih (.inr rfl)) hd
  | close hgap =>
    intro hclose d hd
    refine ⟨fun _ => ?_, fun hdeep => by omega⟩
    exact (leads_inert (inert_blank hgap) (Nat.succ_ne_zero d)).trans (Nat.succ_ne_zero d)
      (leads_byte (skipNested_close hclose hd))
  | @item _ _ _ _ n _ m more hlead hlabel _ _ ihvalue ihmore =>
    intro hclose d hd
    have hne := Nat.succ_ne_zero d
    obtain ⟨hvalue, hdeep⟩ := ihvalue (d + 1) hd
    obtain ⟨hmore, hdeeper⟩ := ihmore hclose d hd
    have hfront := (leads_comma hlead hne).trans hne (leads_label hlabel hne)
    rw [← append_assoc]
    constructor
    · intro _
      exact hfront.trans hne ((hvalue (by omega) (by omega)).trans hne (hmore (by omega)))
    · intro _
      by_cases hn : maxDepth < d + 1 + n
      · exact hfront.refuses hne ((hdeep hn).append more)
      · exact hfront.refuses hne ((hvalue (by omega) (by omega)).refuses hne (hdeeper (by omega)))

theorem skipValue_container (hc : c = openBrace ∨ c = openBracket) :
    skipValue ⟨c :: text, b⟩ = ((skipNested (text.length + 2) 0 (c :: text)).1,
      ⟨(skipNested (text.length + 2) 0 (c :: text)).2, b⟩) := by
  have hpeek : peek ⟨c :: text, b⟩ = (c, ⟨c :: text, b⟩) :=
    peek_on .nil (by rcases hc with rfl | rfl <;> decide)
  have hzero : c ≠ 0 := by rcases hc with rfl | rfl <;> decide
  have hquote : c ≠ quote := by rcases hc with rfl | rfl <;> decide
  simp only [skipValue, hpeek, hzero, hquote, if_false]
  exact if_neg fun h => hc.elim h.1 h.2

theorem skipValue_nested (hc : c = openBrace ∨ c = openBracket)
    (h : Written .value n (c :: text)) (hn : n ≠ 0) (rest : Bytes) (b : Bool) :
    (n ≤ maxDepth → skipValue ⟨c :: text ++ rest, b⟩ = (true, ⟨rest, b⟩)) ∧
      (maxDepth < n → (skipValue ⟨c :: text ++ rest, b⟩).1 = false) := by
  obtain ⟨hleads, hrefuses⟩ := h.skipped 0 (Nat.zero_le _)
  rw [Nat.zero_add] at hleads hrefuses
  rw [cons_append, skipValue_container hc, ← cons_append]
  constructor
  · intro hfits
    obtain ⟨_, -, hskip⟩ := hleads hfits hn ((text ++ rest).length + 2) rest (by simp)
    rw [hskip]
    rfl
  · intro hdeep
    exact hrefuses hdeep _ rest (by simp)

theorem Written.skipValue (h : Written .value n text) (hrest : Follows rest) :
    (n ≤ maxDepth → skipValue ⟨text ++ rest, b⟩ = (true, ⟨rest, b⟩)) ∧
      (maxDepth < n → (skipValue ⟨text ++ rest, b⟩).1 = false) := by
  cases h with
  | string h =>
    refine ⟨fun _ => ?_, nofun⟩
    have hbody := skipStringBody_body h rest
    rw [cons_append, append_assoc, singleton_append, skipValue_quote rfl, hbody]
  | number n => exact ⟨fun _ => skipValue_word n.word hrest, nofun⟩
  | word h => exact ⟨fun _ => skipValue_word (word_literal h) hrest, nofun⟩
  | object h => exact skipValue_nested (.inl rfl) (.object h) (Nat.succ_ne_zero _) rest b
  | array h => exact skipValue_nested (.inr rfl) (.array h) (Nat.succ_ne_zero _) rest b

/-- The count of `skipNested`, given up where it would go below zero. -/
@[grind =] def skipNestedChecked : (fuel depth : Nat) → Bytes → Option (Bool × Bytes)
  | 0, _, text => some (false, text)
  | _ + 1, _, [] => some (false, [])
  | fuel + 1, depth, c :: text =>
    if c = quote then
      match skipStringBody text with
      | (false, text) => some (false, text)
      | (true, text) => skipNestedChecked fuel depth text
    else if c = openBrace ∨ c = openBracket then
      if depth + 1 > maxDepth then some (false, text) else skipNestedChecked fuel (depth + 1) text
    else if c = closeBrace ∨ c = closeBracket then
      if depth = 0 then none
      else if depth = 1 then some (true, text)
      else skipNestedChecked fuel (depth - 1) text
    else skipNestedChecked fuel depth text

theorem skipNested_checked (hd : d < maxDepth) (fuel : Nat) (text : Bytes) :
    skipNestedChecked fuel (d + 1) text = some (skipNested fuel (d + 1) text) := by
  induction fuel generalizing d text with
  | zero => rfl
  | succ _ ih =>
    cases text with
    | nil => rfl
    | cons c text =>
      by_cases hclose : c = closeBrace ∨ c = closeBracket
      · have hquote : c ≠ quote := by rcases hclose with rfl | rfl <;> decide
        have hopen :
            ¬(c = openBrace ∨ c = openBracket) := by rcases hclose with rfl | rfl <;> decide
        rw [skipNested_close hclose hd, skipNestedChecked, if_neg hquote, if_neg hopen,
          if_pos hclose, if_neg (Nat.succ_ne_zero d)]
        cases d with
        | zero => rfl
        | succ => exact ih (Nat.lt_of_succ_lt hd) text
      · rw [skipNestedChecked, skipNested]
        split
        · obtain ⟨done, left⟩ := skipStringBody text
          cases done with
          | false => rfl
          | true => exact ih hd left
        split
        · split
          · rfl
          · exact ih (by omega) text
        · exact ih hd text

/-- A value is passed over up to its end, or refused if it nests too deep; and whatever the bytes,
the count of containers stays above zero until the last is closed. -/
theorem skipValue_written :
    (∀ n text rest b, Written .value n text → Follows rest →
      (n ≤ 32 → skipValue ⟨text ++ rest, b⟩ = (true, ⟨rest, b⟩)) ∧
        (32 < n → (skipValue ⟨text ++ rest, b⟩).1 = false)) ∧
      ∀ c text fuel, c = openBrace ∨ c = openBracket →
        skipNestedChecked fuel 0 (c :: text) = some (skipNested fuel 0 (c :: text)) := by
  refine ⟨fun n text rest b h hrest => h.skipValue hrest, ?_⟩
  intro c text fuel hc
  have hquote : c ≠ quote := by rcases hc with rfl | rfl <;> decide
  cases fuel with
  | zero => rfl
  | succ fuel =>
    rw [skipNested_open hc, skipNestedChecked, if_neg hquote, if_pos hc]
    exact skipNested_checked (by decide) fuel text

end Inkwell.Json
