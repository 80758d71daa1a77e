import Inkwell.Library.Compare
import Inkwell.Library.Decimal

namespace Inkwell.Version
open Library List

def dot : UInt8 := '.'.toUInt8
def hyphen : UInt8 := '-'.toUInt8
def plus : UInt8 := '+'.toUInt8

def blank (c : UInt8) : Bool := c == ' '.toUInt8 || c == '\t'.toUInt8
def digit (c : UInt8) : Bool := '0'.toUInt8 ≤ c && c ≤ '9'.toUInt8

def allowed (c : UInt8) : Bool :=
  digit c || ('a'.toUInt8 ≤ c && c ≤ 'z'.toUInt8) || ('A'.toUInt8 ≤ c && c ≤ 'Z'.toUInt8) ||
    c == hyphen

/-- `run` characters of the identifier at hand have been read. -/
def identifiersFrom (run : Nat) : Bytes → Bool
  | [] => run != 0
  | c :: text =>
    if c == dot then
      if run == 0 then false else identifiersFrom 0 text
    else if !allowed c then false
    else identifiersFrom (run + 1) text

def dotIdentifiersAreValid (text : Bytes) : Bool := identifiersFrom 0 text

/-- A pointer into a string, `text` being all that follows, and how much of it is meant. -/
structure Span where
  text : Bytes
  len : Nat

structure Semver where
  major : Nat := 0
  minor : Nat := 0
  patch : Nat := 0
  pre : Option Span := none

@[grind =] def digitsFrom (value : Nat) : Bytes → Nat × Nat
  | [] => (0, value)
  | c :: text =>
    if digit c then
      -- past the cap a digit is read but no longer counts
      let value := if value < 100000000 then value * 10 + (c - '0'.toUInt8).toNat else value
      let (used, value) := digitsFrom value text
      (used + 1, value)
    else (0, value)

def parseNumber (text : Bytes) : Nat × Nat := digitsFrom 0 text

def skipV : Bytes → Bytes
  | [] => []
  | c :: text => if c == 'v'.toUInt8 || c == 'V'.toUInt8 then text else c :: text

/-- The number after a dot, and what stands behind it. Without the dot there is none. -/
def parseDotted : Bytes → Option (Option Nat × Bytes)
  | [] => some (none, [])
  | c :: text =>
    if c == dot then
      let (used, value) := parseNumber text
      if used == 0 then none else some (some value, text.drop used)
    else some (none, c :: text)

/-- Minor and patch; a patch is only looked for behind a minor. -/
def parseMinorPatch (text : Bytes) : Option (Nat × Nat × Bytes) := do
  match ← parseDotted text with
  | (none, text) => return (0, 0, text)
  | (some minor, text) =>
    let (patch, text) ← parseDotted text
    return (minor, patch.getD 0, text)

def parseTail (version : Semver) : Bytes → Option Semver
  | [] => some version
  | c :: text =>
    if c == hyphen then
      let len := (text.takeWhile (· != plus)).length
      if !dotIdentifiersAreValid (text.take len) then none
      else
        match text.drop len with
        | [] => some { version with pre := some ⟨text, len⟩ }
        | _ :: build =>
          if dotIdentifiersAreValid build then some { version with pre := some ⟨text, len⟩ }
          else none
    else if c == plus then
      if dotIdentifiersAreValid text then some version else none
    else none

/-- A string is the bytes before its terminator, `none` the null pointer. -/
def semverParse (text : Option Bytes) : Option Semver := do
  let text := skipV ((← text).dropWhile blank)
  let (used, major) := parseNumber text
  if used == 0 then none
  else
    let (minor, patch, text) ← parseMinorPatch (text.drop used)
    parseTail { major, minor, patch } text

def preNext (cursor : Span) : Option (Span × Span) :=
  if cursor.len == 0 then none
  else
    let len := ((cursor.text.take cursor.len).takeWhile (· != dot)).length
    some (⟨cursor.text, len⟩,
      if len < cursor.len then ⟨cursor.text.drop (len + 1), cursor.len - (len + 1)⟩
      else ⟨cursor.text.drop cursor.len, 0⟩)

def preIsNumeric (part : Span) : Bool := part.len != 0 && (part.text.take part.len).all digit

def strncmp : Bytes → Bytes → Nat → Int
  | _, _, 0 => 0
  | [], [], _ + 1 => 0
  | [], b :: _, _ + 1 => -b.toNat
  | a :: _, [], _ + 1 => a.toNat
  | a :: s, b :: t, n + 1 => if a ≠ b then a.toNat - b.toNat else strncmp s t n

/-- One turn of the loop over the identifiers; zero goes on to the next ones. -/
def compareParts (a b : Span) : Int :=
  if preIsNumeric a && preIsNumeric b then
    -- the number is read from the string itself, not from the identifier's own bytes
    let aValue := (parseNumber a.text).2
    let bValue := (parseNumber b.text).2
    if aValue ≠ bValue then if aValue < bValue then -1 else 1 else 0
  else if preIsNumeric a != preIsNumeric b then if preIsNumeric a then -1 else 1
  else
    let diff := strncmp a.text b.text (min a.len b.len)
    if diff ≠ 0 then if diff < 0 then -1 else 1
    else if a.len ≠ b.len then if a.len < b.len then -1 else 1
    else 0

@[grind =] def compareFrom : (fuel : Nat) → Span → Span → Int
  | 0, _, _ => 0
  | fuel + 1, a, b =>
    match preNext a, preNext b with
    | none, none => 0
    | none, some _ => -1
    | some _, none => 1
    | some (aPart, aRest), some (bPart, bRest) =>
      let diff := compareParts aPart bPart
      if diff ≠ 0 then diff else compareFrom fuel aRest bRest

def comparePrerelease (a b : Semver) : Int :=
  match a.pre, b.pre with
  | none, none => 0
  | none, some _ => 1
  | some _, none => -1
  | some a, some b => compareFrom (a.len + 1) a b

def versionCompare (a b : Option Bytes) : Int :=
  match semverParse a, semverParse b with
  | none, none => 0
  | some _, none => 1
  | none, some _ => -1
  | some left, some right =>
    if left.major ≠ right.major then if left.major < right.major then -1 else 1
    else if left.minor ≠ right.minor then if left.minor < right.minor then -1 else 1
    else if left.patch ≠ right.patch then if left.patch < right.patch then -1 else 1
    else comparePrerelease left right

/-- Numbers below texts. -/
abbrev Rank := ℕ ⊕ₗ List ℕ

def bytes (text : Bytes) : List ℕ := text.map UInt8.toNat

def numeric (identifier : Bytes) : Bool := !identifier.isEmpty && identifier.all digit

/-- The first nine digits of a number: all of it, below a thousand million. -/
def leading (n : Nat) : Nat := if n < 1000000000 then n else leading (n / 10)

def rank (identifier : Bytes) : Rank :=
  if numeric identifier then toLex (.inl (leading (numeral identifier)))
  else toLex (.inr (bytes identifier))

def identifiers (text : Bytes) : List Rank :=
  match text with
  | [] => []
  | c :: text =>
    rank ((c :: text).takeWhile (· != dot)) :: identifiers
      (((c :: text).dropWhile (· != dot)).drop 1)
termination_by text.length
decreasing_by
  have h := (dropWhile_suffix (l := c :: text) (· != dot)).length_le
  simp only [length_drop, length_cons] at h ⊢
  omega

/-- A release stands above all its prereleases. -/
abbrev Precedence := ℕ ×ₗ ℕ ×ₗ ℕ ×ₗ WithTop (List Rank)

def Span.bytes (s : Span) : Bytes := s.text.take s.len

def Semver.preRank (v : Semver) : WithTop (List Rank) :=
  match v.pre with
  | none => ⊤
  | some pre => identifiers pre.bytes

def Semver.precedence (v : Semver) : Precedence :=
  toLex (v.major, toLex (v.minor, toLex (v.patch, v.preRank)))

/-- What is no version stands below all that are. -/
def precedence (text : Option Bytes) : WithBot Precedence :=
  match semverParse text with
  | none => ⊥
  | some v => v.precedence

def Stops (rest : Bytes) : Prop := ∀ c ∈ rest.head?, digit c = false

theorem leading_lt (n : Nat) : leading n < 100000000 ↔ n < 100000000 := by
  fun_induction leading n with
  | case1 => rfl
  | case2 => omega

theorem leading_digit (h : d < 10) :
    leading (n * 10 + d) = if leading n < 100000000 then leading n * 10 + d else leading n := by
  rw [leading]
  simp only [leading_lt]
  by_cases hn : n < 100000000
  · rw [if_pos (by omega), if_pos hn, leading, if_pos (by omega)]
  · have hten : (n * 10 + d) / 10 = n := by omega
    rw [if_neg (by omega), if_neg hn, hten]

theorem digitsFrom_eq (seen text : Bytes) :
    digitsFrom (leading (numeral seen)) text =
      ((text.takeWhile digit).length, leading (numeral (seen ++ text.takeWhile digit))) := by
  induction text generalizing seen with
  | nil => simp [digitsFrom]
  | cons c _ ih =>
    unfold digitsFrom
    by_cases hc : digit c
    · have hvalue : (c - '0'.toUInt8).toNat = c.toNat - 48 := toNat_digit_sub c hc
      have hten : c.toNat - 48 < 10 := by
        have hnine := (Bool.and_eq_true_iff.mp hc).2
        simp only [decide_eq_true_eq, UInt8.le_iff_toNat_le] at hnine
        change c.toNat ≤ 57 at hnine
        omega
      simp only [hc, if_true, hvalue, ← leading_digit hten, ← numeral_append, ih]
      simp [hc]
    · simp [hc]

theorem parseNumber_eq (text : Bytes) :
    parseNumber text =
      ((text.takeWhile digit).length, leading (numeral (text.takeWhile digit))) := by
  have hzero : leading (numeral []) = 0 := by
    rw [leading]
    rfl
  rw [parseNumber, ← hzero, digitsFrom_eq, nil_append]

theorem parseNumber_numeric (h : numeric text) : (parseNumber text).2 = leading (numeral text) := by
  have hall : text.all digit := (Bool.and_eq_true_iff.mp h).2
  rw [parseNumber_eq, takeWhile_eq_self_iff.mpr (all_eq_true.mp hall)]

theorem digitsFrom_append (h : Stops rest) :
    digitsFrom value (text ++ rest) = digitsFrom value text := by
  induction text generalizing value with
  | nil =>
    cases rest with
    | nil => rfl
    | cons c => simp [digitsFrom, h c rfl]
  | cons c _ ih => simp [digitsFrom, ih]

theorem parseNumber_append (h : Stops rest) : parseNumber (text ++ rest) = parseNumber text :=
  digitsFrom_append h

theorem preIsNumeric_append :
    preIsNumeric ⟨identifier ++ rest, identifier.length⟩ = numeric identifier := by
  cases identifier <;> simp [preIsNumeric, numeric]

theorem strncmp_append (a b r t : Bytes) :
    (let diff := strncmp (a ++ r) (b ++ t) (min a.length b.length)
      if diff ≠ 0 then if diff < 0 then (-1 : Int) else 1
      else if a.length ≠ b.length then if a.length < b.length then -1 else 1
      else 0) = threeWay (bytes a) (bytes b) := by
  induction a generalizing b with
  | nil =>
    cases b with
    | nil => simp [strncmp]
    | cons => simp [strncmp, bytes, threeWay_nil_cons]
  | cons x a ih =>
    cases b with
    | nil => simp [strncmp, bytes, threeWay_cons_nil]
    | cons y b =>
      have ih := ih b
      simp only [bytes, map_cons, threeWay_cons] at ih ⊢
      by_cases h : x = y
      · simpa [strncmp, h] using ih
      · have hne : x.toNat ≠ y.toNat := fun he => h (UInt8.toNat_inj.mp he)
        have hdiff : (x.toNat : Int) - y.toNat ≠ 0 := by omega
        simp only [cons_append, length_cons, Nat.succ_min_succ, strncmp, ne_eq, h,
          not_false_eq_true, if_true, hdiff, threeWay, hne]
        split <;> split <;> first | rfl | omega

theorem compareParts_append (hr : Stops r) (ht : Stops t) (a b : Bytes) :
    compareParts ⟨a ++ r, a.length⟩ ⟨b ++ t, b.length⟩ = threeWay (rank a) (rank b) := by
  have hinl : StrictMono (fun n : ℕ => (toLex (.inl n) : Rank)) := fun _ _ h =>
    Sum.Lex.inl_lt_inl_iff.mpr h
  have hinr : StrictMono (fun s : List ℕ => (toLex (.inr s) : Rank)) := fun _ _ h =>
    Sum.Lex.inr_lt_inr_iff.mpr h
  simp only [compareParts, preIsNumeric_append, parseNumber_append hr, parseNumber_append ht]
  cases ha : numeric a with
  | true =>
    cases hb : numeric b with
    | true =>
      have h := threeWay_congr hinl (leading (numeral a)) (leading (numeral b))
      simp only [rank, ha, hb, if_true, parseNumber_numeric ha, parseNumber_numeric hb]
      exact h.symm
    | false =>
      have h : rank a < rank b := by
        simp only [rank, ha, hb, if_true, Bool.false_eq_true, if_false]
        exact Sum.Lex.inl_lt_inr _ _
      rw [threeWay_of_lt h]
      rfl
  | false =>
    cases hb : numeric b with
    | true =>
      have h : rank b < rank a := by
        simp only [rank, ha, hb, if_true, Bool.false_eq_true, if_false]
        exact Sum.Lex.inl_lt_inr _ _
      rw [threeWay_of_gt h]
      rfl
    | false =>
      have h := threeWay_congr hinr (bytes a) (bytes b)
      simp only [rank, ha, hb, Bool.false_eq_true, if_false, h, ← strncmp_append a b r t]
      rfl

theorem preNext_append (hr : Stops r) (hp : p ≠ []) :
    ∃ w s rest, Stops s ∧ rest.length < p.length ∧ identifiers p = rank w :: identifiers rest ∧
      preNext ⟨p ++ r, p.length⟩ = some (⟨w ++ s, w.length⟩, ⟨rest ++ r, rest.length⟩) := by
  obtain ⟨w, after, rfl, -, hafter, htake, hdrop⟩ := exists_span (· != dot) p
  have hidents : identifiers (w ++ after) = rank w :: identifiers (after.drop 1) := by
    obtain ⟨c, _, hcons⟩ := exists_cons_of_ne_nil hp
    rw [hcons] at htake hdrop ⊢
    rw [identifiers, htake, hdrop]
  cases after with
  | nil =>
    rw [append_nil] at hp htake ⊢
    refine ⟨w, r, [], hr, length_pos_iff.mpr hp, by simpa using hidents, ?_⟩
    simp [preNext, hp, htake]
  | cons c rest =>
    refine ⟨w, c :: (rest ++ r), rest, ?_, by simp; omega, hidents, ?_⟩
    · rintro d ⟨⟩
      obtain rfl : c = dot := by simpa using hafter c rfl
      decide
    · have hnext : (w ++ c :: rest ++ r).drop (w.length + 1) = rest ++ r := by
        rw [append_assoc, ← drop_drop, drop_left]
        rfl
      have hlen : (w ++ c :: rest).length = w.length + 1 + rest.length := by
        simp only [length_append, length_cons]
        omega
      have hlt : w.length < (w ++ c :: rest).length := by omega
      have hleft : (w ++ c :: rest).length - (w.length + 1) = rest.length := by omega
      have hne : ((w ++ c :: rest).length == 0) = false := by simp
      simp only [preNext, take_left, htake, hnext, hlt, hleft, hne, if_true,
        Bool.false_eq_true, if_false]
      simp

theorem compareFrom_append (hr : Stops r) (ht : Stops t) (fuel : Nat) (p q : Bytes)
    (hfuel : p.length < fuel) :
    compareFrom fuel ⟨p ++ r, p.length⟩ ⟨q ++ t, q.length⟩ =
      threeWay (identifiers p) (identifiers q) := by
  -- Each turn takes an identifier off both texts.
  induction fuel generalizing p q with
  | zero => omega
  | succ _ ih =>
    have hend (r : Bytes) : preNext ⟨[] ++ r, 0⟩ = none := rfl
    by_cases hp : p = []
    · subst p
      by_cases hq : q = []
      · subst q
        simp only [compareFrom, length_nil, hend, threeWay_self]
      · obtain ⟨_, _, _, -, -, hidents, hb⟩ := preNext_append ht hq
        simp only [compareFrom, length_nil, hend, hb, hidents, identifiers, threeWay_nil_cons]
    · obtain ⟨_, _, rest, hs, _, hidents, ha⟩ := preNext_append hr hp
      by_cases hq : q = []
      · subst q
        simp only [compareFrom, length_nil, ha, hend, hidents, identifiers, threeWay_cons_nil]
      · obtain ⟨_, _, rest', hs', -, hidents', hb⟩ := preNext_append ht hq
        have hrest := ih rest rest' (by omega)
        simp only [compareFrom, ha, hb, hidents, hidents', compareParts_append hs hs', hrest,
          threeWay_cons]

def Semver.Spanned (v : Semver) : Prop :=
  ∀ span ∈ v.pre, ∃ pre rest, Stops rest ∧ span = ⟨pre ++ rest, pre.length⟩

theorem comparePrerelease_eq (ha : a.Spanned) (hb : b.Spanned) :
    comparePrerelease a b = threeWay a.preRank b.preRank := by
  have hcoe : StrictMono (fun l : List Rank => (l : WithTop (List Rank))) := fun _ _ h =>
    WithTop.coe_lt_coe.mpr h
  unfold comparePrerelease Semver.preRank
  cases hpa : a.pre with
  | none =>
    cases hpb : b.pre with
    | none => simp
    | some => exact (threeWay_of_gt (WithTop.coe_lt_top _)).symm
  | some s =>
    cases hpb : b.pre with
    | none => exact (threeWay_of_lt (WithTop.coe_lt_top _)).symm
    | some t =>
      obtain ⟨p, _, hr, rfl⟩ := ha s hpa
      obtain ⟨q, _, hu, rfl⟩ := hb t hpb
      have h := threeWay_congr hcoe (identifiers p) (identifiers q)
      simp only [compareFrom_append hr hu _ _ _ (lt_add_one _), Span.bytes, take_left]
      exact h.symm

theorem parseTail_spanned (hv : v.pre = none) (h : parseTail v text = some w) : w.Spanned := by
  have hnone : v.Spanned := by simp [Semver.Spanned, hv]
  cases text with
  | nil =>
    cases h
    exact hnone
  | cons c text =>
    have hspan :
        Semver.Spanned { v with pre := some ⟨text, (text.takeWhile (· != plus)).length⟩ } := by
      rintro _ ⟨⟩
      refine ⟨text.takeWhile (· != plus), text.dropWhile (· != plus), ?_, by simp⟩
      intro c hc
      obtain rfl : c = plus := by simpa using head_dropWhile text c hc
      decide
    simp only [parseTail] at h
    split at h
    · split at h
      · cases h
      · split at h
        · cases h
          exact hspan
        · split at h
          · cases h
            exact hspan
          · cases h
    · split at h
      · split at h
        · cases h
          exact hnone
        · cases h
      · cases h

theorem semverParse_spanned (h : semverParse text = some v) : v.Spanned := by
  simp only [semverParse, Option.bind_eq_bind, Option.bind_eq_some_iff] at h
  obtain ⟨_, rfl, h⟩ := h
  split at h
  · cases h
  · obtain ⟨⟨_, _, _⟩, -, h⟩ := Option.bind_eq_some_iff.mp h
    exact parseTail_spanned rfl h

theorem versionCompare_eq : versionCompare a b = threeWay (precedence a) (precedence b) := by
  have hcoe : StrictMono (fun p : Precedence => (p : WithBot Precedence)) := fun _ _ h =>
    WithBot.coe_lt_coe.mpr h
  unfold versionCompare precedence
  cases ha : semverParse a with
  | none =>
    cases hb : semverParse b with
    | none => simp
    | some => exact (threeWay_of_lt (WithBot.bot_lt_coe _)).symm
  | some v =>
    cases hb : semverParse b with
    | none => exact (threeWay_of_gt (WithBot.bot_lt_coe _)).symm
    | some w =>
      have hpre := comparePrerelease_eq (semverParse_spanned ha) (semverParse_spanned hb)
      have h := threeWay_congr hcoe v.precedence w.precedence
      simp only [Semver.precedence, threeWay_toLex] at h
      simp only [hpre]
      exact h.symm

theorem precedence_eq_bot : precedence a = ⊥ ↔ semverParse a = none := by
  unfold precedence
  cases semverParse a <;> simp

theorem dropWhile_append_plus (hp : p plus = false) (s m : Bytes) :
    (s ++ plus :: m).dropWhile p = s.dropWhile p ++ plus :: m := by
  rw [dropWhile_append]
  split
  · rename_i hall
    rw [isEmpty_iff.mp hall, dropWhile_cons_of_neg (by simp [hp]), nil_append]
  · rfl

theorem stops_plus : Stops (plus :: m) := by
  rintro c ⟨⟩
  decide

theorem digitsFrom_le (value : Nat) (text : Bytes) : (digitsFrom value text).1 ≤ text.length := by
  induction text generalizing value with
  | nil => exact le_rfl
  | cons c _ ih =>
    simp only [digitsFrom]
    split
    · exact Nat.succ_le_succ (ih _)
    · exact Nat.zero_le _

theorem drop_parseNumber_plus :
    (s ++ plus :: m).drop (parseNumber s).1 = s.drop (parseNumber s).1 ++ plus :: m :=
  drop_append_of_le_length (digitsFrom_le 0 s)

theorem skipV_plus (s m : Bytes) : skipV (s ++ plus :: m) = skipV s ++ plus :: m := by
  cases s with
  | nil => rfl
  | cons =>
    simp only [cons_append, skipV]
    split <;> rfl

/-- What the readers of the numbers leave is followed by the same metadata. -/
def behind (m : Bytes) : α × Bytes → α × Bytes := Prod.map id (· ++ plus :: m)

theorem parseDotted_plus : parseDotted (s ++ plus :: m) = (parseDotted s).map (behind m) := by
  cases s with
  | nil => rfl
  | cons =>
    simp only [cons_append, parseDotted, parseNumber_append stops_plus, drop_parseNumber_plus]
    split
    · split <;> rfl
    · rfl

theorem parseMinorPatch_plus : parseMinorPatch (s ++ plus :: m) =
      (parseMinorPatch s).map fun (minor, patch, text) => (minor, patch, text ++ plus :: m) := by
  simp only [parseMinorPatch, parseDotted_plus, Option.bind_eq_bind]
  cases h : parseDotted s with
  | none => rfl
  | some first =>
    obtain ⟨minor, text⟩ := first
    cases minor with
    | none => rfl
    | some =>
      change (parseDotted (text ++ plus :: m)).bind _ = _
      rw [parseDotted_plus]
      cases h : parseDotted text <;> simp [h, behind]

theorem parseDotted_suffix (h : parseDotted text = some (value, rest)) : rest <:+ text := by
  cases text with
  | nil =>
    cases h
    exact suffix_rfl
  | cons =>
    simp only [parseDotted] at h
    split at h
    · split at h
      · cases h
      · cases h
        exact (drop_suffix _ _).trans (suffix_cons _ _)
    · cases h
      exact suffix_rfl

theorem parseMinorPatch_suffix (h : parseMinorPatch text = some (minor, patch, rest)) :
    rest <:+ text := by
  simp only [parseMinorPatch, Option.bind_eq_bind, Option.bind_eq_some_iff] at h
  obtain ⟨⟨value, _⟩, hfirst, h⟩ := h
  cases value with
  | none =>
    cases h
    exact parseDotted_suffix hfirst
  | some =>
    obtain ⟨⟨_, _⟩, hsecond, h⟩ := Option.bind_eq_some_iff.mp h
    cases h
    exact (parseDotted_suffix hsecond).trans (parseDotted_suffix hfirst)

theorem parseTail_plus (hs : plus ∉ s) (hm : dotIdentifiersAreValid m) :
    (parseTail v (s ++ plus :: m)).map Semver.precedence =
      (parseTail v s).map Semver.precedence := by
  cases s with
  | nil =>
    have h : parseTail v (plus :: m) = some v := by
      simp [parseTail, hm, show (plus == hyphen) = false by decide]
    exact congrArg _ h
  | cons c s =>
    have hall : ∀ c ∈ s, (c != plus) := fun c hc => by
      simpa using fun he : c = plus => hs (mem_cons_of_mem _ (he ▸ hc))
    have htake : (s ++ plus :: m).takeWhile (· != plus) = s := by
      rw [takeWhile_append_of_pos hall]
      simp
    have htake' : s.takeWhile (· != plus) = s := takeWhile_eq_self_iff.mpr hall
    have hc : (c == plus) = false := by simpa using fun he : c = plus => hs (he ▸ mem_cons_self)
    simp only [cons_append, parseTail, htake, htake', hc, take_left, drop_left,
      take_length, drop_length, hm]
    split
    · split
      · rfl
      · simp [Semver.precedence, Semver.preRank, Span.bytes]
    · rfl

theorem precedence_plus (hs : plus ∉ s) (hm : dotIdentifiersAreValid m) :
    precedence (some (s ++ plus :: m)) = precedence (some s) := by
  have hparse : (semverParse (some (s ++ plus :: m))).map Semver.precedence =
      (semverParse (some s)).map Semver.precedence := by
    have hskip := skipV_plus (s.dropWhile blank) m
    rw [← dropWhile_append_plus (p := blank) (by decide)] at hskip
    have hsuffix : skipV (s.dropWhile blank) <:+ s := by
      refine List.IsSuffix.trans ?_ (dropWhile_suffix blank)
      cases s.dropWhile blank with
      | nil => exact suffix_rfl
      | cons =>
        simp only [skipV]
        split
        · exact suffix_cons _ _
        · exact suffix_rfl
    simp only [semverParse, Option.bind_eq_bind, Option.bind_some, hskip,
      parseNumber_append stops_plus, drop_parseNumber_plus, parseMinorPatch_plus]
    split
    · rfl
    · cases h : parseMinorPatch ((skipV (s.dropWhile blank)).drop
          (parseNumber (skipV (s.dropWhile blank))).1) with
      | none => rfl
      | some found =>
        obtain ⟨_, _, rest⟩ := found
        have hrest : rest <:+ s :=
          ((parseMinorPatch_suffix h).trans (drop_suffix _ _)).trans hsuffix
        exact parseTail_plus (fun hmem => hs (hrest.subset hmem)) hm
  unfold precedence
  cases ha : semverParse (some (s ++ plus :: m)) <;> cases hb : semverParse (some s) <;>
    simp_all

/-- The comparison is a total preorder on all strings and the null pointer. What is no version is
one least class, and build metadata changes nothing. -/
theorem versionCompare_preorder :
    (∀ a, versionCompare a a = 0) ∧
    (∀ a b, versionCompare b a = -versionCompare a b) ∧
    (∀ a b c, versionCompare a b ≤ 0 → versionCompare b c ≤ 0 → versionCompare a c ≤ 0) ∧
    (∀ a b, semverParse a = none →
      versionCompare a b ≤ 0 ∧ (versionCompare a b = 0 ↔ semverParse b = none)) ∧
    (∀ s m b, plus ∉ s → dotIdentifiersAreValid m →
      versionCompare (some (s ++ plus :: m)) b = versionCompare (some s) b) := by
  simp only [versionCompare_eq]
  refine ⟨fun _ => threeWay_self _, fun a b => threeWay_swap _, ?_, ?_, ?_⟩
  · intro a b c hab hbc
    exact threeWay_le_zero.mpr ((threeWay_le_zero.mp hab).trans (threeWay_le_zero.mp hbc))
  · intro a b ha
    have hbot : precedence a = ⊥ := precedence_eq_bot.mpr ha
    rw [hbot, threeWay_le_zero, threeWay_eq_zero, ← precedence_eq_bot]
    exact ⟨bot_le, eq_comm⟩
  · intro s m b hs hm
    rw [precedence_plus hs hm]

def tag (s : String) : Option Bytes := some (s.toList.map Char.toUInt8)

theorem versionCompare_tags :
    versionCompare (tag "v1.2-rc.2") (tag "1.2.0-rc.10+b.7") ≤ 0 ∧
    versionCompare (tag "1.2.0-rc.10+b.7") (tag "1.2") ≤ 0 ∧
    versionCompare (tag "v1.2-rc.2") (tag "1.2") ≤ 0 ∧
    versionCompare (tag "2.0.0+") (tag "1.2") = -1 ∧
    versionCompare (tag "1.2.0-rc.10+b.7") none = versionCompare (tag "1.2.0-rc.10") none := by
  obtain ⟨-, -, htrans, -, hbuild⟩ := versionCompare_preorder
  have hlow : versionCompare (tag "v1.2-rc.2") (tag "1.2.0-rc.10+b.7") ≤ 0 := by decide
  have hhigh : versionCompare (tag "1.2.0-rc.10+b.7") (tag "1.2") ≤ 0 := by decide
  refine ⟨hlow, hhigh, htrans _ _ _ hlow hhigh, by decide, ?_⟩
  exact hbuild ("1.2.0-rc.10".toList.map Char.toUInt8) ("b.7".toList.map Char.toUInt8) none
    (by decide) (by decide)

example : versionCompare (tag "1000000000.0.0") (tag "999999999.0.0") = -1 := by decide

end Inkwell.Version
