import Inkwell.Codec.Json.Token

namespace Inkwell.Json
open Http Library
open List hiding tail

/-- A document as a tree; its texts are the bytes of their UTF-8. -/
inductive Value where
  | object (members : List (Bytes × Value))
  | array (elements : List Value)
  | string (text : Bytes)
  | number (value : Nat)
  | bool (value : Bool)
  | null

inductive Value.Within (size : Nat) : Value → Prop
  | object (keys : ∀ m ∈ members, m.1.length < size)
      (values : ∀ m ∈ members, Within size m.2) : Within size (.object members)
  | array (elements : ∀ v ∈ values, Within size v) : Within size (.array values)
  | string (h : text.length < size) : Within size (.string text)
  | number (n : Nat) : Within size (.number n)
  | bool (b : Bool) : Within size (.bool b)
  | null : Within size .null

def Value.scalar : Value → Bool
  | .object _ => false
  | .array _ => false
  | _ => true

inductive Letter : Char → Bytes → Prop
  | raw (quote_ne : c ≠ '"') (backslash_ne : c ≠ '\\') (nul_ne : c ≠ '\x00') :
      Letter c (String.utf8EncodeChar c)
  | short (h : (e, c) ∈ shortEscapes) : Letter c [backslash, e]
  | code (nul_ne : c ≠ '\x00') (h₁ : HexDigit c₁ d₁) (h₂ : HexDigit c₂ d₂) (h₃ : HexDigit c₃ d₃)
      (h₄ : HexDigit c₄ d₄) (value : c.toNat = d₁ * 4096 + d₂ * 256 + d₃ * 16 + d₄) :
      Letter c [backslash, 'u'.toUInt8, c₁, c₂, c₃, c₄]

inductive Letters : List Char → Bytes → Prop
  | nil : Letters [] []
  | cons (letter : Letter c written) (letters : Letters text rest) :
      Letters (c :: text) (written ++ rest)

inductive SpellsKey : Bytes → Bytes → Prop
  | mk (h : Letters letters text) (gap_blank : Blank gap) :
      SpellsKey (utf8 letters) (quote :: (text ++ quote :: (gap ++ [colon])))

mutual
/-- The texts a tree can be written as. -/
inductive Spells : Value → Bytes → Prop
  | object (h : SpellsMembers true members text) : Spells (.object members) (openBrace :: text)
  | array (h : SpellsElements true elements text) : Spells (.array elements) (openBracket :: text)
  | string (h : Letters letters text) : Spells (.string (utf8 letters)) (quote :: (text ++ [quote]))
  | number (digits_ne : digits ≠ []) (all : ∀ c ∈ digits, digit c)
      (value : decimal 0 digits ≤ uint64Max) : Spells (.number (decimal 0 digits)) digits
  | yes : Spells (.bool true) (ascii "true")
  | no : Spells (.bool false) (ascii "false")
  | null : Spells .null (ascii "null")

inductive SpellsMembers : Bool → List (Bytes × Value) → Bytes → Prop
  | close (h : Blank gap) : SpellsMembers first [] (gap ++ [closeBrace])
  | member (lead_ok : Lead first lead) (key_ok : SpellsKey key keyText) (gap_blank : Blank gap)
      (value_ok : Spells value text) (more_ok : SpellsMembers false members more) :
      SpellsMembers first ((key, value) :: members) (lead ++ (keyText ++ (gap ++ (text ++ more))))

inductive SpellsElements : Bool → List Value → Bytes → Prop
  | close (h : Blank gap) : SpellsElements first [] (gap ++ [closeBracket])
  | element (lead_ok : Lead first lead) (value_ok : Spells value text)
      (more_ok : SpellsElements false elements more) :
      SpellsElements first (value :: elements) (lead ++ (text ++ more))
end

/-- A value that is not a container: what none of the reads takes is passed over. -/
@[grind =] def walkScalar (size : Nat) (json : Cursor) : Option (Value × Cursor) :=
  match readString json size with
  | (some text, json) => some (.string (cText text), json)
  | (none, json) =>
    match readU64 json with
    | (some n, json) => some (.number n, json)
    | (none, json) =>
      match readBool json with
      | (some b, json) => some (.bool b, json)
      | (none, json) =>
        match skipValue json with
        | (true, json) => some (.null, json)
        | (false, _) => none

mutual
@[grind =] def walkValue (size : Nat) : Nat → Cursor → Option (Value × Cursor)
  | 0, _ => none
  | fuel + 1, json =>
    match enterObject json with
    | (true, json) => (walkMembers size fuel json).map fun (members, json) =>
        (.object members, json)
    | (false, json) =>
      match enterArray json with
      | (true, json) =>
        (walkElements size fuel json).map fun (elements, json) => (.array elements, json)
      | (false, json) => walkScalar size json

@[grind =] def walkMembers (size : Nat) : Nat → Cursor → Option (List (Bytes × Value) × Cursor)
  | 0, _ => none
  | fuel + 1, json =>
    match nextKey json size with
    | (none, json) => some ([], json)
    | (some key, json) =>
      match walkValue size fuel json with
      | none => none
      | some (value, json) =>
        (walkMembers size fuel json).map fun (members, json) =>
        ((cText key, value) :: members, json)

@[grind =] def walkElements (size : Nat) : Nat → Cursor → Option (List Value × Cursor)
  | 0, _ => none
  | fuel + 1, json =>
    match nextElement json with
    | (false, json) => some ([], json)
    | (true, json) =>
      match walkValue size fuel json with
      | none => none
      | some (value, json) =>
        (walkElements size fuel json).map fun (elements, json) => (value :: elements, json)
end

/-- The recursive walk of a document with buffers of `size` bytes. -/
def walk (size : Nat) (json : Cursor) : Option (Value × Cursor) :=
  walkValue size json.text.length json

theorem Letter.glyph (h : Letter c written) : Glyph c written := by
  cases h with
  | raw quote_ne backslash_ne => exact .raw quote_ne backslash_ne
  | short he => exact .short he
  | code _ h₁ h₂ h₃ h₄ value => exact .code h₁ h₂ h₃ h₄ value

theorem Letters.glyphs (h : Letters letters text) : Glyphs letters text := by
  induction h with
  | nil => exact .nil
  | cons letter _ ih => exact .cons letter.glyph ih

theorem Letter.nul_free (h : Letter c written) : (0 : UInt8) ∉ String.utf8EncodeChar c := by
  have hc : c ≠ '\x00' := by
    cases h with
    | raw _ _ nul_ne
    | code nul_ne => exact nul_ne
    | short he =>
      rintro rfl
      simp [shortEscapes] at he
  exact not_mem_utf8 (by decide) fun h => hc (Char.toNat_inj.mp h)

theorem Letters.nul_free (h : Letters letters text) : (0 : UInt8) ∉ utf8 letters := by
  induction h with
  | nil => exact not_mem_nil
  | cons letter _ ih =>
    intro hmem
    rcases mem_append.mp hmem with hmem | hmem
    · exact letter.nul_free hmem
    · exact ih hmem

theorem cText_letters (h : Letters letters text) : cText (utf8 letters) = utf8 letters := by
  rw [cText, takeWhile_eq_self_iff]
  intro b hb
  rw [bne_iff_ne]
  rintro rfl
  exact h.nul_free hb

theorem SpellsKey.cText (h : SpellsKey key text) : cText key = key := by
  obtain ⟨hletters, -⟩ := h
  exact cText_letters hletters

theorem readString_letters (hg : Blank gap) (h : Letters letters text)
    (hfit : (utf8 letters).length < size) :
    readString ⟨gap ++ quote :: (text ++ quote :: rest), b⟩ size =
      (some (utf8 letters), ⟨rest, b⟩) := by
  rw [readString_glyphs rest hg h.glyphs, fitting_self (by omega)]

theorem walkScalar_string (h : Letters letters text) (hfit : (utf8 letters).length < size) :
    walkScalar size ⟨quote :: (text ++ quote :: rest), b⟩ =
      some (.string (utf8 letters), ⟨rest, b⟩) := by
  have hread : readString ⟨quote :: (text ++ quote :: rest), b⟩ size =
      (some (utf8 letters), ⟨rest, b⟩) := readString_letters .nil h hfit
  simp only [walkScalar, hread, cText_letters h]

theorem walkScalar_number (digits_ne : digits ≠ []) (all : ∀ c ∈ digits, digit c)
    (hrest : Follows rest) (hvalue : decimal 0 digits ≤ uint64Max) :
    walkScalar size ⟨digits ++ rest, b⟩ = some (.number (decimal 0 digits), ⟨rest, b⟩) := by
  have hread : readU64 ⟨digits ++ rest, b⟩ = (some (decimal 0 digits), ⟨rest, b⟩) :=
    (readU64_whole ⟨digits_ne, all⟩ hrest.no_digit).1 hvalue
  obtain ⟨c, _, rfl⟩ := exists_cons_of_ne_nil digits_ne
  obtain ⟨hspace, -, hc⟩ := digit_plain c (all c (mem_cons_self))
  have hquote : c ≠ quote := ne_of_not_mem_cons (not_mem_of_not_mem_cons hc)
  rw [cons_append] at hread ⊢
  simp only [walkScalar, readString_other hspace hquote, hread]

theorem walkScalar_word (htext : text = c :: tail) (hc : space c = false) (hq : c ≠ quote)
    (hd : digit c = false) :
    walkScalar size ⟨text, b⟩ =
      match readBool ⟨text, b⟩ with
      | (some value, json) => some (.bool value, json)
      | (none, json) =>
        match skipValue json with
        | (true, json) => some (.null, json)
        | (false, _) => none := by
  subst htext
  simp only [walkScalar, readString_other hc hq, readU64_other hc hd]

theorem walkScalar_bool (value : Bool) :
    walkScalar size ⟨ascii (toString value) ++ rest, b⟩ = some (.bool value, ⟨rest, b⟩) := by
  cases value with
  | true | false => exact walkScalar_word rfl (by decide) (by decide) (by decide)

theorem walkScalar_null (hrest : Follows rest) :
    walkScalar size ⟨ascii "null" ++ rest, b⟩ = some (.null, ⟨rest, b⟩) := by
  have hword : readBool ⟨ascii "null" ++ rest, b⟩ = (none, ⟨ascii "null" ++ rest, b⟩) := rfl
  have htext : ascii "null" ++ rest = 'n'.toUInt8 :: (ascii "ull" ++ rest) := rfl
  rw [walkScalar_word htext (by decide) (by decide) (by decide), hword]
  simp only [skipValue_word (show Word (ascii "null") from ⟨nofun, by decide +kernel⟩) hrest]

theorem nextKey_member (rest : Bytes) (hlead : Lead first lead) (hkey : SpellsKey key keyText)
    (hfit : key.length < size) :
    nextKey ⟨lead ++ (keyText ++ rest), first⟩ size = (some key, ⟨rest, false⟩) := by
  obtain @⟨_, _, _, hletters, hgap⟩ := hkey
  have hread := nextKey_glyphs rest hlead hletters.glyphs hgap size
  rw [fitting_self (by omega)] at hread
  simpa using hread

theorem nextElement_close (hg : Blank gap) :
    nextElement ⟨gap ++ closeBracket :: text, first⟩ = (false, ⟨text, false⟩) := by
  rw [nextElement, nextMember_close hg (by decide)]

theorem nextElement_element (hlead : Lead first lead) (hs : space c = false) (hc : c ≠ closeBracket)
    (hnul : c ≠ 0) : nextElement ⟨lead ++ c :: text, first⟩ = (true, ⟨c :: text, false⟩) := by
  obtain ⟨_, hgap, hnext⟩ := nextMember_lead hlead hs hc (by decide)
  rw [nextElement, hnext]
  simp [peek_on hgap hs, hnul]

theorem Spells.head (h : Spells v text) :
    ∃ c tail, text = c :: tail ∧ space c = false ∧ c ≠ closeBracket ∧ c ≠ 0 ∧
      (v.scalar → c ≠ openBrace ∧ c ≠ openBracket) := by
  cases h with
  | object | array => exact ⟨_, _, rfl, by decide, by decide, by decide, nofun⟩
  | string => exact ⟨_, _, rfl, by decide, by decide, by decide, fun _ => by decide⟩
  | number digits_ne all =>
    obtain ⟨c, digits, rfl⟩ := exists_cons_of_ne_nil digits_ne
    obtain ⟨hspace, -, hc⟩ := digit_plain c (all c (mem_cons_self))
    simp only [mem_cons, not_mem_nil, or_false, not_or] at hc
    exact ⟨c, digits, rfl, hspace, hc.2.2.2.2, hc.1, fun _ => ⟨hc.2.2.1, hc.2.2.2.1⟩⟩
  | yes | no | null => exact ⟨_, _, rfl, by decide⟩

theorem Spells.length_pos (h : Spells v text) : 0 < text.length := by
  obtain ⟨_, _, rfl, -⟩ := h.head
  exact Nat.succ_pos _

theorem SpellsMembers.length_pos (h : SpellsMembers first ms text) : 0 < text.length := by
  cases h with
  | close => simp
  | member _ _ _ value_ok =>
    have := value_ok.length_pos
    simp only [length_append]
    omega

theorem SpellsElements.length_pos (h : SpellsElements first vs text) : 0 < text.length := by
  cases h with
  | close => simp
  | element _ value_ok =>
    have := value_ok.length_pos
    simp only [length_append]
    omega

theorem SpellsMembers.follows (h : SpellsMembers false members text) (rest : Bytes) :
    Follows (text ++ rest) := by
  cases h with
  | close hg =>
    rw [append_assoc]
    exact follows_gap hg (by decide)
  | member hlead =>
    rw [append_assoc]
    exact hlead.follows

theorem SpellsElements.follows (h : SpellsElements false elements text) (rest : Bytes) :
    Follows (text ++ rest) := by
  cases h with
  | close hg =>
    rw [append_assoc]
    exact follows_gap hg (by decide)
  | element hlead =>
    rw [append_assoc]
    exact hlead.follows

theorem walkValue_object (hg : Blank gap) :
    walkValue size (fuel + 1) ⟨gap ++ openBrace :: text, first⟩ =
      (walkMembers size fuel ⟨text, true⟩).map fun (members, json) => (.object members, json) := by
  rw [walkValue, enterObject, take_hit hg (by decide)]

theorem walkValue_array (hg : Blank gap) :
    walkValue size (fuel + 1) ⟨gap ++ openBracket :: text, first⟩ =
      (walkElements size fuel ⟨text, true⟩).map fun (elements, json) =>
      (.array elements, json) := by
  have henter : enterArray ⟨openBracket :: text, first⟩ = (true, ⟨text, true⟩) := by
    rw [enterArray, show openBracket :: text = [] ++ openBracket :: text from rfl,
      take_hit .nil (by decide)]
  rw [walkValue, enterObject, take_miss hg (by decide) (by decide)]
  simp only [henter]

theorem walkValue_scalar (hg : Blank gap) (htext : text = c :: tail) (hs : space c = false)
    (hbrace : c ≠ openBrace) (hbracket : c ≠ openBracket) :
    walkValue size (fuel + 1) ⟨gap ++ text, first⟩ = walkScalar size ⟨text, first⟩ := by
  subst htext
  have henter : enterArray ⟨c :: tail, first⟩ = (false, ⟨c :: tail, first⟩) := by
    rw [enterArray, show c :: tail = [] ++ c :: tail from rfl, take_miss .nil hs hbracket]
    rfl
  rw [walkValue, enterObject, take_miss hg hs hbrace]
  simp only [henter]

theorem walkScalar_spells (h : Spells v text) (hscalar : v.scalar) (hw : v.Within size)
    (hrest : Follows rest) : walkScalar size ⟨text ++ rest, first⟩ = some (v, ⟨rest, first⟩) := by
  cases h with
  | object | array => cases hscalar
  | string hletters =>
    obtain hfit : (utf8 _).length < size := by
      cases hw
      assumption
    rw [cons_append, append_assoc]
    exact walkScalar_string hletters hfit
  | number digits_ne all value => exact walkScalar_number digits_ne all hrest value
  | yes => exact walkScalar_bool true
  | no => exact walkScalar_bool false
  | null => exact walkScalar_null hrest

/-- What the walkers do with the texts of a tree. A container is entered with the flag set, and
leaves it cleared for the one around. -/
structure Walks (size fuel : Nat) : Prop where
  value : ∀ {v text gap rest} first, Spells v text → v.Within size → text.length ≤ fuel →
    Blank gap → Follows rest →
    walkValue size fuel ⟨gap ++ (text ++ rest), first⟩ = some (v, ⟨rest, first && v.scalar⟩)
  members : ∀ {first ms text} rest, SpellsMembers first ms text → (∀ m ∈ ms, m.1.length < size) →
    (∀ m ∈ ms, m.2.Within size) → text.length ≤ fuel →
    walkMembers size fuel ⟨text ++ rest, first⟩ = some (ms, ⟨rest, false⟩)
  elements : ∀ {first vs text} rest, SpellsElements first vs text → (∀ v ∈ vs, v.Within size) →
    text.length ≤ fuel →
    walkElements size fuel ⟨text ++ rest, first⟩ = some (vs, ⟨rest, false⟩)

theorem Walks.value_succ (ih : Walks size fuel) (first : Bool) (h : Spells v text)
    (hw : v.Within size) (hfuel : text.length ≤ fuel + 1) (hg : Blank gap) (hrest : Follows rest) :
    walkValue size (fuel + 1) ⟨gap ++ (text ++ rest), first⟩ =
      some (v, ⟨rest, first && v.scalar⟩) := by
  by_cases hscalar : v.scalar
  · obtain ⟨c, tail, htext, hs, -, -, hc⟩ := h.head
    have hhead : text ++ rest = c :: (tail ++ rest) := by rw [htext, cons_append]
    rw [walkValue_scalar hg hhead hs (hc hscalar).1 (hc hscalar).2,
      walkScalar_spells h hscalar hw hrest, hscalar, Bool.and_true]
  · cases h with
    | object hm =>
      cases hw with
      | object hkeys hvalues =>
        rw [length_cons] at hfuel
        rw [cons_append, walkValue_object hg, ih.members _ hm hkeys hvalues (by omega)]
        simp [Value.scalar]
    | array he =>
      cases hw with
      | array hvalues =>
        rw [length_cons] at hfuel
        rw [cons_append, walkValue_array hg, ih.elements _ he hvalues (by omega)]
        simp [Value.scalar]
    | string | number | yes | no | null => exact absurd rfl hscalar

theorem Walks.members_succ (ih : Walks size fuel) (rest : Bytes) (h : SpellsMembers first ms text)
    (hkeys : ∀ m ∈ ms, m.1.length < size) (hvalues : ∀ m ∈ ms, m.2.Within size)
    (hfuel : text.length ≤ fuel + 1) :
    walkMembers size (fuel + 1) ⟨text ++ rest, first⟩ = some (ms, ⟨rest, false⟩) := by
  cases h with
  | close hg => rw [append_assoc, singleton_append, walkMembers, nextKey_close hg]
  | @member _ lead _ keyText gap value text _ more hlead hkey hgap hvalue hmore =>
    have hsome := hvalue.length_pos
    have hclosed := hmore.length_pos
    simp only [length_append] at hfuel
    have hnext := nextKey_member (gap ++ (text ++ (more ++ rest))) hlead hkey
      (hkeys _ (mem_cons_self))
    have hinner := ih.value false hvalue (hvalues _ (mem_cons_self)) (by omega) hgap
      (hmore.follows rest)
    have hothers := ih.members rest hmore (fun m hm => hkeys m (mem_cons_of_mem _ hm))
      (fun m hm => hvalues m (mem_cons_of_mem _ hm)) (by omega)
    have hassoc : lead ++ (keyText ++ (gap ++ (text ++ more))) ++ rest =
        lead ++ (keyText ++ (gap ++ (text ++ (more ++ rest)))) := by
      simp only [append_assoc]
    rw [hassoc, walkMembers, hnext]
    simp only [hinner, Bool.false_and, hothers, Option.map_some, hkey.cText]

theorem Walks.elements_succ (ih : Walks size fuel) (rest : Bytes) (h : SpellsElements first vs text)
    (hvalues : ∀ v ∈ vs, v.Within size) (hfuel : text.length ≤ fuel + 1) :
    walkElements size (fuel + 1) ⟨text ++ rest, first⟩ = some (vs, ⟨rest, false⟩) := by
  cases h with
  | close hg => rw [append_assoc, singleton_append, walkElements, nextElement_close hg]
  | @element _ lead value _ _ more hlead hvalue hmore =>
    have hsome := hvalue.length_pos
    have hclosed := hmore.length_pos
    simp only [length_append] at hfuel
    have hinner := ih.value false hvalue (hvalues _ (mem_cons_self)) (by omega) .nil
      (hmore.follows rest)
    have hothers := ih.elements rest hmore (fun v hv => hvalues v (mem_cons_of_mem _ hv)) (by omega)
    obtain ⟨c, tail, rfl, hs, hclose, hnul, -⟩ := hvalue.head
    have hassoc : lead ++ (c :: tail ++ more) ++ rest = lead ++ c :: (tail ++ (more ++ rest)) := by
      simp only [append_assoc, cons_append]
    rw [nil_append, cons_append] at hinner
    rw [hassoc, walkElements, nextElement_element hlead hs hclose hnul]
    simp only [hinner, Bool.false_and, hothers, Option.map_some]

theorem walks : Walks size fuel := by
  induction fuel with
  | zero =>
    refine ⟨?_, ?_, ?_⟩
    · intro v _ _ _ _ h _ _
      exact absurd h.length_pos (by omega)
    · intro _ _ _ _ h _ _ _
      exact absurd h.length_pos (by omega)
    · intro _ _ _ _ h _ _
      exact absurd h.length_pos (by omega)
  | succ _ ih => exact ⟨ih.value_succ, ih.members_succ, ih.elements_succ⟩

/-- The walk of a document reads back its tree, whatever the whitespace in it, and ends behind
it. -/
theorem walk_spells (h : Spells v text) (hw : v.Within size) (hg : Blank gap)
    (hrest : Follows rest) :
    walk size ⟨gap ++ (text ++ rest), first⟩ = some (v, ⟨rest, first && v.scalar⟩) := by
  have hfuel : text.length ≤ (gap ++ (text ++ rest)).length := by
    simp only [length_append]
    omega
  exact walks.value first h hw hfuel hg hrest

/-- An array in an object, with an escape and a null. -/
theorem walk_spells_nested :
    walk 8 (jsonInit (ascii "\x7b\"k\": [\"\\u00E9\", null]\x7d\n") 0) =
      some (.object [(ascii "k", .array [.string [0xC3, 0xA9], .null])], ⟨ascii "\n", false⟩) := by
  have hspace : Blank (ascii " ") := by decide +kernel
  have hkey : Letters ['k'] (ascii "k") := .cons (.raw (by decide) (by decide) (by decide)) .nil
  have hstring : Letters ['é'] (ascii "\\u00E9") :=
    .cons (.code (by decide) (show HexDigit _ 0 from .inl rfl) (show HexDigit _ 0 from .inl rfl)
      (show HexDigit _ 14 from .inr rfl) (show HexDigit _ 9 from .inl rfl) (by decide)) .nil
  have hvalue : Spells (.array [.string (utf8 ['é']), .null]) (ascii "[\"\\u00E9\", null]") :=
    .array (.element (.first .nil) (.string hstring)
      (.element (.comma .nil hspace) .null (.close .nil)))
  have hobject : Spells (.object [(utf8 ['k'], .array [.string (utf8 ['é']), .null])])
      (ascii "\x7b\"k\": [\"\\u00E9\", null]\x7d") := Spells.object
    (.member (.first .nil) (.mk hkey .nil) hspace hvalue (.close .nil))
  have hwithin : Value.Within 8 (.object [(utf8 ['k'], .array [.string (utf8 ['é']), .null])]) := by
    refine .object (by decide) ?_
    intro m hm
    cases mem_singleton.mp hm
    refine .array ?_
    intro v hv
    simp only [mem_cons, not_mem_nil, or_false] at hv
    obtain rfl | rfl := hv
    · exact .string (by decide)
    · exact .null
  have hend : Follows (ascii "\n") := by decide +kernel
  have hwalk : walk 8 ⟨[] ++ (_ ++ _), false⟩ = some _ := walk_spells hobject hwithin .nil hend
  exact hwalk

end Inkwell.Json
