import Inkwell.Codec.Json.Skip

namespace Inkwell.Json
open Http Library List

/-- The members of an object from some point on. A member is its key and the text from its value
on, with what is behind the value. -/
inductive Members : Bool → List (List Char × Bytes) → Bytes → Prop
  | close (h : Blank gap) : Members first [] (gap ++ [closeBrace])
  | member (lead_ok : Lead first lead) (key_ok : Glyphs letters text) (before : Blank gap)
      (after : Blank gap') (value_ok : Written .value n value) (depth : n ≤ 32)
      (more_ok : Members false members more) :
      Members first ((letters, value ++ more) :: members)
        (lead ++ quote :: (text ++ quote :: (gap ++ colon :: (gap' ++ (value ++ more)))))

/-- The key as the search compares it: cut to its buffer, up to a NUL. -/
def seen (letters : List Char) : Bytes := cText (utf8 (fitting 63 letters))

/-- Up to the first member with the key, no other is taken for it, nor is that one missed. -/
def Told (key : Bytes) : List (List Char × Bytes) → Prop
  | [] => True
  | (letters, _) :: members =>
    (seen letters = key ↔ utf8 letters = key) ∧ (utf8 letters = key ∨ Told key members)

/-- A search with the keys so read: the cursor is on the first value with the key, up to
whitespace, or nothing is found if there is none. -/
def Finds (name : List Char → Bytes) (key rest : Bytes) (found : Bool × Cursor) :
    List (List Char × Bytes) → Prop
  | [] => found.1 = false
  | (letters, onward) :: members =>
    if name letters = key then found.1 = true ∧ found.2.onValue.text = onward ++ rest
    else Finds name key rest found members

theorem Members.follows (h : Members false members text) (rest : Bytes) :
    Follows (text ++ rest) := by
  cases h with
  | close hgap =>
    rw [append_assoc]
    exact follows_gap hgap (by decide)
  | member lead_ok =>
    rw [append_assoc]
    exact lead_ok.follows

theorem Written.head (h : Written .value n text) :
    ∃ c tail, text = c :: tail ∧ space c = false := by
  cases h with
  | string | object | array => exact ⟨_, _, rfl, by decide⟩
  | number n =>
    obtain ⟨c, tail, htext⟩ := exists_cons_of_ne_nil n.word.1
    exact ⟨c, tail, htext, (plain_not c (n.word.2 c (htext ▸ .head _))).2.1⟩
  | word h =>
    have hword := word_literal h
    obtain ⟨c, tail, rfl⟩ := exists_cons_of_ne_nil hword.1
    exact ⟨c, tail, rfl, (plain_not c (hword.2 c (.head _))).2.1⟩

theorem onValue_value (hg : Blank gap) (h : Written .value n value) :
    Cursor.onValue ⟨gap ++ (value ++ rest), b⟩ = ⟨value ++ rest, b⟩ := by
  obtain ⟨_, _, rfl, hspace⟩ := h.head
  simp only [Cursor.onValue, cons_append, skipSpace_blank hg hspace]

theorem findKey_member (key : Bytes) (hlead : Lead first lead) (hkey : Glyphs letters text)
    (hbefore : Blank gap) (hafter : Blank gap') (hvalue : Written .value n value) (hn : n ≤ 32)
    (hrest : Follows rest) (fuel : Nat) :
    findKey key (fuel + 1)
        ⟨lead ++ quote :: (text ++ quote :: (gap ++ colon :: (gap' ++ (value ++ rest)))), first⟩ =
      if seen letters = key then (true, ⟨gap' ++ (value ++ rest), false⟩)
      else findKey key fuel ⟨rest, false⟩ := by
  have hskip : skipValue ⟨gap' ++ (value ++ rest), false⟩ = (true, ⟨rest, false⟩) := by
    rw [← skipValue_onValue, onValue_value hafter hvalue]
    exact (hvalue.skipValue hrest).1 hn
  rw [findKey, nextKey_glyphs _ hlead hkey hbefore]
  simp only [hskip]
  rfl

theorem findKey_finds (h : Members first members text) (hfuel : members.length < fuel) :
    Finds seen key rest (findKey key fuel ⟨text ++ rest, first⟩) members := by
  induction h generalizing fuel with
  | close hgap =>
    obtain ⟨_, rfl⟩ := Nat.exists_eq_add_one.mpr (Nat.zero_lt_of_lt hfuel)
    rw [append_assoc, singleton_append, findKey, nextKey_close hgap]
    rfl
  | @member _ lead _ text gap gap' n value _ more hlead hkey hbefore hafter hvalue hn
      hmore ih =>
    obtain ⟨fuel, rfl⟩ := Nat.exists_eq_add_one.mpr (Nat.zero_lt_of_lt hfuel)
    have hstep := findKey_member key hlead hkey hbefore hafter hvalue hn (hmore.follows rest) fuel
    have htext :
        lead ++ quote :: (text ++ quote :: (gap ++ colon :: (gap' ++ (value ++ more)))) ++ rest =
        lead ++
          quote :: (text ++ quote :: (gap ++ colon :: (gap' ++ (value ++ (more ++ rest))))) := by
      simp
    rw [htext, hstep, Finds]
    split
    · refine ⟨rfl, ?_⟩
      rw [onValue_value hafter hvalue, append_assoc]
    · exact ih (Nat.lt_of_succ_lt_succ hfuel)

theorem Finds.within (h : Members first members text) (hf : Finds name key rest found members)
    (htrue : found.1) : found.2.onValue.text.length ≤ text.length + rest.length := by
  induction h with
  | close => cases htrue.symm.trans hf
  | member _ _ _ _ _ _ _ ih =>
    rw [Finds] at hf
    simp only [length_append, length_cons]
    split at hf
    · rw [hf.2]
      simp only [length_append]
      omega
    · have := ih hf
      omega

/-- A search that goes by `seen` is right if and only if the keys are told apart by it. -/
theorem Finds.told (h : Members first members text) (hf : Finds seen key rest found members) :
    Finds utf8 key rest found members ↔ Told key members := by
  induction h with
  | close => exact iff_of_true hf trivial
  | @member _ _ letters _ _ _ _ value _ more _ _ _ _ hvalue _ hmore ih =>
    obtain ⟨_, _, htail, -⟩ := hvalue.head
    have hlonger : more.length + rest.length < (value ++ more ++ rest).length := by
      rw [htail]
      simp only [length_append, length_cons]
      omega
    rw [Finds] at hf ⊢
    rw [Told]
    by_cases hkey : utf8 letters = key <;> by_cases hseen : seen letters = key
    · rw [if_pos hseen] at hf
      simp [hkey, hseen, hf]
    · rw [if_neg hseen] at hf
      rw [if_pos hkey]
      refine iff_of_false (fun hfound => ?_) fun htold => hseen (htold.1.mpr hkey)
      have := hf.within hmore hfound.1
      rw [hfound.2] at this
      omega
    · rw [if_pos hseen] at hf
      rw [if_neg hkey]
      refine iff_of_false (fun hfound => ?_) fun htold => hkey (htold.1.mp hseen)
      have := hfound.within hmore hf.1
      rw [hf.2] at this
      omega
    · rw [if_neg hseen] at hf
      simp [hkey, hseen, ih hf]

theorem Members.length_le (h : Members first members text) : members.length < text.length := by
  induction h with
  | close => simp
  | member =>
    simp only [length_append, length_cons]
    omega

/-- An object is searched for a key as it should be if and only if its keys are told apart by
what is read of them. -/
theorem objectFind_iff (h : Members true members text) (hg : Blank gap) (key rest : Bytes)
    (first : Bool) :
    Finds utf8 key rest (objectFind ⟨gap ++ openBrace :: (text ++ rest), first⟩ key) members ↔
      Told key members := by
  have henter :
      enterObject ⟨gap ++ openBrace :: (text ++ rest), first⟩ = (true, ⟨text ++ rest, true⟩) := by
    rw [enterObject, take_hit hg (by decide)]
  have hfuel : members.length < (text ++ rest).length + 1 := by
    have := h.length_le
    rw [length_append]
    omega
  rw [objectFind, henter]
  exact (findKey_finds h hfuel).told h

theorem objectFind_iff_single :
    Finds utf8 (ascii "a") [] (objectFind ⟨ascii "\x7b\"a\":7\x7d", false⟩ (ascii "a"))
      [(['a'], ascii "7\x7d")] := by
  have hkey : Glyphs ['a'] (ascii "a") := .cons (.raw (by decide) (by decide)) .nil
  have hmembers : Members true [(['a'], ascii "7\x7d")] (ascii "\"a\":7\x7d") :=
    .member (.first .nil) hkey .nil .nil (.number seven) (Nat.zero_le _) (.close .nil)
  exact (objectFind_iff hmembers .nil (ascii "a") [] false).mpr ⟨by decide, .inl rfl⟩

/-- A key is read up to its 63rd byte. -/
theorem long_key_taken_for_another :
    objectFind ⟨openBrace :: quote :: (List.replicate 64 97 ++ ascii "\":1\x7d"), false⟩
        (List.replicate 63 97) = (true, ⟨ascii "1\x7d", false⟩) := by
  decide +kernel

end Inkwell.Json
