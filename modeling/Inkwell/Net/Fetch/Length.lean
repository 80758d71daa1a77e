import Inkwell.Codec.Http.Head
import Inkwell.Net.Fetch.Api

namespace Inkwell.Fetch
open Http Library List

theorem lower_colon : ∀ c, lower c = ':'.toUInt8 → c = ':'.toUInt8 :=
  forall_byte (by decide +kernel)

theorem tokenChar_colon : ∀ c, tokenChar c = true → c ≠ ':'.toUInt8 :=
  forall_byte (by decide +kernel)

theorem headerIs_name (hname : ∀ c ∈ name, tokenChar c) :
    headerIs (name ++ ':'.toUInt8 :: rest) (ascii "content-length:") =
      equalNocase name (ascii "content-length") := by
  have hkey :
      ascii "content-length:" = (ascii "content-length").map lower ++ [':'.toUInt8] := by decide
  have hlower : (name ++ ':'.toUInt8 :: rest).map lower =
      name.map lower ++ ':'.toUInt8 :: rest.map lower := by
    rw [map_append, map_cons]
    rfl
  have hspan (rest : Bytes) := span_eq (p := (· != ':'.toUInt8))
    (y := ':'.toUInt8 :: rest) (by
      rw [forall_mem_map]
      exact fun c hc => bne_iff_ne.mpr fun heq =>
        tokenChar_colon c (hname c hc) (lower_colon c heq))
    (by rintro c ⟨⟩; rfl)
  unfold headerIs equalNocase
  rw [Bool.eq_iff_iff, beq_iff_eq, beq_iff_eq, map_take, hlower, hkey]
  constructor
  · intro h
    have hall := take_append_drop ((ascii "content-length").map lower ++ [':'.toUInt8]).length
      (name.map lower ++ ':'.toUInt8 :: rest.map lower)
    rw [h, append_assoc] at hall
    have hname := (hspan (rest.map lower)).1
    rw [← hall] at hname
    exact hname.symm.trans (span_eq (by decide +kernel) (by rintro c ⟨⟩; rfl)).1
  · intro h
    rw [h]
    rfl

theorem contentLengthFrom_false (h : LF ∉ line) (rest : Bytes) :
    contentLengthFrom false (line ++ LF :: rest) = contentLengthFrom true rest := by
  induction line with
  | nil => rfl
  | cons c _ ih =>
    obtain ⟨hc, hline⟩ := not_or.mp (mt mem_cons.mpr h)
    have hnext : (c == LF) = false := beq_eq_false_iff_ne.mpr (Ne.symm hc)
    rw [cons_append, contentLengthFrom, Bool.false_and, if_neg Bool.false_ne_true, hnext]
    exact ih hline

theorem contentLengthFrom_line (h : LF ∉ line) (rest : Bytes) :
    contentLengthFrom true (line ++ LF :: rest) =
      if headerIs (line ++ LF :: rest) (ascii "content-length:") then
        contentLengthValue ((line ++ LF :: rest).drop (ascii "content-length:").length)
      else contentLengthFrom true rest := by
  have hother := contentLengthFrom_false h rest
  cases line with
  | nil => rfl
  | cons =>
    rw [cons_append, contentLengthFrom, Bool.false_and, if_neg Bool.false_ne_true] at hother
    rw [cons_append, contentLengthFrom, Bool.true_and, hother]

theorem leadingNumber_digits (h : parseLengthFrom parsed text = some n)
    (hrest : ∀ c ∈ rest.head?, digit c = false) : leadingNumber parsed (text ++ rest) = some n := by
  induction text generalizing parsed with
  | nil =>
    cases rest with
    | nil => exact h
    | cons c =>
      rw [nil_append, leadingNumber, hrest c rfl]
      exact h
  | cons c _ ih =>
    unfold parseLengthFrom at h
    rw [cons_append, leadingNumber]
    split at h
    · cases h
    rename_i hgo
    rw [Bool.or_eq_true, not_or, decide_eq_true_eq] at hgo
    rw [if_neg hgo.1, if_neg hgo.2]
    exact ih h

theorem blank_not_digit : ∀ c, blank c = true → digit c = false := forall_byte (by decide +kernel)

theorem contentLengthValue_trim (h : Spells (trim value) n)
    (hrest : ∀ c ∈ rest.head?, digit c = false) : contentLengthValue (value ++ rest) = some n := by
  obtain ⟨before, after, hvalue, hbefore, -, -, hafter⟩ := exists_span blank value
  have hback : after.rdropWhile blank ++ after.rtakeWhile blank = after :=
    rdropWhile_append_rtakeWhile
  have hblanks : ∀ c ∈ after.rtakeWhile blank, blank c = true := fun c hc => mem_rtakeWhile_imp hc
  rw [trim, hafter] at h
  generalize after.rdropWhile blank = text at h hback
  generalize after.rtakeWhile blank = blanks at hback hblanks
  have hstop : ∀ c ∈ (blanks ++ rest).head?, digit c = false := by
    cases blanks with
    | nil => exact hrest
    | cons c =>
      rintro _ ⟨⟩
      exact blank_not_digit c (hblanks c mem_cons_self)
  have hparse := parseLength_iff.mpr h
  obtain ⟨c, text, rfl⟩ := exists_cons_of_ne_nil h.some
  have hc := h.digits c mem_cons_self
  have hdrop : (before ++ (c :: text ++ (blanks ++ rest))).dropWhile blank =
      c :: text ++ (blanks ++ rest) := by
    refine (span_eq hbefore ?_).2
    rintro _ ⟨⟩
    exact Bool.eq_false_iff.mpr fun hblank => by
      rw [blank_not_digit c hblank] at hc
      cases hc
  rw [hvalue, ← hback, append_assoc, append_assoc, contentLengthValue, hdrop]
  simp only [cons_append, head?_cons, Option.any_some, hc, if_true]
  exact leadingNumber_digits hparse hstop

theorem splitHeader_eq (h : splitHeader line = some (name, value)) :
    (∀ c ∈ name, tokenChar c) ∧ ∃ text, line = name ++ ':'.toUInt8 :: text ∧ value = trim text := by
  obtain ⟨_, after, rfl, hbefore, -, htake, hdrop⟩ := exists_span tokenChar line
  unfold splitHeader at h
  rw [htake, hdrop] at h
  cases after with
  | nil => cases h
  | cons c text =>
    simp only [Option.ite_none_left_eq_some, Option.some.injEq, Prod.mk.injEq, not_or, not_not] at h
    obtain ⟨⟨_, rfl⟩, _, rfl, rfl⟩ := h
    exact ⟨hbefore, text, rfl, rfl⟩

theorem contentLengthFrom_lines (h : ∀ line ∈ lines, Inner line)
    (hsplit : (lines.map stripCr).mapM splitHeader = some headers)
    (hvalues : ∀ value ∈ valuesOf (ascii "content-length") headers, Spells value n) :
    contentLengthFrom true (linesText lines ++ lineEnd crlf) =
      if valuesOf (ascii "content-length") headers = [] then none else some n := by
  induction lines generalizing headers with
  | nil =>
    cases hsplit
    cases crlf <;> rfl
  | cons line _ ih =>
    obtain ⟨hline, hlines⟩ := forall_mem_cons.mp h
    rw [map_cons, splitHeaders_cons] at hsplit
    obtain ⟨⟨name, _⟩, _, hheader, hrest, rfl⟩ := hsplit
    obtain ⟨hname, text, htext, rfl⟩ := splitHeader_eq hheader
    obtain ⟨cr, hcr, hraw⟩ : ∃ cr, (cr = [] ∨ cr = [CR]) ∧
      line = name ++ ':'.toUInt8 :: (text ++ cr) := by
      rcases stripCr_cases line with heq | heq
      · exact ⟨[], .inl rfl, by rw [heq, htext, append_nil]⟩
      · exact ⟨[CR], .inr rfl, by rw [heq, htext, append_assoc]; rfl⟩
    rw [linesText_cons, append_assoc, append_assoc, singleton_append,
      contentLengthFrom_line hline.1]
    rw [valuesOf_cons] at hvalues ⊢
    subst hraw
    rw [append_assoc, cons_append, append_assoc, headerIs_name hname]
    split
    · rename_i hlength
      rw [if_pos hlength] at hvalues
      have hlen : (ascii "content-length:").length = name.length + 1 := by
        have hsame := congrArg List.length (beq_iff_eq.mp hlength)
        rw [length_map, length_map] at hsame
        rw [hsame]
        rfl
      rw [if_neg nofun, hlen, drop_length_add_append, drop_one, tail_cons]
      apply contentLengthValue_trim (hvalues _ mem_cons_self)
      rcases hcr with rfl | rfl
      · rintro c ⟨⟩
        rfl
      · rintro c ⟨⟩
        rfl
    · rename_i hother
      rw [if_neg hother] at hvalues
      exact ih hlines hrest hvalues

theorem statusOf_other (h : statusOf (stripCr first) = some status) :
    headerIs (first ++ rest) (ascii "content-length:") = false := by
  have hfirst : (stripCr first).take 7 = ascii "HTTP/1." := by
    by_contra hne
    rw [statusOf, if_pos (.inr (.inl hne))] at h
    cases h
  have hall := take_append_drop 7 (stripCr first)
  rw [hfirst] at hall
  obtain ⟨tail, htail⟩ : ∃ tail, first = 'H'.toUInt8 :: tail := by
    rcases stripCr_cases first with heq | heq
    · exact ⟨_, by rw [heq, ← hall]; rfl⟩
    · exact ⟨_, by rw [heq, ← hall]; rfl⟩
  rw [htail]
  rfl

/-- The two readings of the length in a head that was accepted agree: the search of its bytes, and
the header the parser gives. -/
theorem fetchContentLength_header (headRequest : Bool) (pieces : List Bytes)
    (hfed : feedPieces (responseInit headRequest) pieces = ⟨r, out, used⟩)
    (hdone : responseHeadDone r) :
    (∀ v, fetchContentLength r.head = some v ↔
      ∃ text, responseHeader r (ascii "content-length") = some text ∧ Spells text v) ∧
    ((fetchContentLength r.head).isSome = (responseHeader r (ascii "content-length")).isSome) ∧
    (r.framing = .length → fetchContentLength r.head = some r.contentLength) := by
  rw [feedPieces_eq_run (responseInit_counted headRequest)] at hfed
  obtain ⟨_, _, _, -, hs⟩ := run_settled hfed hdone
  obtain ⟨_ | ⟨_, _⟩, _, hhead, hne, hinner⟩ := hs.head.text
  · exact absurd rfl hne
  have hheaded := hs.head
  rw [hhead, headed_iff hinner] at hheaded
  obtain ⟨hstatus, headers, hsplit, hlengths, -⟩ := hheaded
  obtain ⟨hfirst, hlines⟩ := forall_mem_cons.mp hinner
  have hheader : responseHeader r (ascii "content-length") =
      (valuesOf (ascii "content-length") headers).head? := by
    rw [responseHeader, if_pos hdone, hhead, headLines_text hinner, map_cons, cons_append,
      tail_cons]
    apply findHeader_values _ hsplit
    exact forall_mem_map.mpr fun line hl => stripCr_inner (hlines line hl)
  have hlength {n : Nat} (hvalues : ∀ value ∈ valuesOf (ascii "content-length") headers,
      Spells value n) :
      fetchContentLength r.head =
        if valuesOf (ascii "content-length") headers = [] then none else some n := by
    rw [fetchContentLength, hhead, linesText_cons, append_assoc, append_assoc, singleton_append,
      contentLengthFrom_line hfirst.1, statusOf_other hstatus, if_neg Bool.false_ne_true]
    exact contentLengthFrom_lines hlines hsplit hvalues
  rw [hheader]
  cases hvalues : valuesOf (ascii "content-length") headers with
  | nil =>
    rw [hvalues] at hlength hlengths
    rw [hlength (n := 0) (forall_mem_nil _), if_pos rfl]
    refine ⟨fun v => ⟨nofun, nofun⟩, rfl, fun hf => ?_⟩
    obtain ⟨n, hn⟩ := framingOf_length (hs.framing.symm.trans hf)
    cases (hlengths.none rfl).symm.trans hn
  | cons value =>
    rw [hvalues] at hlength hlengths
    obtain ⟨n, hn, hvalue⟩ := hlengths.all value mem_cons_self
    rw [hlength, if_neg nofun]
    · refine ⟨fun v => ⟨?_, ?_⟩, rfl, fun hf => ?_⟩
      · rintro ⟨⟩
        exact ⟨value, rfl, hvalue⟩
      · rintro ⟨_, ⟨⟩, htext⟩
        rw [← hvalue.value, htext.value]
      · rw [hs.contentLength, if_pos hf, hn]
        rfl
    · intro value' hmem
      obtain ⟨m, hm, hvalue'⟩ := hlengths.all value' hmem
      cases hn.symm.trans hm
      exact hvalue'

def sevenHead : Bytes := ascii "HTTP/1.1 200 OK\r\ncontent-LENGTH:  7 \r\n\r\n"

theorem fetchContentLength_header_seven :
    let r := (feedPieces (responseInit false) [sevenHead]).state
    responseHeadDone r ∧
      (r.framing = .length → fetchContentLength r.head = some r.contentLength) := by
  have hdone : responseHeadDone (feedPieces (responseInit false) [sevenHead]).state := by decide
  have heta (o : Library.Outcome Response UInt8) : o = ⟨o.state, o.output, o.used⟩ := rfl
  exact ⟨hdone, (fetchContentLength_header false [sevenHead] (heta _) hdone).2.2⟩

end Inkwell.Fetch
