import Inkwell.Codec.Http.Truncated
import Inkwell.Library.Decimal

namespace Inkwell.Http
open Library
open List hiding length

/-! What a list of header fields says of the body, read as a list and not line by line. -/

def valuesOf (name : Bytes) (headers : List (Bytes × Bytes)) : List Bytes :=
  (headers.filter (equalNocase ·.1 name)).map Prod.snd

structure Spells (value : Bytes) (n : Nat) : Prop where
  some : value ≠ []
  digits : ∀ c ∈ value, digit c
  value : numeral value = n
  fits : n ≤ 18446744073709551609

/-- The one length that all these values spell, and the one found before them. -/
structure Lengths (before : Option Nat) (values : List Bytes) (length : Option Nat) : Prop where
  none : values = [] → length = before
  before : ∀ n ∈ before, length = some n
  all : ∀ value ∈ values, ∃ n, length = some n ∧ Spells value n

structure Codings (before : Bool) (values : List Bytes) (chunked : Bool) : Prop where
  count : before.toNat + values.length = chunked.toNat
  all : ∀ value ∈ values, equalNocase value (ascii "chunked")

def Refers (lines : List Bytes) (fields : Fields) : Prop :=
  ∃ headers, lines.mapM splitHeader = some headers ∧
    Lengths none (valuesOf (ascii "content-length") headers) fields.length ∧
    Codings false (valuesOf (ascii "transfer-encoding") headers) fields.chunked

theorem valuesOf_cons : valuesOf key (header :: headers) =
      if equalNocase header.1 key then header.2 :: valuesOf key headers
      else valuesOf key headers := by
  unfold valuesOf
  rw [filter_cons]
  split <;> rfl

theorem splitHeaders_cons : (line :: lines).mapM splitHeader = some headers ↔
    ∃ header rest, splitHeader line = some header ∧ lines.mapM splitHeader = some rest ∧
      header :: rest = headers := by
  simp only [mapM_cons, Option.bind_eq_bind, Option.bind_eq_some_iff, Option.pure_def,
    Option.some.injEq]
  grind

theorem parseLengthFrom_iff (hp : m ≤ 18446744073709551609) :
    parseLengthFrom m value = some n ↔ (∀ c ∈ value, digit c) ∧
      value.foldl (fun n c => n * 10 + (c.toNat - 48)) m = n ∧ n ≤ 18446744073709551609 := by
  have hgrows : ∀ (value : Bytes) n, n ≤ value.foldl (fun n c => n * 10 + (c.toNat - 48)) n := by
    intro value
    induction value with
    | nil => exact fun n => le_refl n
    | cons c _ ih =>
      intro n
      have hnext := ih (n * 10 + (c.toNat - 48))
      rw [foldl_cons]
      omega
  induction value generalizing m with
  | nil =>
    rw [parseLengthFrom, Option.some.injEq]
    refine ⟨?_, fun h => h.2.1⟩
    rintro rfl
    exact ⟨forall_mem_nil _, rfl, hp⟩
  | cons c cs ih =>
    unfold parseLengthFrom
    rw [forall_mem_cons, foldl_cons]
    split
    · rename_i hstop
      rw [Bool.or_eq_true, Bool.not_eq_true', decide_eq_true_eq] at hstop
      refine ⟨nofun, ?_⟩
      rintro ⟨⟨hc, _⟩, _, _⟩
      rcases hstop with hstop | hstop
      · rw [hc] at hstop
        cases hstop
      · have hle := hgrows cs (m * 10 + (c.toNat - 48))
        unfold uint64Max at hstop
        omega
    · rename_i hgo
      rw [Bool.or_eq_true, Bool.not_eq_true', decide_eq_true_eq, not_or, Bool.not_eq_false] at hgo
      obtain ⟨hc, hfits⟩ := hgo
      have hlt := digit_lt hc
      have hsub : (c - '0'.toUInt8).toNat = c.toNat - 48 := toNat_digit_sub c hc
      rw [hsub] at hlt ⊢
      unfold uint64Max at hfits
      have hnext := ih (m := m * 10 + (c.toNat - 48)) (by omega)
      simp only [hnext, hc, true_and]

theorem parseLength_iff : parseLength value = some n ↔ Spells value n := by
  unfold parseLength
  split
  · rename_i hnil
    exact ⟨nofun, fun h => absurd hnil h.some⟩
  · rename_i hne
    rw [parseLengthFrom_iff (Nat.zero_le _)]
    exact ⟨fun ⟨hdigits, hvalue, hfits⟩ => ⟨hne, hdigits, hvalue, hfits⟩,
      fun h => ⟨h.digits, h.value, h.fits⟩⟩

theorem lengths_cons : Lengths before (value :: values) length ↔
    ∃ n, parseLength value = some n ∧ before.any (· != n) = false ∧
      Lengths (some n) values length := by
  have hany (n : Nat) : before.any (· != n) = false ↔ ∀ m ∈ before, m = n := by
    cases before <;> simp
  simp only [hany]
  constructor
  · intro h
    obtain ⟨⟨n, hn, hvalue⟩, hvalues⟩ := forall_mem_cons.mp h.all
    refine ⟨n, parseLength_iff.mpr hvalue, ?_, fun _ => hn, ?_, hvalues⟩
    · intro m hm
      exact Option.some.inj ((h.before m hm).symm.trans hn)
    · intro m hm
      rw [← hm]
      exact hn
  · rintro ⟨n, hparse, hbefore, h⟩
    have hn := h.before n rfl
    refine ⟨nofun, ?_, forall_mem_cons.mpr ⟨⟨n, hn, parseLength_iff.mp hparse⟩, h.all⟩⟩
    intro m hm
    rw [hbefore m hm]
    exact hn

theorem codings_cons : Codings before (value :: values) chunked ↔
    before = false ∧ equalNocase value (ascii "chunked") ∧ Codings true values chunked := by
  constructor
  · rintro ⟨hcount, hall⟩
    obtain ⟨hvalue, hvalues⟩ := forall_mem_cons.mp hall
    rw [length_cons] at hcount
    cases before with
    | false =>
      rw [Bool.toNat_false, zero_add, add_comm] at hcount
      exact ⟨rfl, hvalue, hcount, hvalues⟩
    | true =>
      have hle := Bool.toNat_le chunked
      rw [Bool.toNat_true] at hcount
      omega
  · rintro ⟨rfl, hvalue, hcount, hvalues⟩
    refine ⟨?_, forall_mem_cons.mpr ⟨hvalue, hvalues⟩⟩
    rw [← hcount, length_cons, Bool.toNat_false, zero_add, add_comm]
    rfl

theorem fieldLines_iff (h : ∀ line ∈ lines, line ≠ []) :
    fieldLines a (lines ++ [[]]) = .ok fields ↔
      ∃ headers, lines.mapM splitHeader = some headers ∧
        Lengths a.length (valuesOf (ascii "content-length") headers) fields.length ∧
        Codings a.chunked (valuesOf (ascii "transfer-encoding") headers) fields.chunked := by
  induction lines generalizing a with
  | nil =>
    have hfields : a = fields ↔ fields.length = a.length ∧ a.chunked = fields.chunked := by
      rw [Fields.mk.injEq, eq_comm]
    have hcodings : Codings a.chunked [] fields.chunked ↔ a.chunked = fields.chunked := by
      refine ⟨fun h => ?_, fun h => ⟨by rw [h]; rfl, forall_mem_nil _⟩⟩
      have hcount := h.count
      revert hcount
      cases a.chunked <;> cases fields.chunked <;> decide
    have hlengths : Lengths a.length [] fields.length ↔ fields.length = a.length :=
      ⟨fun h => h.none rfl, fun h => ⟨fun _ => h, fun n hn => h.trans hn, forall_mem_nil _⟩⟩
    simp [fieldLines, valuesOf, hfields, hcodings, hlengths]
  | cons line lines ih =>
    obtain ⟨hline, hlines⟩ := forall_mem_cons.mp h
    rw [cons_append, fieldLines, if_neg hline]
    unfold fieldLine
    cases hsplit : splitHeader line with
    | none => simp [hsplit]
    | some header =>
      obtain ⟨name, value⟩ := header
      have hmap (P : List (Bytes × Bytes) → Prop) :
          (∃ headers, (line :: lines).mapM splitHeader = some headers ∧ P headers) ↔
            ∃ headers, lines.mapM splitHeader = some headers ∧ P ((name, value) :: headers) := by
        simp only [splitHeaders_cons, hsplit, Option.some.injEq]
        grind
      simp only [hmap, valuesOf_cons]
      by_cases hlength : equalNocase name (ascii "content-length")
      · have hother : equalNocase name (ascii "transfer-encoding") = false := by
          rw [equalNocase, beq_iff_eq] at hlength
          rw [equalNocase, hlength]
          decide
        simp only [hlength, hother, if_true, Bool.false_eq_true, if_false, lengths_cons]
        cases hparse : parseLength value with
        | none => simp
        | some n =>
          cases hany : a.length.any (· != n) with
          | true => simp [hany]
          | false => simpa [hany] using ih hlines
      by_cases hcoding : equalNocase name (ascii "transfer-encoding")
      · simp only [hlength, hcoding, if_true, Bool.false_eq_true, if_false, codings_cons]
        cases hchunked : a.chunked with
        | true => simp
        | false =>
          cases hvalue : equalNocase value (ascii "chunked") with
          | false => simp
          | true => simpa using ih hlines
      · simpa only [hlength, hcoding, Bool.false_eq_true, if_false] using ih hlines

theorem findHeader_values (h : ∀ line ∈ lines, line ≠ [])
    (hsplit : lines.mapM splitHeader = some headers) :
    findHeader name (lines ++ [[]]) = (valuesOf name headers).head? := by
  induction lines generalizing headers with
  | nil =>
    cases hsplit
    rfl
  | cons _ _ ih =>
    obtain ⟨hline, hlines⟩ := forall_mem_cons.mp h
    obtain ⟨_, _, hheader, hrest, rfl⟩ := splitHeaders_cons.mp hsplit
    rw [cons_append, findHeader, if_neg hline, hheader, valuesOf_cons]
    simp only
    split
    · rfl
    · exact ih hlines hrest

theorem headLines_text (h : ∀ line ∈ lines, Inner line) (crlf : Bool) :
    headLines (linesText lines ++ lineEnd crlf) = lines.map stripCr ++ [[]] := by
  induction lines with
  | nil => cases crlf <;> decide
  | cons _ lines ih =>
    obtain ⟨hline, hlines⟩ := forall_mem_cons.mp h
    have hspan := span_eq (p := (· != LF))
      (y := LF :: (linesText lines ++ lineEnd crlf))
      (fun c hc => bne_iff_ne.mpr fun heq => hline.1 (heq ▸ hc))
      (by rintro c ⟨⟩; rfl)
    rw [linesText_cons, append_assoc, append_assoc, singleton_append, headLines_nextLine (by simp),
      nextLine, hspan.1, hspan.2, tail_cons, ih hlines, map_cons, cons_append]

theorem stripCr_inner (h : Inner line) : stripCr line ≠ [] := by
  intro hnil
  rcases stripCr_cases line with heq | heq
  · exact h.2.1 (heq.trans hnil)
  · rw [hnil] at heq
    exact h.2.2 heq

theorem headed_iff (h : ∀ line ∈ first :: lines, Inner line) :
    Headed (linesText (first :: lines) ++ lineEnd crlf) status fields ↔
      statusOf (stripCr first) = some status ∧ Refers (lines.map stripCr) fields := by
  have hlines := headLines_text h crlf
  have hinner : ∀ line ∈ lines.map stripCr, line ≠ [] :=
    forall_mem_map.mpr fun line hl => stripCr_inner (h line (.tail _ hl))
  constructor
  · rintro ⟨_, _, _, heq, hstatus, hfields⟩
    cases hlines.symm.trans heq
    exact ⟨hstatus, (fieldLines_iff hinner).mp hfields⟩
  · rintro ⟨hstatus, hrefers⟩
    exact ⟨⟨_, crlf, rfl, nofun, h⟩, _, _, hlines, hstatus, (fieldLines_iff hinner).mpr hrefers⟩

theorem parseHead_refused (h : ∀ line ∈ first :: lines, Inner line)
    (hnone : ∀ fields, ¬ Refers (lines.map stripCr) fields) :
    (parseHead { responseInit headRequest with
      head := linesText (first :: lines) ++ lineEnd crlf }).1.phase = .failed := by
  have hlines := headLines_text h crlf
  rw [map_cons, cons_append] at hlines
  unfold parseHead
  simp only [hlines]
  split
  · rfl
  rename_i status hstatus
  iterate 3
    split
    · rfl
  · rename_i fields hfields
    have hhead : Headed (linesText (first :: lines) ++ lineEnd crlf) status fields :=
      ⟨⟨_, crlf, rfl, by simp, h⟩, _, _, hlines, hstatus, hfields⟩
    exact absurd ((headed_iff h).mp hhead).2 (hnone fields)

/-- A head is read as its list of header fields says, whatever came before it, and one whose fields
say nothing is refused. -/
theorem head_framed (headRequest : Bool) (pieces : List Bytes) :
    (∀ r out used, feedPieces (responseInit headRequest) pieces = ⟨r, out, used⟩ →
      responseHeadDone r →
      ∃ pre first lines crlf rest fields, pieces.flatten.take used = pre ++ r.head ++ rest ∧
        Preamble pre ∧ r.head = linesText (first :: lines) ++ lineEnd crlf ∧
        (∀ line ∈ first :: lines, Inner line) ∧
        headLines r.head = (first :: lines).map stripCr ++ [[]] ∧
        statusOf (stripCr first) = some r.status ∧ 200 ≤ r.status ∧
        Refers (lines.map stripCr) fields ∧
        r.framing = framingOf headRequest r.status fields ∧
        r.contentLength = if r.framing = .length then fields.length.getD 0 else 0) ∧
    (∀ pre first lines crlf rest, Preamble pre → (∀ line ∈ first :: lines, Inner line) →
      pieces.flatten = pre ++ (linesText (first :: lines) ++ lineEnd crlf) ++ rest →
      (∀ fields, ¬ Refers (lines.map stripCr) fields) →
      responseFailed (feedPieces (responseInit headRequest) pieces).state) := by
  rw [feedPieces_eq_run (responseInit_counted headRequest)]
  constructor
  · intro r _ _ hrun hdone
    obtain ⟨pre, rest, fields, hbytes, hs⟩ := run_settled hrun hdone
    obtain ⟨_ | ⟨first, lines⟩, crlf, hhead, hne, hinner⟩ := hs.head.text
    · exact absurd rfl hne
    have hheaded := hs.head
    rw [hhead, headed_iff hinner] at hheaded
    exact ⟨pre, first, lines, crlf, rest, fields, hbytes, hs.preamble, hhead, hinner,
      by rw [hhead]; exact headLines_text hinner crlf, hheaded.1, hs.final, hheaded.2, hs.framing,
      hs.contentLength⟩
  · intro pre first lines crlf rest hpre hinner hbytes hnone
    have hpasses : Passes (·.phase = .failed) (responseInit headRequest)
        (pre ++ (linesText (first :: lines) ++ lineEnd crlf) ++ rest) := by
      rw [append_assoc]
      apply (passes_preamble hpre).append
      intro r' hr'
      subst hr'
      apply (passes_head headRequest ⟨first :: lines, crlf, rfl, nofun, hinner⟩).append
      intro _ hr'
      exact .failed (by rw [hr']; exact parseHead_refused hinner hnone) rest
    rw [hbytes, responseFailed, beq_iff_eq]
    exact hpasses.state.elim id id

/-- A header line without a colon. -/
theorem head_framed_colonless :
    let first := ascii "HTTP/1.1 200 OK\r"
    let line := ascii "Content-Length 1\r"
    (∀ fields, ¬Refers [stripCr line] fields) ∧
      responseFailed (feedPieces (responseInit false)
        [linesText [first, line] ++ lineEnd true]).state := by
  intro first line
  have hnone : ∀ fields, ¬Refers [stripCr line] fields := by
    rintro _ ⟨_, hsplit, -⟩
    cases hsplit
  refine ⟨hnone, (head_framed false _).2 [] first [line] true [] .nil ?_ (by simp) hnone⟩
  unfold Inner
  decide

end Inkwell.Http
