import Inkwell.Codec.Http.Location

namespace Inkwell.Http
open Library
open List hiding after

inductive Produced : Url → Prop
  | parsed (h : urlParse text = some url) : Produced url
  | resolved (hbase : Produced base) (h : urlResolve base location = some url) : Produced url

structure Sendable (url : Url) : Prop where
  host : ∀ c ∈ url.host, urlByteOk c
  target : Target url.target

theorem urlParse_sendable (h : urlParse text = some url) : Sendable url := by
  obtain ⟨-, _, _, _, hparsed⟩ := urlParse_sound h
  exact ⟨fun c hc => (hparsed.plain c (hparsed.split.host_mem c hc)).1, hparsed.target_ok⟩

theorem urlResolve_sendable (hbase : Sendable base) (h : urlResolve base location = some url) :
    Sendable url := by
  have hset : ∀ rest, urlSetTarget base rest = some url → Sendable url := by
    intro _ hrest
    obtain ⟨hplain, -, rfl⟩ := urlSetTarget_iff.mp hrest
    exact ⟨hbase.host, targetOf_target hplain⟩
  unfold urlResolve at h
  simp only at h
  split at h
  · cases h
  split at h
  · exact urlParse_sendable h
  split at h
  · generalize ascii (if base.tls then "https" else "http") = scheme at h
    split at h
    · cases h
    · exact urlParse_sendable h
  split at h
  · cases h
    exact hbase
  split at h
  · exact hset _ h
  · generalize (if location.head? = some '?'.toUInt8 then _ else _) = keep at h
    split at h
    · cases h
    · exact hset _ h

theorem Produced.sendable (h : Produced url) : Sendable url := by
  induction h with
  | parsed h => exact urlParse_sendable h
  | resolved _ h ih => exact urlResolve_sendable ih h

def crlfText (lines : List Bytes) : Bytes := (lines.map (· ++ [CR, LF])).flatten

def OneLine (line : Bytes) : Prop := CR ∉ line ∧ LF ∉ line

theorem formatHeaders_spec (h : formatHeaders cap out headers = some text) :
    text = out ++ crlfText headers ∧ ∀ header ∈ headers, OneLine header := by
  induction headers generalizing out with
  | nil =>
    cases h
    exact ⟨(append_nil _).symm, forall_mem_nil _⟩
  | cons _ _ ih =>
    unfold formatHeaders at h
    split at h
    · cases h
    rename_i hline
    simp only at h
    split at h
    · cases h
    obtain ⟨heq, hlines⟩ := ih h
    refine ⟨?_, forall_mem_cons.mpr ⟨?_, hlines⟩⟩
    · rw [heq, append_assoc]
      rfl
    · rw [Bool.not_eq_true, any_eq_false] at hline
      refine ⟨fun hmem => hline CR hmem rfl, fun hmem => hline LF hmem rfl⟩

def requestLine (method : HttpMethod) (url : Url) : Bytes :=
  methodName method ++ ascii " " ++ url.target ++ ascii " HTTP/1.1"

/-- A v6 literal in brackets, and the port unless it is the scheme's own. -/
def hostField (url : Url) : Bytes :=
  (if url.host.contains ':'.toUInt8 then ascii "[" ++ url.host ++ ascii "]" else url.host) ++
    if url.port = schemePort url.tls then [] else ascii ":" ++ ascii (toString url.port)

def requestLines (method : HttpMethod) (url : Url) (headers : List Bytes) : List Bytes :=
  [requestLine method url, ascii "Host: " ++ hostField url, ascii "Connection: close"] ++ headers

def requestStart (method : HttpMethod) (url : Url) : Bytes :=
  methodName method ++ ascii " " ++ url.target ++ ascii " HTTP/1.1\r\nHost: " ++
    (if url.host.contains ':'.toUInt8 then ascii "[" ++ url.host ++ ascii "]" else url.host) ++
    (if url.port = schemePort url.tls then [] else ascii ":" ++ ascii (toString url.port)) ++
    ascii "\r\nConnection: close\r\n"

theorem requestStart_eq : requestStart method url = crlfText (requestLines method url []) := by
  have hhttp : ascii " HTTP/1.1\r\nHost: " = ascii " HTTP/1.1" ++ [CR, LF] ++ ascii "Host: " := by
    decide
  have hclose : ascii "\r\nConnection: close\r\n" =
      [CR, LF] ++ ascii "Connection: close" ++ [CR, LF] := by
    decide
  rw [requestStart, hhttp, hclose]
  simp only [crlfText, requestLines, requestLine, hostField, append_nil, map_cons,
    map_nil, flatten_cons, flatten_nil, append_assoc]

theorem requestFormat_spec (h : requestFormat cap method url headers = some out) :
    out = crlfText (requestLines method url headers) ++ [CR, LF] ∧
      ∀ header ∈ headers, OneLine header := by
  unfold requestFormat at h
  split at h
  · cases h
  dsimp only at h
  rw [← requestStart] at h
  split at h
  · cases h
  split at h
  · cases h
  rename_i hheaders
  split at h
  · cases h
  cases h
  obtain ⟨heq, hlines⟩ := formatHeaders_spec hheaders
  refine ⟨?_, hlines⟩
  rw [heq, requestStart_eq, crlfText, crlfText, ← flatten_append, ← map_append]
  rfl

theorem OneLine.append (ha : OneLine a) (hb : OneLine b) : OneLine (a ++ b) := by
  refine ⟨?_, ?_⟩
  · rw [mem_append, not_or]
    exact ⟨ha.1, hb.1⟩
  · rw [mem_append, not_or]
    exact ⟨ha.2, hb.2⟩

theorem OneLine.plain (h : ∀ c ∈ text, urlByteOk c) : OneLine text :=
  ⟨fun hmem => absurd (h CR hmem) (by decide), fun hmem => absurd (h LF hmem) (by decide)⟩

theorem OneLine.number (n : Nat) : OneLine (ascii (toString n)) := by
  have hdigit : ∀ c ∈ ascii (toString n), digit c := by
    intro c hc
    rw [ascii, Nat.toString_eq_repr, Nat.toList_repr] at hc
    obtain ⟨d, hd, rfl⟩ := mem_map.mp hc
    have hd := Nat.isDigit_of_mem_toDigits (by decide) (by decide) hd
    rw [Char.isDigit, Bool.and_eq_true, decide_eq_true_eq, decide_eq_true_eq, ge_iff_le,
      UInt32.le_iff_toNat_le, UInt32.le_iff_toNat_le] at hd
    have hbyte : d.toUInt8.toNat = d.val.toNat % 256 := UInt32.toNat_toUInt8 d.val
    rw [digit, Bool.and_eq_true, decide_eq_true_eq, decide_eq_true_eq, UInt8.le_iff_toNat_le,
      UInt8.le_iff_toNat_le, hbyte]
    have hlow : ('0'.val).toNat = 48 ∧ ('9'.val).toNat = 57 := by decide
    have hhigh : ('0'.toUInt8).toNat = 48 ∧ ('9'.toUInt8).toNat = 57 := by decide
    omega
  exact ⟨fun hmem => absurd (hdigit CR hmem) (by decide),
    fun hmem => absurd (hdigit LF hmem) (by decide)⟩

theorem requestLine_oneLine (h : Sendable url) : OneLine (requestLine method url) := by
  have hmethod : OneLine (methodName method ++ ascii " ") := by
    cases method <;> unfold OneLine <;> decide
  have htarget : OneLine url.target := .plain fun c hc => (h.target.plain c hc).1
  have hversion : OneLine (ascii " HTTP/1.1") := by
    unfold OneLine
    decide
  exact (hmethod.append htarget).append hversion

theorem hostField_oneLine (h : Sendable url) : OneLine (hostField url) := by
  have hhost : OneLine url.host := .plain h.host
  apply OneLine.append
  · split
    · apply OneLine.append
      · apply OneLine.append ?_ hhost
        unfold OneLine
        decide
      · unfold OneLine
        decide
    · exact hhost
  · split
    · unfold OneLine
      decide
    · apply OneLine.append ?_ (.number _)
      unfold OneLine
      decide

theorem requestLine_spaces (h : Target url.target) : (requestLine method url).count 0x20 = 2 := by
  have hmethod : (methodName method).count 0x20 = 0 := by cases method <;> decide
  have htarget : url.target.count 0x20 = 0 := by
    apply count_eq_zero.mpr
    intro hmem
    exact absurd (h.plain _ hmem).1 (by decide)
  have hspace : (ascii " ").count 0x20 = 1 := by decide
  have hversion : (ascii " HTTP/1.1").count 0x20 = 1 := by decide
  rw [requestLine, count_append, count_append, count_append, hmethod, hspace, htarget, hversion]

theorem OneLine.break_eq (h : OneLine line)
    (heq : line ++ CR :: LF :: rest = before ++ CR :: LF :: after) :
    after = rest ∨ ∃ before', rest = before' ++ CR :: LF :: after := by
  rcases append_eq_append_iff.mp heq with ⟨gap, _, hrest⟩ | ⟨gap, hline, hrest⟩
  · match gap, hrest with
    | [], hrest =>
      cases hrest
      exact .inl rfl
    | [_], hrest => cases hrest
    | _ :: _ :: gap, hrest =>
      cases hrest
      exact .inr ⟨gap, rfl⟩
  · match gap, hline, hrest with
    | [], _, hrest =>
      cases hrest
      exact .inl rfl
    | c :: gap, hline, hrest =>
      obtain ⟨hcr, _⟩ := List.cons.inj hrest
      rw [hline, ← hcr] at h
      exact absurd (mem_append_right _ mem_cons_self) h.1

theorem crlfText_cons : crlfText (line :: lines) = line ++ CR :: LF :: crlfText lines := by
  rw [crlfText, map_cons, flatten_cons, append_assoc]
  rfl

theorem crlfText_first_empty (h : ∀ line ∈ lines, line ≠ [] ∧ OneLine line)
    (heq : crlfText lines ++ [CR, LF] = before ++ CR :: LF :: CR :: LF :: after) : after = [] := by
  induction lines generalizing before with
  | nil =>
    have hlen := congrArg List.length heq
    simp only [crlfText, map_nil, flatten_nil, length_append, length_cons, length_nil] at hlen
    omega
  | cons _ lines ih =>
    obtain ⟨⟨_, hline⟩, hlines⟩ := forall_mem_cons.mp h
    rw [crlfText_cons, append_assoc] at heq
    rcases hline.break_eq heq with hhere | ⟨_, hlater⟩
    · cases lines with
      | nil =>
        cases hhere
        rfl
      | cons next =>
        obtain ⟨⟨hne, hnext⟩, _⟩ := forall_mem_cons.mp hlines
        cases next with
        | nil => exact absurd rfl hne
        | cons =>
          obtain ⟨hcr, _⟩ := List.cons.inj hhere
          rw [← hcr] at hnext
          exact absurd mem_cons_self hnext.1
    · exact ih hlines hlater

theorem crlfText_empty_early (first : Bytes) (h : [] ∈ lines) : ∃ before after,
    crlfText (first :: lines) ++ [CR, LF] = before ++ [CR, LF, CR, LF] ++ after ∧ after ≠ [] := by
  obtain ⟨front, back, rfl⟩ := append_of_mem h
  rcases eq_nil_or_concat (first :: front) with hnil | ⟨init, last, hlast⟩
  · cases hnil
  refine ⟨crlfText init ++ last, crlfText back ++ [CR, LF], ?_, ?_⟩
  · rw [← cons_append, hlast]
    simp [crlfText]
  · exact append_ne_nil_of_right_ne_nil _ (cons_ne_nil _ _)

/-- A request for a URL that was parsed or redirected to is its lines, ended by CRLF and without
other line breaks, and then an empty line, the first one exactly if no header is empty. -/
theorem requestFormat_lines (hurl : Produced url)
    (h : requestFormat cap method url headers = some out) :
    out = crlfText ([methodName method ++ ascii " " ++ url.target ++ ascii " HTTP/1.1",
      ascii "Host: " ++ hostField url, ascii "Connection: close"] ++ headers) ++ [CR, LF] ∧
    url.target.head? = some '/'.toUInt8 ∧
    (∀ c ∈ url.target, c ≠ '#'.toUInt8 ∧ 0x20 < c ∧ c ≠ 0x7F) ∧
    (methodName method ++ ascii " " ++ url.target ++ ascii " HTTP/1.1").count 0x20 = 2 ∧
    (∀ line ∈ [methodName method ++ ascii " " ++ url.target ++ ascii " HTTP/1.1",
      ascii "Host: " ++ hostField url, ascii "Connection: close"] ++ headers,
      CR ∉ line ∧ LF ∉ line) ∧
    ((∀ before after, out = before ++ [CR, LF, CR, LF] ++ after → after = []) ↔
      ∀ header ∈ headers, header ≠ []) := by
  have hsendable := hurl.sendable
  obtain ⟨heq, hlines⟩ := requestFormat_spec h
  have hhost : OneLine (ascii "Host: " ++ hostField url) := by
    apply OneLine.append ?_ (hostField_oneLine hsendable)
    unfold OneLine
    decide
  have hclose : OneLine (ascii "Connection: close") := by
    unfold OneLine
    decide
  have hall : ∀ line ∈ requestLines method url headers, OneLine line := by
    intro line hline
    rcases mem_append.mp hline with hown | hheader
    · simp only [mem_cons, not_mem_nil, or_false] at hown
      rcases hown with rfl | rfl | rfl
      · exact requestLine_oneLine hsendable
      · exact hhost
      · exact hclose
    · exact hlines line hheader
  refine ⟨heq, hsendable.target.slash, ?_, requestLine_spaces hsendable.target, hall, ?_, ?_⟩
  · intro c hc
    obtain ⟨hok, hhash⟩ := hsendable.target.plain c hc
    rw [urlByteOk, Bool.and_eq_true, decide_eq_true_eq, bne_iff_ne] at hok
    exact ⟨hhash, hok.1, hok.2⟩
  · rintro hfirst _ hheader rfl
    obtain ⟨before, after, hout, hne⟩ := crlfText_empty_early (requestLine method url)
      (mem_append_right [ascii "Host: " ++ hostField url, ascii "Connection: close"] hheader)
    exact hne (hfirst before after (heq.trans hout))
  · intro hheaders _ _ hafter
    have hne : ∀ line ∈ requestLines method url headers, line ≠ [] := by
      intro line hline
      rcases mem_append.mp hline with hown | hheader
      · simp only [mem_cons, not_mem_nil, or_false] at hown
        rcases hown with rfl | rfl | rfl
        · cases method <;> exact cons_ne_nil _ _
        · exact cons_ne_nil _ _
        · exact cons_ne_nil _ _
      · exact hheaders line hheader
    rw [heq, append_assoc] at hafter
    exact crlfText_first_empty (fun line hline => ⟨hne line hline, hall line hline⟩) hafter

/-- A request with headers of its own, to where a redirect has led. -/
theorem requestFormat_lines_redirected :
    ∃ out, requestFormat 100 .get ⟨false, ascii "h", 80, ascii "/b"⟩ [ascii "A: 1", ascii "B: 2"] =
      some out ∧ ∀ before after, out = before ++ [CR, LF, CR, LF] ++ after → after = [] := by
  have hparse : urlParse (ascii "http://h/a?q") = some ⟨false, ascii "h", 80, ascii "/a?q"⟩ := by
    decide
  have hresolve : urlResolve ⟨false, ascii "h", 80, ascii "/a?q"⟩ (ascii "b#c") =
      some ⟨false, ascii "h", 80, ascii "/b"⟩ := by
    decide
  obtain ⟨out, hout⟩ : ∃ out, requestFormat 100 .get ⟨false, ascii "h", 80, ascii "/b"⟩
      [ascii "A: 1", ascii "B: 2"] = some out := by
    apply Option.isSome_iff_exists.mp
    decide
  obtain ⟨_, _, _, _, _, hfirst⟩ := requestFormat_lines (.resolved (.parsed hparse) hresolve) hout
  exact ⟨out, hout, hfirst.mpr (by decide)⟩

/-- An empty header is an empty line, with the one that was to end the head behind it. -/
theorem requestFormat_empty_header :
    ∃ url out before after, Produced url ∧ requestFormat 100 .get url [[]] = some out ∧
      out = before ++ [CR, LF, CR, LF] ++ after ∧ after ≠ [] := by
  have hparse : urlParse (ascii "http://h/") = some ⟨false, ascii "h", 80, ascii "/"⟩ := by decide
  refine ⟨⟨false, ascii "h", 80, ascii "/"⟩, _,
    ascii "GET / HTTP/1.1\r\nHost: h\r\nConnection: close", [CR, LF], .parsed hparse, ?_, rfl, ?_⟩
  · decide
  · exact cons_ne_nil _ _

end Inkwell.Http
