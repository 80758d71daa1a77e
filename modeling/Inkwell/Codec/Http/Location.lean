import Inkwell.Codec.Http.Url
import Inkwell.Library.Decimal

namespace Inkwell.Http
open Library List

def portTail : Option Bytes → Bytes
  | none => []
  | some port => ':'.toUInt8 :: port

inductive Authority : Bytes → Bytes → Option Bytes → Prop
  | literal (plain : ∀ c ∈ host, literalByte c) :
      Authority ('['.toUInt8 :: (host ++ ']'.toUInt8 :: portTail port)) host port
  | name (bare : host.head? ≠ some '['.toUInt8) (no_colon : ':'.toUInt8 ∉ host) :
      Authority (host ++ portTail port) host port

theorem portTail_head : ∀ c ∈ (portTail port).head?, c = ':'.toUInt8 := by
  cases port with
  | none => exact nofun
  | some =>
    rintro c ⟨⟩
    rfl

theorem literalByte_bracket : ∀ c : UInt8, literalByte c → c ≠ ']'.toUInt8 ∧ c ≠ '['.toUInt8 :=
  forall_byte (by decide +kernel)

theorem splitAuthority_sound (h : splitAuthority authority = some (host, port)) :
    Authority authority host port := by
  unfold splitAuthority at h
  split at h
  · rename_i hbracket
    obtain ⟨tail, rfl⟩ := head?_eq_some_iff.mp hbracket
    obtain ⟨_, after, rfl, -, hafter, htake, hdrop⟩ := exists_span (· != ']'.toUInt8) tail
    simp only [tail_cons, htake, hdrop] at h
    cases after with
    | nil => cases h
    | cons c after =>
      obtain rfl : c = ']'.toUInt8 := by simpa using hafter c rfl
      cases after with
      | nil =>
        simp only at h
        split at h
        · rename_i hplain
          cases h
          exact @Authority.literal _ none (all_eq_true.mp hplain)
        · cases h
      | cons c after =>
        simp only at h
        split at h
        · cases h
        rename_i hcolon
        split at h
        · rename_i hplain
          cases h
          cases Classical.not_not.mp hcolon
          exact @Authority.literal _ (some after) (all_eq_true.mp hplain)
        · cases h
  · rename_i hbare
    obtain ⟨before, after, rfl, hbefore, hafter, htake, hdrop⟩ :=
      exists_span (· != ':'.toUInt8) authority
    have hname : ':'.toUInt8 ∉ before := fun hmem => by simpa using hbefore _ hmem
    simp only [htake, hdrop] at h
    cases after with
    | nil =>
      cases h
      rw [append_nil] at hbare ⊢
      simpa [portTail] using @Authority.name _ none hbare hname
    | cons c after =>
      obtain rfl : c = ':'.toUInt8 := by simpa using hafter c rfl
      cases h
      refine @Authority.name _ (some after) (fun hhead => hbare ?_) hname
      rw [head?_append, hhead]
      rfl

theorem splitAuthority_complete (h : Authority authority host port) (hne : host ≠ []) :
    splitAuthority authority = some (host, port) := by
  cases h with
  | literal plain =>
    have hbefore : ∀ c ∈ host, (c != ']'.toUInt8) :=
      fun c hc => bne_iff_ne.mpr (literalByte_bracket c (plain c hc)).1
    obtain ⟨htake, hdrop⟩ := span_eq (y := ']'.toUInt8 :: portTail port) hbefore (by simp)
    rw [splitAuthority, head?_cons, if_pos rfl]
    simp only [tail_cons, htake, hdrop, all_eq_true.mpr plain]
    cases port with
    | none | some => rfl
  | name bare no_colon =>
    have hbefore : ∀ c ∈ host, (c != ':'.toUInt8) :=
      fun c hc => bne_iff_ne.mpr fun heq => no_colon (heq ▸ hc)
    obtain ⟨htake, hdrop⟩ := span_eq (y := portTail port) hbefore (by
      intro c hc
      simp [portTail_head c hc])
    have hhead : (host ++ portTail port).head? ≠ some '['.toUInt8 := by
      rw [head?_append_of_ne_nil _ hne]
      exact bare
    rw [splitAuthority, if_neg hhead]
    simp only [htake, hdrop]
    cases port with
    | none => simp [portTail]
    | some => rfl

def targetOf (path : Bytes) : Bytes :=
  let text := path.takeWhile (· != '#'.toUInt8)
  if text.head? = some '/'.toUInt8 then text else '/'.toUInt8 :: text

theorem urlSetTarget_iff : urlSetTarget url path = some out ↔
    (∀ c ∈ path, urlByteOk c) ∧ (targetOf path).length < urlMax ∧
      out = { url with target := targetOf path } := by
  rw [urlSetTarget, urlBytesOk, ← all_eq_true]
  cases hok : path.all urlByteOk with
  | false => simp
  | true =>
    simp only [Bool.not_true, Bool.false_eq_true, if_false, true_and]
    rw [← targetOf]
    by_cases hlong : (targetOf path).length + 1 > urlMax
    · rw [if_pos hlong]
      exact iff_of_false nofun fun h => absurd h.1 (by omega)
    · rw [if_neg hlong, Option.some.injEq, eq_comm]
      exact ⟨fun h => ⟨by omega, h⟩, fun h => h.2⟩

structure Parsed (authority path : Bytes) (port : Option Bytes) (url : Url) : Prop where
  split : Authority authority url.host port
  plain : ∀ c ∈ authority, urlByteOk c ∧ c ∉ ascii "/?#@"
  host : url.host ≠ [] ∧ url.host.length < hostMax
  number : parsePort (schemePort url.tls) (port.getD []) = some url.port
  ends : ∀ c ∈ path.head?, c ∈ ascii "/?#"
  path_plain : ∀ c ∈ path, urlByteOk c
  target : url.target = targetOf path ∧ (targetOf path).length < urlMax

theorem urlParseRest_sound (h : urlParseRest tls rest = some url) :
    url.tls = tls ∧ ∃ authority path port, rest = authority ++ path ∧
      Parsed authority path port url := by
  obtain ⟨authority, path, rfl, hauthority, hpath, htake, hdrop⟩ :=
    exists_span (fun c => !(ascii "/?#").contains c) rest
  unfold urlParseRest at h
  simp only [htake, hdrop] at h
  split at h
  · cases h
  rename_i hplain
  simp only [not_or, Bool.not_eq_true, Bool.not_eq_false', urlBytesOk, all_eq_true] at hplain
  split at h
  · cases h
  rename_i port hsplit
  split at h
  · cases h
  rename_i hhost
  split at h
  · cases h
  rename_i hport
  obtain ⟨hok, hlength, rfl⟩ := urlSetTarget_iff.mp h
  refine ⟨rfl, authority, path, port, rfl, splitAuthority_sound hsplit, fun c hc => ?_, ?_, hport,
    ?_, hok, rfl, hlength⟩
  · refine ⟨hplain.2.1 c hc, fun hmem => ?_⟩
    have hend : c ∉ ascii "/?#" := by simpa using hauthority c hc
    have hat : c ≠ '@'.toUInt8 := fun heq => by simpa [heq ▸ hc] using hplain.2.2
    exact (mem_append.mp (show c ∈ ascii "/?#" ++ ['@'.toUInt8] from hmem)).elim hend
      fun hc => hat (mem_singleton.mp hc)
  · simpa [not_or] using hhost
  · intro c hc
    simpa using hpath c hc

theorem urlParseRest_complete (h : Parsed authority path port url) :
    urlParseRest url.tls (authority ++ path) = some url := by
  obtain ⟨hsplit, hplain, ⟨hne, hlength⟩, hport, hends, hpath, htarget⟩ := h
  have hauthority : ∀ c ∈ authority, (!(ascii "/?#").contains c) := by
    intro c hc
    have hmem : c ∉ ascii "/?#" := fun hmem => (hplain c hc).2
      (show c ∈ ascii "/?#" ++ ['@'.toUInt8] from mem_append_left _ hmem)
    simpa using hmem
  obtain ⟨htake, hdrop⟩ := span_eq hauthority fun c hc => by simpa using hends c hc
  have hbytes : ¬(authority = [] ∨ (!urlBytesOk authority) ∨ authority.contains '@'.toUInt8) := by
    rintro (hnil | hbad | hat)
    · cases hsplit with
      | literal => cases hnil
      | name => exact hne (append_eq_nil_iff.mp hnil).1
    · have hok : urlBytesOk authority := all_eq_true.mpr fun c hc => (hplain c hc).1
      rw [hok] at hbad
      cases hbad
    · exact (hplain _ (contains_iff_mem.mp hat)).2 (by decide)
  unfold urlParseRest
  simp only [htake, hdrop]
  rw [if_neg hbytes, splitAuthority_complete hsplit hne]
  simp only [hport, hne, false_or, not_le.mpr hlength, if_false]
  exact urlSetTarget_iff.mpr ⟨hpath, htarget.2, by rw [← htarget.1]⟩

theorem scheme_plain : ∀ b : UInt8, ∀ c ∈ ascii "https://", lower b = lower c → urlByteOk b :=
  forall_byte (by decide +kernel)

theorem prefixNocase_plain (h : prefixNocase text pre = true)
    (hpre : ∀ c ∈ pre, c ∈ ascii "https://") (hrest : ∀ c ∈ text.drop pre.length, urlByteOk c) :
    ∀ c ∈ text, urlByteOk c := by
  fun_induction prefixNocase text pre with
  | case1 => exact hrest
  | case2 | case3 => cases h
  | case4 t _ p _ hlower ih =>
    rintro c (_ | ⟨_, hc⟩)
    · exact scheme_plain t p (hpre p (.head _)) (by simpa using hlower)
    · exact ih h (fun c hc => hpre c (.tail _ hc)) hrest c hc

theorem urlParse_sound (h : urlParse text = some url) :
    (∀ c ∈ text, urlByteOk c) ∧ ∃ authority path port, Parsed authority path port url := by
  have hrest : ∀ {tls : Bool} {rest}, urlParseRest tls rest = some url →
      (∀ c ∈ rest, urlByteOk c) ∧ ∃ authority path port, Parsed authority path port url := by
    intro _ _ h
    obtain ⟨-, authority, path, port, rfl, hparsed⟩ := urlParseRest_sound h
    refine ⟨fun c hc => ?_, authority, path, port, hparsed⟩
    exact (mem_append.mp hc).elim (fun hc => (hparsed.plain c hc).1) (hparsed.path_plain c)
  unfold urlParse at h
  split at h
  · rename_i hscheme
    exact ⟨prefixNocase_plain hscheme (fun _ hc => hc) (hrest h).1, (hrest h).2⟩
  split at h
  · rename_i hscheme
    exact ⟨prefixNocase_plain hscheme (by decide +kernel) (hrest h).1, (hrest h).2⟩
  · cases h

theorem prefixNocase_self : prefixNocase (pre ++ rest) pre = true := by
  induction pre with
  | nil => rw [nil_append, prefixNocase]
  | cons p _ ih => simp [prefixNocase, ih]

theorem urlParse_scheme :
    urlParse (ascii (if tls then "https://" else "http://") ++ rest) = urlParseRest tls rest := by
  cases tls with
  | true => exact if_pos prefixNocase_self
  | false =>
    have hother : ¬prefixNocase (ascii "http://" ++ rest) (ascii "https://") = true := nofun
    exact (if_neg hother).trans (if_pos prefixNocase_self)

structure Target (target : Bytes) : Prop where
  slash : target.head? = some '/'.toUInt8
  plain : ∀ c ∈ target, urlByteOk c ∧ c ≠ '#'.toUInt8

theorem targetOf_target (h : ∀ c ∈ path, urlByteOk c) : Target (targetOf path) := by
  obtain ⟨text, _, rfl, htext, -, htake, -⟩ := exists_span (· != '#'.toUInt8) path
  have hplain : ∀ c ∈ text, urlByteOk c ∧ c ≠ '#'.toUInt8 :=
    fun c hc => ⟨h c (mem_append_left _ hc), bne_iff_ne.mp (htext c hc)⟩
  rw [targetOf, htake]
  split
  · rename_i hslash
    exact ⟨hslash, hplain⟩
  · refine ⟨rfl, ?_⟩
    rintro c (_ | ⟨_, hc⟩)
    · decide
    · exact hplain c hc

theorem parsePort_range (h : parsePort (schemePort tls) text = some port) :
    0 < port ∧ port ≤ 65535 := by
  unfold parsePort at h
  split at h
  · cases h
    cases tls with
    | true | false => decide
  iterate 3
    split at h
    · cases h
  · cases h
    omega

structure WellFormed (url : Url) : Prop where
  host : url.host ≠ []
  port : url.port ≠ 0
  slash : url.target.head? = some '/'.toUInt8
  fragment : '#'.toUInt8 ∉ url.target

theorem Target.wellFormed (h : Target url.target) (hhost : url.host ≠ []) (hport : url.port ≠ 0) :
    WellFormed url :=
  ⟨hhost, hport, h.slash, fun hmem => (h.plain _ hmem).2 rfl⟩

theorem Parsed.target_ok (h : Parsed authority path port url) : Target url.target :=
  h.target.1 ▸ targetOf_target h.path_plain

theorem Parsed.wellFormed (h : Parsed authority path port url) : WellFormed url :=
  h.target_ok.wellFormed h.host.1 (parsePort_range h.number).1.ne'

def HasScheme (location : Bytes) : Prop :=
  schemeLen location > 0 ∧ location.getD (schemeLen location) 0 = ':'.toUInt8

structure Led (base : Url) (location : Bytes) (url : Url) : Prop where
  plain : ∀ c ∈ location, urlByteOk c
  wellFormed : WellFormed url
  scheme : ¬HasScheme location → url.tls = base.tls
  server : ¬HasScheme location → location.take 2 ≠ ascii "//" →
    url.host = base.host ∧ url.port = base.port

theorem urlSetTarget_led (hbase : WellFormed base) (h : urlSetTarget base path = some url)
    (hlocation : location <:+ path) : Led base location url := by
  obtain ⟨hplain, -, rfl⟩ := urlSetTarget_iff.mp h
  exact ⟨fun c hc => hplain c (hlocation.subset hc),
    (targetOf_target hplain).wellFormed hbase.host hbase.port, fun _ => rfl, fun _ _ => ⟨rfl, rfl⟩⟩

theorem urlResolve_led (hbase : WellFormed base)
    (hfragment : location.head? = some '#'.toUInt8 → ∀ c ∈ location, urlByteOk c)
    (h : urlResolve base location = some url) : Led base location url := by
  unfold urlResolve at h
  simp only at h
  split at h
  · cases h
  split at h
  · rename_i hscheme
    obtain ⟨hplain, _, _, _, hparsed⟩ := urlParse_sound h
    exact ⟨hplain, hparsed.wellFormed, fun hno => absurd hscheme hno, fun hno => absurd hscheme hno⟩
  split at h
  · rename_i hslashes
    obtain ⟨rest, rfl⟩ : ∃ rest, location = ascii "//" ++ rest :=
      ⟨location.drop 2, by rw [← hslashes, take_append_drop]⟩
    have habsolute :
        ascii (if base.tls then "https" else "http") ++ ascii ":" ++ (ascii "//" ++ rest) =
        ascii (if base.tls then "https://" else "http://") ++ rest := by
      cases base.tls with
      | true | false => rfl
    rw [habsolute, Option.ite_none_left_eq_some] at h
    have hplain := (urlParse_sound h.2).1
    rw [urlParse_scheme] at h
    obtain ⟨htls, _, _, _, -, hparsed⟩ := urlParseRest_sound h.2
    refine ⟨fun c hc => ?_, hparsed.wellFormed, fun _ => htls, fun _ hno => absurd hslashes hno⟩
    refine (mem_append.mp hc).elim (fun hc => ?_) fun hc => hplain c (mem_append_right _ hc)
    exact (show ∀ c ∈ ascii "//", urlByteOk c = true by decide +kernel) c hc
  split at h
  · rename_i hhash
    cases h
    exact ⟨hfragment hhash, hbase, fun _ => rfl, fun _ _ => ⟨rfl, rfl⟩⟩
  split at h
  · exact urlSetTarget_led hbase h (suffix_refl _)
  · rw [Option.ite_none_left_eq_some] at h
    exact urlSetTarget_led hbase h.2 (suffix_append ..)

/-- A redirect leads where it should, by bytes that may all stand in a URL, if and only if it is
not a fragment alone with other bytes in it. -/
theorem urlResolve_iff (hbase : WellFormed base) (location : Bytes) :
    (∀ url, urlResolve base location = some url → Led base location url) ↔
      (location.head? = some '#'.toUInt8 → ∀ c ∈ location, urlByteOk c) := by
  constructor
  · intro h hhash
    have hresolve : urlResolve base location = some base := by
      obtain ⟨_, rfl⟩ := head?_eq_some_iff.mp hhash
      rfl
    exact (h base hresolve).plain
  · exact fun hfragment url h => urlResolve_led hbase hfragment h

/-- A fragment alone is taken whatever its bytes. -/
theorem fragment_unchecked :
    urlResolve ⟨false, ascii "h", 80, ascii "/"⟩ (ascii "#\r\n") =
      some ⟨false, ascii "h", 80, ascii "/"⟩ := by
  decide

theorem urlResolve_iff_query :
    Led ⟨false, ascii "h", 80, ascii "/a"⟩ (ascii "?q#f") ⟨false, ascii "h", 80, ascii "/a?q"⟩ :=
  (urlResolve_iff ⟨by decide, by decide, by decide, by decide⟩ (ascii "?q#f")).mpr nofun _
    (by decide)

def urlRender (withPort : Bool) (url : Url) : Bytes :=
  let host := if ':'.toUInt8 ∈ url.host then '['.toUInt8 :: (url.host ++ [']'.toUInt8])
  else url.host
  let port := if withPort then ':'.toUInt8 :: decimal url.port else []
  ascii (if url.tls then "https://" else "http://") ++ (host ++ port ++ url.target)

theorem portNumber_digits (n : Nat) (h : ∀ c ∈ digits, isDigit c) :
    portNumber n digits = some (digits.foldl (fun n c => n * 10 + (c - 0x30).toNat) n) := by
  induction digits generalizing n with
  | nil => rfl
  | cons c _ ih =>
    have hc : digit c := h c (.head _)
    rw [portNumber, hc]
    exact ih _ fun d hd => h d (.tail _ hd)

theorem parsePort_decimal (hpos : 0 < port) (hmax : port ≤ 65535) (default : Nat) :
    parsePort default (decimal port) = some port := by
  have hlength : (decimal port).length ≤ 5 := length_decimal (by omega)
  have hnumber : portNumber 0 (decimal port) = some port := by
    rw [portNumber_digits 0 (isDigit_decimal port), foldl_digits (isDigit_decimal port),
      numeral_decimal]
  rw [parsePort, if_neg (decimal_ne_nil port), if_neg (by omega), hnumber]
  simp only
  rw [if_neg (by omega)]

theorem Authority.host_mem (h : Authority authority host port) : ∀ c ∈ host, c ∈ authority := by
  cases h with
  | literal => exact fun c hc => .tail _ (mem_append_left _ hc)
  | name => exact fun c hc => mem_append_left _ hc

theorem Authority.render (h : Authority authority host port) :
    Authority ((if ':'.toUInt8 ∈ host then '['.toUInt8 :: (host ++ [']'.toUInt8]) else host) ++
      portTail text) host text := by
  split
  · rename_i hcolon
    cases h with
    | literal plain => simpa using @Authority.literal _ text plain
    | name _ no_colon => exact absurd hcolon no_colon
  · rename_i hcolon
    refine .name (fun hhead => ?_) hcolon
    cases h with
    | literal plain => exact (literalByte_bracket _ (plain _ (mem_of_mem_head? hhead))).2 rfl
    | name bare => exact bare hhead

theorem port_plain : ∀ c : UInt8, isDigit c → urlByteOk c ∧ c ∉ ascii "/?#@" :=
  forall_byte (by decide +kernel)

theorem targetOf_self (h : Target target) : targetOf target = target := by
  have htake : target.takeWhile (· != '#'.toUInt8) = target :=
    takeWhile_eq_self_iff.mpr fun c hc => bne_iff_ne.mpr (h.plain c hc).2
  rw [targetOf, htake]
  exact if_pos h.slash

/-- A URL that was parsed is read back from its text. -/
theorem urlParse_render (h : urlParse text = some url) (withPort : Bool)
    (hport : withPort = false → url.port = schemePort url.tls) :
    urlParse (urlRender withPort url) = some url := by
  obtain ⟨-, _, _, port, hparsed⟩ := urlParse_sound h
  have hrange := parsePort_range hparsed.number
  have htarget := hparsed.target_ok
  have htext : (if withPort then ':'.toUInt8 :: decimal url.port else []) =
      portTail (if withPort then some (decimal url.port) else none) := by
    cases withPort with
    | true | false => rfl
  rw [urlRender]
  simp only [htext]
  rw [urlParse_scheme]
  refine urlParseRest_complete ⟨hparsed.split.render, ?_, hparsed.host, ?_, ?_, ?_, ?_⟩
  · have hhost : ∀ c ∈ url.host, urlByteOk c ∧ c ∉ ascii "/?#@" :=
      fun c hc => hparsed.plain c (hparsed.split.host_mem c hc)
    simp only [forall_mem_append]
    constructor
    · split
      · simp only [forall_mem_cons, forall_mem_append]
        exact ⟨by decide, hhost, by decide, nofun⟩
      · exact hhost
    · cases withPort with
      | true =>
        exact forall_mem_cons.mpr ⟨by decide, fun c hc => port_plain c (isDigit_decimal _ c hc)⟩
      | false => exact nofun
  · cases withPort with
    | true => exact parsePort_decimal hrange.1 hrange.2 _
    | false => exact (if_pos rfl).trans (congrArg some (hport rfl).symm)
  · intro c hc
    cases Option.some.inj (htarget.slash.symm.trans hc)
    decide
  · exact fun c hc => (htarget.plain c hc).1
  · rw [targetOf_self htarget]
    exact ⟨rfl, hparsed.target.1 ▸ hparsed.target.2⟩

theorem urlParse_render_literal :
    urlParse (urlRender true ⟨false, ascii "::1", 8080, ascii "/p"⟩) =
      some ⟨false, ascii "::1", 8080, ascii "/p"⟩ :=
  urlParse_render (show urlParse (ascii "HTTP://[::1]:08080/p#f") = _ by decide) true nofun

end Inkwell.Http
