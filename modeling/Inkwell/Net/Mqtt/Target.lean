import Inkwell.Base.Text
import Inkwell.Library.Decimal
import Inkwell.Net.Mqtt.Address

namespace Inkwell.Mqtt
open List hiding after
open Library (numeral forall_byte foldl_digits)

/-- The forms of an address. With two colons or more and no bracket in front it is a host as it
stands. -/
inductive Form : Bytes → Bytes → Option Bytes → Prop
  | bare (hne : host ≠ []) (hplain : host.head? ≠ some 0x5B) (hcolon : 0x3A ∉ host) :
    Form host host none
  | colons (hplain : host.head? ≠ some 0x5B) (hcolons : 2 ≤ host.count 0x3A) : Form host host none
  | barePort (hne : host ≠ []) (hplain : host.head? ≠ some 0x5B) (hcolon : 0x3A ∉ host)
      (hport : 0x3A ∉ text) : Form (host ++ 0x3A :: text) host (some text)
  | bracketed (hne : v6 ≠ []) (hclose : 0x5D ∉ v6) : Form (0x5B :: (v6 ++ [0x5D])) v6 none
  | bracketedPort (hne : v6 ≠ []) (hclose : 0x5D ∉ v6) :
    Form (0x5B :: (v6 ++ 0x5D :: 0x3A :: text)) v6 (some text)

/-- A port that is left out is 0; one that is there is decimal digits for 1 to 65535. -/
def PortNamed : Option Bytes → Nat → Prop
  | none, port => port = 0
  | some text, port => (∀ c ∈ text, isDigit c) ∧ numeral text = port ∧ 1 ≤ port ∧ port ≤ 65535

/-- What `strtoul` takes for a port: blanks and a sign may be in front of the digits, and the
number behind a minus is taken from 2 ^ 64. -/
structure Numbered (blanks sign digits : Bytes) (port : Nat) : Prop where
  blank : ∀ c ∈ blanks, isSpace c
  digits_ne : digits ≠ []
  digit : ∀ c ∈ digits, isDigit c
  value : (sign = [] ∨ sign = [0x2B]) ∧ numeral digits = port ∨
    sign = [0x2D] ∧ numeral digits + port = 2 ^ 64
  pos : 1 ≤ port
  le : port ≤ 65535

def PortRead : Option Bytes → Nat → Prop
  | none, port => port = 0
  | some text, port => ∃ blanks sign digits, text = blanks ++ (sign ++ digits) ∧
      Numbered blanks sign digits port

theorem all_ne_stop {text : Bytes} (h : stop ∉ text) : ∀ c ∈ text, decide (c ≠ stop) = true := by
  intro c hc
  exact decide_eq_true fun heq => h (heq ▸ hc)

theorem span_stop {before after : Bytes} (h : stop ∉ before) :
    (before ++ stop :: after).takeWhile (· ≠ stop) = before ∧
      (before ++ stop :: after).dropWhile (· ≠ stop) = stop :: after :=
  Library.span_eq (all_ne_stop h) (by simp)

theorem dropWhile_unstopped {text : Bytes} (h : stop ∉ text) : text.dropWhile (· ≠ stop) = [] :=
  dropWhile_eq_nil_iff.mpr (all_ne_stop h)

theorem splitTarget_bracket (hclose : 0x5D ∉ v6) : splitTarget (0x5B :: (v6 ++ 0x5D :: after)) =
      if v6 = [] then none
      else if after = [] then some (v6, none)
      else if after.head? = some 0x3A then some (v6, some after.tail) else none := by
  simp only [splitTarget, span_stop hclose]
  cases after with
  | nil => rfl
  | cons c => by_cases hc : c = 0x3A <;> simp [hc]

theorem splitTarget_unclosed (hclose : 0x5D ∉ rest) : splitTarget (0x5B :: rest) = none := by
  simp only [splitTarget, dropWhile_unstopped hclose]

theorem splitTarget_plain (hplain : target.head? ≠ some 0x5B) : splitTarget target =
      match target.dropWhile (· ≠ 0x3A) with
      | [] => some (target, none)
      | _ :: port =>
        if port.contains 0x3A then some (target, none)
        else some (target.takeWhile (· ≠ 0x3A), some port) := by
  unfold splitTarget
  split
  · exact absurd rfl hplain
  · rfl

theorem splitTarget_colon (hplain : (before ++ 0x3A :: after).head? ≠ some 0x5B)
    (hcolon : 0x3A ∉ before) : splitTarget (before ++ 0x3A :: after) =
      if 0x3A ∈ after then some (before ++ 0x3A :: after, none)
      else some (before, some after) := by
  rw [splitTarget_plain hplain]
  simp only [span_stop hcolon, contains_iff_mem]

theorem Form.host_ne_nil (h : Form target host text) : host ≠ [] := by
  cases h with
  | bare hne
  | barePort hne
  | bracketed hne
  | bracketedPort hne => exact hne
  | colons _ hcolons =>
    rintro rfl
    cases hcolons

theorem Form.target_ne_nil (h : Form target host text) : target ≠ [] := by
  cases h with
  | bare hne => exact hne
  | colons _ hcolons =>
    rintro rfl
    cases hcolons
  | barePort => exact append_ne_nil_of_right_ne_nil _ nofun
  | bracketed | bracketedPort => exact nofun

theorem Form.split (h : Form target host text) : splitTarget target = some (host, text) := by
  cases h with
  | bare _ hplain hcolon => rw [splitTarget_plain hplain, dropWhile_unstopped hcolon]
  | colons hplain hcolons =>
    have hmem : 0x3A ∈ target := count_pos_iff.mp (lt_of_lt_of_le (by decide) hcolons)
    obtain ⟨_, after, rfl, hbefore⟩ := eq_append_cons_of_mem hmem
    have hafter : 0x3A ∈ after := by
      rw [count_append, count_eq_zero_of_not_mem hbefore, count_cons_self] at hcolons
      exact count_pos_iff.mp (by omega)
    rw [splitTarget_colon hplain hbefore, if_pos hafter]
  | barePort hne hplain hcolon hport =>
    rw [splitTarget_colon ?_ hcolon, if_neg hport]
    cases host with
    | nil => exact absurd rfl hne
    | cons => exact hplain
  | bracketed hne hclose => rw [splitTarget_bracket hclose, if_neg hne, if_pos rfl]
  | bracketedPort hne hclose =>
    rw [splitTarget_bracket hclose, if_neg hne]
    rfl

theorem form_of_bracket (hclose : 0x5D ∉ v6)
    (h : splitTarget (0x5B :: (v6 ++ 0x5D :: after)) = some (host, text)) :
    Form (0x5B :: (v6 ++ 0x5D :: after)) host text := by
  rw [splitTarget_bracket hclose] at h
  split at h
  · cases h
  rename_i hne
  cases after with
  | nil =>
    cases h
    exact .bracketed hne hclose
  | cons c port =>
    rw [if_neg (cons_ne_nil c port)] at h
    split at h
    · rename_i hcolon
      cases h
      cases hcolon
      exact .bracketedPort hne hclose
    · cases h

theorem form_of_split (h : splitTarget target = some (host, text)) (hne : host ≠ []) :
    Form target host text := by
  by_cases hplain : target.head? = some 0x5B
  · obtain ⟨rest, rfl⟩ : ∃ rest, target = 0x5B :: rest := by
      cases target with
      | nil => cases hplain
      | cons c rest => exact ⟨rest, by rw [Option.some.inj hplain]⟩
    by_cases hclose : 0x5D ∈ rest
    · obtain ⟨_, _, rfl, hbefore⟩ := eq_append_cons_of_mem hclose
      exact form_of_bracket hbefore h
    · rw [splitTarget_unclosed hclose] at h
      cases h
  · by_cases hcolon : 0x3A ∈ target
    · obtain ⟨_, _, rfl, hbefore⟩ := eq_append_cons_of_mem hcolon
      rw [splitTarget_colon hplain hbefore] at h
      split at h
      · rename_i hagain
        cases h
        refine .colons hplain ?_
        rw [count_append, count_cons_self]
        have hpos := count_pos_iff.mpr hagain
        omega
      · rename_i honce
        cases h
        refine .barePort hne ?_ hbefore honce
        cases host with
        | nil => exact absurd rfl hne
        | cons => exact hplain
    · rw [splitTarget_plain hplain, dropWhile_unstopped hcolon] at h
      cases h
      exact .bare hne hplain hcolon

theorem digit_bounds {c : UInt8} (h : isDigit c) : isSpace c = false ∧ c ≠ 0x2B ∧ c ≠ 0x2D :=
  forall_byte (p := fun c => isDigit c → isSpace c = false ∧ c ≠ 0x2B ∧ c ≠ 0x2D)
    (by decide +kernel) c h

/-- `body` is what is behind the sign, or behind the blanks if there is none. -/
def Cut (blanks sign body : Bytes) : Prop :=
  (∀ c ∈ blanks, isSpace c) ∧ (sign = [0x2B] ∨ sign = [0x2D] ∨
    sign = [] ∧ ∀ c ∈ body.head?, isSpace c = false ∧ c ≠ 0x2B ∧ c ≠ 0x2D)

theorem cut_exists (text : Bytes) :
    ∃ blanks sign body, text = blanks ++ (sign ++ body) ∧ Cut blanks sign body := by
  have hsplit := (takeWhile_append_dropWhile (p := isSpace) (l := text)).symm
  have hblanks : ∀ c ∈ text.takeWhile isSpace, isSpace c = true := fun _ => mem_takeWhile_imp
  have hhead := head?_dropWhile_not isSpace text
  generalize text.takeWhile isSpace = blanks at hsplit hblanks
  generalize text.dropWhile isSpace = rest at hsplit hhead
  cases rest with
  | nil => exact ⟨blanks, [], [], hsplit, hblanks, .inr (.inr ⟨rfl, nofun⟩)⟩
  | cons c rest =>
    by_cases hplus : c = 0x2B
    · exact ⟨blanks, [0x2B], rest, hplus ▸ hsplit, hblanks, .inl rfl⟩
    by_cases hminus : c = 0x2D
    · exact ⟨blanks, [0x2D], rest, hminus ▸ hsplit, hblanks, .inr (.inl rfl)⟩
    refine ⟨blanks, [], c :: rest, hsplit, hblanks, .inr (.inr ⟨rfl, ?_⟩)⟩
    rintro _ ⟨⟩
    exact ⟨by simpa using hhead, hplus, hminus⟩

theorem strtoul_cut (h : Cut blanks sign body) : strtoul (blanks ++ (sign ++ body)) =
    if body.takeWhile isDigit = [] then (0, blanks ++ (sign ++ body))
    else if numeral (body.takeWhile isDigit) > ulongMax then (ulongMax, body.dropWhile isDigit)
    else (if sign = [0x2D] then (2 ^ 64 - numeral (body.takeWhile isDigit)) % 2 ^ 64
      else numeral (body.takeWhile isDigit), body.dropWhile isDigit) := by
  obtain ⟨hblanks, hsign⟩ := h
  have hvalue := foldl_digits fun c (hc : c ∈ body.takeWhile isDigit) => mem_takeWhile_imp hc
  simp only [strtoul, dropWhile_append_of_pos hblanks]
  rcases hsign with rfl | rfl | ⟨rfl, hhead⟩
  · simp [isSpace, hvalue]
  · simp [isSpace, hvalue]
  · cases body with
    | nil => rfl
    | cons c =>
      obtain ⟨hspace, hplus, hminus⟩ := hhead c rfl
      simp [hspace, hplus, hminus, hvalue]

theorem Numbered.cut (h : Numbered blanks sign digits port) : Cut blanks sign digits := by
  refine ⟨h.blank, ?_⟩
  rcases h.value with ⟨rfl | rfl, _⟩ | ⟨rfl, _⟩
  · refine .inr (.inr ⟨rfl, fun c hc => digit_bounds (h.digit c (mem_of_head? hc))⟩)
  · exact .inl rfl
  · exact .inr (.inl rfl)

theorem strtoul_port (text : Bytes) (port : Nat) :
    ((strtoul text).2 = [] ∧ (strtoul text).1 ≠ 0 ∧ (strtoul text).1 ≤ 65535 ∧
      (strtoul text).1 = port) ↔ PortRead (some text) port := by
  have hmax : ulongMax = 2 ^ 64 - 1 := rfl
  constructor
  · obtain ⟨blanks, sign, body, rfl, hcut⟩ := cut_exists text
    rw [strtoul_cut hcut]
    rintro ⟨hrest, hzero, hle, rfl⟩
    split at hrest
    · rename_i hnone
      rw [if_pos hnone] at hzero
      exact absurd rfl hzero
    rename_i hsome
    rw [if_neg hsome] at hzero hle ⊢
    have hbody : ∀ c ∈ body, isDigit c := by
      apply dropWhile_eq_nil_iff.mp
      split at hrest <;> exact hrest
    rw [takeWhile_eq_self_iff.mpr hbody] at hsome hzero hle ⊢
    split at hle
    · rw [hmax] at hle
      omega
    rename_i hword
    rw [if_neg hword] at hzero ⊢
    refine ⟨blanks, sign, body, rfl, hcut.1, hsome, hbody, ?_, Nat.pos_of_ne_zero hzero, hle⟩
    split
    · rename_i hminus
      rw [if_pos hminus] at hzero
      exact .inr ⟨hminus, by omega⟩
    · rename_i hplus
      refine .inl ⟨?_, rfl⟩
      rcases hcut.2 with hsign | hsign | ⟨hsign, _⟩
      · exact .inr hsign
      · exact absurd hsign hplus
      · exact .inl hsign
  · rintro ⟨_, sign, _, rfl, h⟩
    have hpos := h.pos
    have hle := h.le
    rw [strtoul_cut h.cut, takeWhile_eq_self_iff.mpr h.digit, dropWhile_eq_nil_iff.mpr h.digit,
      if_neg h.digits_ne]
    rcases h.value with ⟨hsign, hvalue⟩ | ⟨hsign, hvalue⟩
    · have hplus : sign ≠ [0x2D] := by rcases hsign with rfl | rfl <;> decide
      rw [if_neg (by omega), if_neg hplus]
      exact ⟨rfl, by omega, by omega, hvalue⟩
    · rw [if_neg (by omega), if_pos hsign]
      exact ⟨rfl, by omega, by omega, by omega⟩

theorem targetSplit_of_split (hlimit : target.length < addressMax)
    (h : splitTarget target = some (host, text)) (hne : target ≠ []) :
    targetSplit target hostLen = some (host', port) ↔
      host' = host ∧ host ≠ [] ∧ host.length < hostLen ∧ PortRead text port := by
  have hguard : ¬ (decide (target = []) || decide (target.length ≥ addressMax)) = true := by
    simp only [Bool.or_eq_true, decide_eq_true_eq, not_or]
    exact ⟨hne, not_le.mpr hlimit⟩
  rw [targetSplit, if_neg hguard, h]
  simp only [Bool.or_eq_true, decide_eq_true_eq]
  by_cases hhost : host = [] ∨ host.length ≥ hostLen
  · rw [if_pos hhost]
    constructor
    · exact nofun
    · rintro ⟨_, hne, hlen, _⟩
      rcases hhost with hempty | hlong
      · exact absurd hempty hne
      · exact absurd hlen (not_lt.mpr hlong)
  rw [if_neg hhost]
  rw [not_or, not_le] at hhost
  cases text with
  | none =>
    constructor
    · rintro ⟨⟩
      exact ⟨rfl, hhost.1, hhost.2, rfl⟩
    · rintro ⟨rfl, _, _, hzero⟩
      rw [hzero]
  | some t =>
    rw [← strtoul_port]
    cases t with
    | nil =>
      refine ⟨nofun, fun hread => ?_⟩
      obtain ⟨_, _, _, _, hzero, _⟩ := hread
      exact absurd rfl hzero
    | cons =>
      simp only
      constructor
      · intro haccept
        split at haccept
        · cases haccept
        · rename_i hgood
          simp only [not_or, ne_eq, Decidable.not_not, not_lt] at hgood
          cases haccept
          exact ⟨rfl, hhost.1, hhost.2, hgood.1.1, hgood.1.2, hgood.2, rfl⟩
      · rintro ⟨rfl, _, _, hrest, hzero, hmax, rfl⟩
        rw [if_neg]
        simp only [not_or, ne_eq, Decidable.not_not, not_lt]
        exact ⟨⟨hrest, hzero⟩, hmax⟩

theorem targetSplit_read (hlimit : target.length < addressMax) :
    targetSplit target hostLen = some (host, port) ↔
      ∃ text, Form target host text ∧ PortRead text port ∧ host.length < hostLen := by
  constructor
  · intro h
    have hne : target ≠ [] := by
      rintro rfl
      cases h
    cases hsplit : splitTarget target with
    | none => simp [targetSplit, hsplit] at h
    | some split =>
      obtain ⟨_, text⟩ := split
      obtain ⟨rfl, hhost, hlen, hread⟩ := (targetSplit_of_split hlimit hsplit hne).mp h
      exact ⟨text, form_of_split hsplit hhost, hread, hlen⟩
  · rintro ⟨_, hform, hread, hlen⟩
    exact (targetSplit_of_split hlimit hform.split hform.target_ne_nil).mpr
      ⟨rfl, hform.host_ne_nil, hlen, hread⟩

theorem PortNamed.read (h : PortNamed text port) : PortRead text port := by
  cases text with
  | none => exact h
  | some text =>
    obtain ⟨hdigits, hvalue, hpos, hle⟩ := h
    have hne : text ≠ [] := by
      rintro rfl
      rw [← hvalue] at hpos
      cases hpos
    exact ⟨[], [], text, rfl, nofun, hne, hdigits, .inl ⟨.inl rfl, hvalue⟩, hpos, hle⟩

theorem Numbered.plain (h : Numbered blanks sign digits port)
    (hdigits : ∀ c ∈ blanks ++ (sign ++ digits), isDigit c) : blanks = [] ∧ sign = [] := by
  refine ⟨eq_nil_iff_forall_not_mem.mpr fun c hc => ?_, ?_⟩
  · have hdigit := digit_bounds (hdigits c (mem_append_left _ hc))
    rw [h.blank c hc] at hdigit
    cases hdigit.1
  · have hsign : ∀ c ∈ sign, isDigit c := fun c hc =>
      hdigits c (mem_append_right _ (mem_append_left _ hc))
    rcases h.value with ⟨rfl | rfl, _⟩ | ⟨rfl, _⟩
    · rfl
    · exact absurd (hsign _ mem_cons_self) (by decide)
    · exact absurd (hsign _ mem_cons_self) (by decide)

theorem Numbered.named (h : Numbered [] [] digits port) : PortNamed (some digits) port := by
  rcases h.value with ⟨_, hvalue⟩ | ⟨⟨⟩, _⟩
  exact ⟨h.digit, hvalue, h.pos, h.le⟩

/-- An address is accepted exactly when it is a host, with or without brackets and a port, and is
split into these, exactly if it has no port that reads as one behind blanks or a sign. -/
theorem targetSplit_iff (target : Bytes) (hostLen : Nat) (hlimit : target.length < addressMax) :
    (∀ host port, targetSplit target hostLen = some (host, port) ↔
      ∃ text, Form target host text ∧ PortNamed text port ∧ host.length < hostLen) ↔
    ∀ host blanks sign digits port, Form target host (some (blanks ++ (sign ++ digits))) →
      host.length < hostLen → Numbered blanks sign digits port → blanks = [] ∧ sign = [] := by
  constructor
  · intro h host blanks sign digits port hform hlen hnumbered
    have hread : PortRead (some (blanks ++ (sign ++ digits))) port :=
      ⟨blanks, sign, digits, rfl, hnumbered⟩
    obtain ⟨_, hform', hnamed, _⟩ :=
      (h host port).mp ((targetSplit_read hlimit).mpr ⟨_, hform, hread, hlen⟩)
    cases hform.split.symm.trans hform'.split
    exact hnumbered.plain hnamed.1
  · intro h host port
    rw [targetSplit_read hlimit]
    constructor
    · rintro ⟨_ | _, hform, hread, hlen⟩
      · exact ⟨none, hform, hread, hlen⟩
      · obtain ⟨blanks, sign, digits, rfl, hnumbered⟩ := hread
        obtain ⟨rfl, rfl⟩ := h host blanks sign digits port hform hlen hnumbered
        exact ⟨_, hform, hnumbered.named, hlen⟩
    · rintro ⟨text, hform, hnamed, hlen⟩
      exact ⟨text, hform, hnamed.read, hlen⟩

/-- A name and a port. -/
theorem targetSplit_iff_named :
    targetSplit (literal "h:80") addressMax = some ([104], 80) ↔
      ∃ text, Form (literal "h:80") [104] text ∧ PortNamed text 80 ∧ 1 < addressMax := by
  refine (targetSplit_iff (literal "h:80") addressMax (by decide)).mpr ?_ [104] 80
  intro _ _ _ _ _ hform _ hnumbered
  have hsplit : splitTarget (literal "h:80") = some ([104], some [56, 48]) := by decide
  have htext := hsplit.symm.trans hform.split
  simp only [Option.some.injEq, Prod.mk.injEq] at htext
  exact hnumbered.plain (htext.2 ▸ all_eq_true.mp rfl)

theorem not_named (h : splitTarget target = some (host, some text)) (hc : c ∈ text)
    (hdigit : isDigit c = false) : ¬ ∃ t, Form target host t ∧ PortNamed t port := by
  rintro ⟨t, hform, hnamed⟩
  have hsplit := hform.split
  rw [h] at hsplit
  cases hsplit
  rw [hnamed.1 c hc] at hdigit
  cases hdigit

/-- " 80", "+80" and "-18446744073709551536" are no ports, and each is taken for port 80. -/
theorem signed_port_accepted :
    (targetSplit (literal "h: 80") addressMax = some ([104], 80) ∧
      ¬ ∃ text, Form (literal "h: 80") [104] text ∧ PortNamed text 80) ∧
    (targetSplit (literal "h:+80") addressMax = some ([104], 80) ∧
      ¬ ∃ text, Form (literal "h:+80") [104] text ∧ PortNamed text 80) ∧
    targetSplit (literal "h:-18446744073709551536") addressMax = some ([104], 80) ∧
      ¬ ∃ text, Form (literal "h:-18446744073709551536") [104] text ∧ PortNamed text 80 := by
  refine ⟨⟨by decide, ?_⟩, ⟨by decide, ?_⟩, by decide, ?_⟩
  · exact not_named rfl mem_cons_self rfl
  · exact not_named rfl mem_cons_self rfl
  · exact not_named rfl mem_cons_self rfl

end Inkwell.Mqtt
