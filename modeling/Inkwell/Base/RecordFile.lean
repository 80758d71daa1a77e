import Inkwell.Base.Errno
import Inkwell.Base.Text
import Inkwell.Library.Bytes

namespace Inkwell.RecordFile
open Library List

abbrev newline : UInt8 := 0x0A

/-- `fgets` with room for `n` bytes before the terminator, and the rest of the file. -/
@[grind =] def fgets : Nat → Bytes → Bytes × Bytes
  | 0, file => ([], file)
  | _ + 1, [] => ([], [])
  | n + 1, c :: file =>
    if c = newline then ([c], file) else (c :: (fgets n file).1, (fgets n file).2)

/-- What a C string function sees of a buffer. -/
def cString (buffer : Bytes) : Text := buffer.takeWhile (· != 0)

/-- `fgetc` up to a newline or the end. -/
def drainLine : Bytes → Bytes
  | [] => []
  | c :: file => if c = newline then file else drainLine file

def hexDigit (c : UInt8) : Option UInt8 :=
  if 0x30 ≤ c && c ≤ 0x39 then some (c - 0x30)
  else if 0x41 ≤ c && c ≤ 0x46 then some (c - 0x37)
  else if 0x61 ≤ c && c ≤ 0x66 then some (c - 0x57)
  else none

/-- `strtol` in base 16 of two bytes, as a `char`; blanks, signs and stray bytes are taken as it
does. -/
def strtolPair (a b : UInt8) : UInt8 :=
  match hexDigit a, hexDigit b with
  | some x, some y => 16 * x + y
  | some x, none => x
  | none, y =>
    if a = 0x2D then 0 - y.getD 0
    else if a = 0x2B || a = 0x20 || 0x09 ≤ a && a ≤ 0x0D then y.getD 0
    else 0

/-- A backslash that begins no escape is left out. -/
def unescape : Text → Text
  | c :: x :: a :: b :: rest =>
    if c = 0x5C then
      if x = 0x78 then strtolPair a b :: unescape rest else unescape (x :: a :: b :: rest)
    else c :: unescape (x :: a :: b :: rest)
  | c :: text => if c = 0x5C then unescape text else c :: unescape text
  | [] => []

/-- The record in a complete line, if it is none of those that are passed over. -/
def recordOf (line : Text) : Option (Text × Text) :=
  let line := line.takeWhile fun c => c != 0x0D && c != newline
  if line = [] ∨ line.head? = some 0x23 ∨ 0x3D ∉ line then none
  else some (line.takeWhile (· != 0x3D), cString (unescape ((line.dropWhile (· != 0x3D)).drop 1)))

/-- A turn of the loop: the record that is visited, if one is, and the rest of the file. -/
def readTurn (capacity : Nat) (file : Bytes) : Option (Text × Text) × Bytes :=
  let (buffer, rest) := fgets (capacity - 1) file
  let line := cString buffer
  if line.getLast? = some newline then (recordOf line, rest)
  else if line.length = capacity - 1 then
    match rest with
    | [] => (none, [])
    | c :: rest => if c = newline then (recordOf line, rest) else (none, drainLine rest)
  else (none, rest)

/-- The loop; a turn takes a byte at least. -/
def readFrom (capacity : Nat) : Nat → Bytes → List (Text × Text)
  | 0, _ => []
  | _ + 1, [] => []
  | fuel + 1, c :: file =>
    (readTurn capacity (c :: file)).1.toList ++
      readFrom capacity fuel (readTurn capacity (c :: file)).2

def visits (capacity : Nat) (file : Bytes) : List (Text × Text) :=
  readFrom capacity file.length file

structure Stream where
  bytes : Bytes
  failed : Bool := false

/-- `line` and `visit` are whether the two are given. -/
def recordRead (file : Option Stream) (line visit : Bool) (capacity : Nat) :
    Except Errno Unit × List (Text × Text) :=
  match file with
  | none => (.error .einval, [])
  | some stream =>
    if !line || capacity < 2 || !visit || capacity > 0x7FFFFFFF then (.error .einval, [])
    else (if stream.failed then .error .eio else .ok (), visits capacity stream.bytes)

def hexChar (n : UInt8) : UInt8 := if n < 10 then 0x30 + n else 0x57 + n

def escapeByte (c : UInt8) : Text :=
  if c < 0x20 || c = 0x5C || c = 0x3D then [0x5C, 0x78, hexChar (c / 16), hexChar (c % 16)] else [c]

def writeEscaped (value : Text) : Text := value.flatMap escapeByte

/-- What becomes of the text of an append: it is stored, or its first bytes are. -/
inductive Ending
  | stored
  | crashed (n : Nat)
  | erred (n : Nat)
  | unclosed (n : Nat) (e : Errno)

def Ending.result : Ending → Option (Except Errno Unit)
  | .stored => some (.ok ())
  | .crashed _ => none
  | .erred _ => some (.error .eio)
  | .unclosed _ e => some (.error e)

def Ending.kept (text : Text) : Ending → Text
  | .stored => text
  | .crashed n | .erred n | .unclosed n _ => text.take n

/-- A call of `inkwell_record_append`, `writeRecords` being the text that the function writes. -/
structure Append where
  path : Option Text
  writeRecords : Option Text
  opened : Option Errno := none
  ending : Ending := .stored

/-- What is returned, unless the process is gone, and the file. -/
def recordAppend (call : Append) (file : Bytes) : Option (Except Errno Unit) × Bytes :=
  match call.path, call.writeRecords with
  | some (_ :: _), some text =>
    match call.opened with
    | some e => (some (.error e), file)
    | none => (call.ending.result, file ++ call.ending.kept text)
  | _, _ => (some (.error .einval), file)

def appendAll (file : Bytes) (calls : List Append) : Bytes :=
  calls.foldl (fun file call => (recordAppend call file).2) file

def Whole (file : Bytes) : Prop := ∀ c, file.getLast? = some c → c = newline

theorem whole_nil : Whole [] := nofun

theorem whole_line (l : Bytes) : Whole (l ++ [newline]) := by
  intro c hc
  rw [getLast?_concat] at hc
  exact (Option.some.inj hc).symm

theorem Whole.tail (h : Whole (c :: file)) : Whole file := by
  cases file with
  | nil => exact whole_nil
  | cons => exact h

theorem Whole.rest_ne_nil (h : Whole (c :: file)) (hc : c ≠ newline) : file ≠ [] := by
  rintro rfl
  exact hc (h c rfl)

theorem fgets_append (h : Whole a) (hne : a ≠ []) (b : Bytes) :
    fgets n (a ++ b) = ((fgets n a).1, (fgets n a).2 ++ b) ∧ Whole (fgets n a).2 := by
  induction n generalizing a with
  | zero => exact ⟨rfl, h⟩
  | succ n ih =>
    cases a with
    | nil => exact absurd rfl hne
    | cons =>
      rw [cons_append]
      unfold fgets
      split
      · exact ⟨rfl, h.tail⟩
      · rename_i hc
        obtain ⟨hfgets, hwhole⟩ := ih h.tail (h.rest_ne_nil hc)
        rw [hfgets]
        exact ⟨rfl, hwhole⟩

theorem fgets_join (n : Nat) (file : Bytes) : (fgets n file).1 ++ (fgets n file).2 = file := by
  fun_induction fgets n file with
  | case1 | case2 | case3 => rfl
  | case4 n c _ _ ih => exact congrArg (c :: ·) ih

theorem fgets_length_le (n : Nat) (file : Bytes) : (fgets n file).1.length ≤ n := by
  fun_induction fgets n file with
  | case1 | case2 => exact Nat.zero_le _
  | case3 n => exact Nat.succ_le_succ (Nat.zero_le n)
  | case4 n c _ _ ih => exact Nat.succ_le_succ ih

theorem fgets_rest_lt (hn : 0 < n) (hne : file ≠ []) : (fgets n file).2.length < file.length := by
  have hjoin := congrArg List.length (fgets_join n file)
  have hpos : 0 < (fgets n file).1.length := by
    fun_cases fgets n file with
    | case1 => exact absurd hn (lt_irrefl 0)
    | case2 => exact absurd rfl hne
    | case3 | case4 => exact Nat.succ_pos _
  rw [length_append] at hjoin
  omega

theorem drainLine_append (h : Whole a) (hne : a ≠ []) :
    drainLine (a ++ b) = drainLine a ++ b ∧ Whole (drainLine a) := by
  induction a with
  | nil => exact absurd rfl hne
  | cons c a ih =>
    rw [cons_append]
    unfold drainLine
    split
    · exact ⟨rfl, h.tail⟩
    · rename_i hc
      exact ih h.tail (h.rest_ne_nil hc)

theorem drainLine_suffix (file : Bytes) : drainLine file <:+ file := by
  induction file with
  | nil => exact suffix_rfl
  | cons c file ih =>
    unfold drainLine
    split
    · exact suffix_cons c file
    · exact ih.trans (suffix_cons c file)

theorem cString_front : cString l <+: l := takeWhile_prefix _

theorem cString_eq_self (h : 0 ∉ l) : cString l = l := by
  apply takeWhile_eq_self_iff.mpr
  intro c hc
  exact bne_iff_ne.mpr fun h0 => h (h0 ▸ hc)

theorem readTurn_append (h : Whole a) (hne : a ≠ []) :
    readTurn capacity (a ++ b) = ((readTurn capacity a).1, (readTurn capacity a).2 ++ b) ∧
      Whole (readTurn capacity a).2 := by
  obtain ⟨hfgets, hrest⟩ := fgets_append (n := capacity - 1) h hne b
  have hjoin := fgets_join (capacity - 1) a
  have hlength := fgets_length_le (capacity - 1) a
  simp only [readTurn, hfgets]
  generalize fgets (capacity - 1) a = w at *
  obtain ⟨buffer, rest⟩ := w
  simp only at hjoin hlength hrest ⊢
  split
  · exact ⟨rfl, hrest⟩
  rename_i hlast
  split
  · cases rest with
    | nil =>
      -- a full buffer without a newline at its end is not the end of a whole line
      have hbuffer : cString buffer = buffer := by
        have hle := (cString_front (l := buffer)).length_le
        exact cString_front.eq_of_length (by omega)
      rw [append_nil] at hjoin
      subst hjoin
      rw [hbuffer] at hlast
      obtain ⟨c, hc⟩ := Option.ne_none_iff_exists'.mp (mt getLast?_eq_none_iff.mp hne)
      exact absurd (h c hc ▸ hc) hlast
    | cons =>
      simp only [cons_append]
      split
      · exact ⟨rfl, hrest.tail⟩
      · rename_i hc
        obtain ⟨hdrain, hwhole⟩ := drainLine_append hrest.tail (hrest.rest_ne_nil hc)
        rw [hdrain]
        exact ⟨rfl, hwhole⟩
  · exact ⟨rfl, hrest⟩

theorem readTurn_shorter (hcap : 2 ≤ capacity) (hne : file ≠ []) :
    (readTurn capacity file).2.length < file.length := by
  have hrest := fgets_rest_lt (n := capacity - 1) (by omega) hne
  simp only [readTurn]
  generalize fgets (capacity - 1) file = w at *
  obtain ⟨_, rest⟩ := w
  split
  · exact hrest
  split
  · cases rest with
    | nil => exact hrest
    | cons c rest =>
      have hdrain := (drainLine_suffix rest).length_le
      simp only
      split
      · exact Nat.lt_of_succ_lt hrest
      · exact hdrain.trans_lt (Nat.lt_of_succ_lt hrest)
  · exact hrest

theorem readTurn_torn (h : newline ∉ file) :
    (readTurn capacity file).1 = none ∧ newline ∉ (readTurn capacity file).2 := by
  have hjoin := fgets_join (capacity - 1) file
  simp only [readTurn]
  generalize fgets (capacity - 1) file = w at *
  obtain ⟨buffer, rest⟩ := w
  rw [← hjoin, mem_append, not_or] at h
  have hlast : (cString buffer).getLast? ≠ some newline := by
    intro hlast
    exact h.1 (cString_front.subset (mem_of_getLast? hlast))
  rw [if_neg hlast]
  split
  · cases rest with
    | nil => exact ⟨rfl, h.2⟩
    | cons c rest =>
      obtain ⟨hc, hrest⟩ := not_or.mp (mt mem_cons.mpr h.2)
      simp only [if_neg (Ne.symm hc)]
      exact ⟨trivial, fun hmem => hrest ((drainLine_suffix rest).subset hmem)⟩
  · exact ⟨rfl, h.2⟩

section Visits
variable (hcap : 2 ≤ capacity)
include hcap

theorem readFrom_fuel (hfuel : file.length ≤ fuel) (hfuel' : file.length ≤ fuel') :
    readFrom capacity fuel file = readFrom capacity fuel' file := by
  induction fuel generalizing file fuel' with
  | zero =>
    obtain rfl := length_eq_zero_iff.mp (Nat.le_zero.mp hfuel)
    cases fuel' <;> rfl
  | succ _ ih =>
    cases file with
    | nil => cases fuel' <;> rfl
    | cons c file =>
      cases fuel' with
      | zero => cases hfuel'
      | succ =>
        have hshorter := readTurn_shorter hcap (cons_ne_nil c file)
        exact congrArg (_ ++ ·) (ih (by omega) (by omega))

theorem visits_turn (hne : file ≠ []) :
    visits capacity file =
      (readTurn capacity file).1.toList ++ visits capacity (readTurn capacity file).2 := by
  cases file with
  | nil => exact absurd rfl hne
  | cons c file =>
    have hshorter := readTurn_shorter hcap (cons_ne_nil c file)
    exact congrArg (_ ++ ·) (readFrom_fuel hcap (Nat.le_of_lt_succ hshorter) le_rfl)

theorem visits_append (h : Whole a) :
    visits capacity (a ++ b) = visits capacity a ++ visits capacity b := by
  induction hn : a.length using Nat.strong_induction_on generalizing a with
  | _ n ih =>
    by_cases hne : a = []
    · rw [hne]
      rfl
    · obtain ⟨hturn, hwhole⟩ := readTurn_append h hne
      have hshorter := readTurn_shorter hcap hne
      rw [visits_turn hcap hne, visits_turn hcap (append_ne_nil_of_left_ne_nil hne b), hturn,
        ih _ (hn ▸ hshorter) hwhole rfl, append_assoc]

omit hcap in
theorem visits_torn (h : newline ∉ file) : visits capacity file = [] := by
  unfold visits
  generalize file.length = fuel
  induction fuel generalizing file with
  | zero => rfl
  | succ _ ih =>
    cases file with
    | nil => rfl
    | cons =>
      obtain ⟨hnone, hrest⟩ := readTurn_torn h
      rw [readFrom, hnone, ih hrest]
      rfl

end Visits

def Append.stored (call : Append) : Text := (recordAppend call []).2

def Append.completed (call : Append) : Bool := (recordAppend call []).1 matches some (.ok ())

theorem recordAppend_file : (recordAppend call file).2 = file ++ call.stored := by
  unfold Append.stored recordAppend
  split
  · split
    · exact (append_nil file).symm
    · rfl
  · exact (append_nil file).symm

theorem Append.completed_stored (call : Append) (h : call.completed) :
    call.stored = call.writeRecords.getD [] := by
  obtain ⟨path, text, opened, ending⟩ := call
  rcases path with _ | _ | _ <;> rcases text with _ | _ <;> rcases opened with _ | _ <;>
    rcases ending with _ | _ | _ | _ <;> first | rfl | cases h

/-- An append starts on a line of its own, unless nothing of it is stored, and one cut short has
no whole line stored. -/
def Apart : Bytes → List Append → Prop
  | _, [] => True
  | file, call :: calls =>
    (call.stored = [] ∨ Whole file) ∧ (call.completed = false → newline ∉ call.stored) ∧
      Apart (file ++ call.stored) calls

theorem visits_appendAll (hcap : 2 ≤ capacity) (h : Apart file calls) :
    visits capacity (appendAll file calls) = visits capacity file ++
      (calls.filter (·.completed)).flatMap fun call =>
        visits capacity (call.writeRecords.getD []) := by
  induction calls generalizing file with
  | nil => exact (append_nil _).symm
  | cons call calls ih =>
    obtain ⟨hstart, hcut, hrest⟩ := h
    have hstored : visits capacity (file ++ call.stored) =
        visits capacity file ++ visits capacity call.stored := by
      rcases hstart with hnone | hwhole
      · rw [hnone, append_nil]
        exact (append_nil _).symm
      · exact visits_append hcap hwhole
    have hall : appendAll file (call :: calls) = appendAll (file ++ call.stored) calls :=
      congrArg (appendAll · calls) recordAppend_file
    rw [hall, ih hrest, hstored, append_assoc]
    cases hdone : call.completed with
    | true => rw [filter_cons_of_pos hdone, flatMap_cons, call.completed_stored hdone]
    | false =>
      rw [filter_cons_of_neg (by simp [hdone]), visits_torn (hcut hdone)]
      rfl

structure Record where
  key : Text
  value : Text
  named : key ≠ [] ∧ key.head? ≠ some 0x23
  plain : ∀ c ∈ key, c ≠ 0 ∧ c ≠ newline ∧ c ≠ 0x0D ∧ c ≠ 0x3D
  nulFree : 0 ∉ value

def Record.line (r : Record) : Text := r.key ++ 0x3D :: writeEscaped r.value

def recordText (records : List Record) : Text := records.flatMap fun r => r.line ++ [newline]

theorem escapeByte_plain : ∀ d ∈ escapeByte c, d ≠ 0 ∧ d ≠ newline ∧ d ≠ 0x0D :=
  forall_byte (p := fun c => ∀ d ∈ escapeByte c, d ≠ 0 ∧ d ≠ newline ∧ d ≠ 0x0D)
    (by decide +kernel) c

theorem unescape_cons (hc : c ≠ 0x5C) : unescape (c :: text) = c :: unescape text := by
  rcases text with _ | ⟨x, _ | ⟨a, _ | ⟨b, rest⟩⟩⟩ <;> exact if_neg hc

theorem strtolPair_hexChar : strtolPair (hexChar (c / 16)) (hexChar (c % 16)) = c :=
  forall_byte (p := fun c => strtolPair (hexChar (c / 16)) (hexChar (c % 16)) = c)
    (by decide +kernel) c

theorem unescape_writeEscaped : unescape (writeEscaped value) = value := by
  induction value with
  | nil => rfl
  | cons c value ih =>
    have hcons : writeEscaped (c :: value) = escapeByte c ++ writeEscaped value := rfl
    rw [hcons]
    unfold escapeByte
    split
    · have hescape : unescape ([0x5C, 0x78, hexChar (c / 16), hexChar (c % 16)] ++
          writeEscaped value) =
          strtolPair (hexChar (c / 16)) (hexChar (c % 16)) :: unescape (writeEscaped value) := rfl
      rw [hescape, strtolPair_hexChar, ih]
    · rename_i hplain
      have hc : c ≠ 0x5C := by
        rintro rfl
        exact hplain rfl
      exact (unescape_cons hc).trans (congrArg (c :: ·) ih)

theorem Record.line_plain (r : Record) : ∀ c ∈ r.line, c ≠ 0 ∧ c ≠ newline ∧ c ≠ 0x0D := by
  intro c hc
  rcases mem_append.mp hc with hkey | hvalue
  · have hplain := r.plain c hkey
    exact ⟨hplain.1, hplain.2.1, hplain.2.2.1⟩
  rcases mem_cons.mp hvalue with rfl | hvalue
  · decide
  · obtain ⟨d, _, hd⟩ := mem_flatMap.mp hvalue
    exact escapeByte_plain c hd

theorem Record.recordOf_line (r : Record) : recordOf r.line = some (r.key, r.value) := by
  have hline : r.line.takeWhile (fun c => c != 0x0D && c != newline) = r.line := by
    apply takeWhile_eq_self_iff.mpr
    intro c hc
    obtain ⟨_, hlf, hcr⟩ := r.line_plain c hc
    simp [hlf, hcr]
  have hkey : ∀ c ∈ r.key, (c != 0x3D) := fun c hc => bne_iff_ne.mpr (r.plain c hc).2.2.2
  have hhead : r.line.head? = r.key.head? := head?_append_of_ne_nil _ r.named.1
  have hmem : (0x3D : UInt8) ∈ r.line := mem_append_right _ mem_cons_self
  have hne : r.line ≠ [] := ne_nil_of_mem hmem
  simp only [recordOf, hline]
  rw [if_neg (by simp [hne, hhead, r.named.2, hmem])]
  have htake : r.line.takeWhile (· != 0x3D) = r.key := by
    unfold Record.line
    rw [takeWhile_append_of_pos hkey]
    simp
  have hdrop : r.line.dropWhile (· != 0x3D) = 0x3D :: writeEscaped r.value := by
    unfold Record.line
    rw [dropWhile_append_of_pos hkey]
    simp
  rw [htake, hdrop, drop_one, tail_cons, unescape_writeEscaped, cString_eq_self r.nulFree]

theorem fgets_line (h : newline ∉ l) (hn : l.length < n) :
    fgets n (l ++ newline :: rest) = (l ++ [newline], rest) := by
  induction l generalizing n with
  | nil =>
    obtain ⟨_, rfl⟩ := Nat.exists_eq_succ_of_ne_zero (ne_of_gt hn)
    exact if_pos rfl
  | cons c l ih =>
    obtain ⟨_, rfl⟩ := Nat.exists_eq_succ_of_ne_zero (ne_of_gt (Nat.zero_lt_of_lt hn))
    obtain ⟨hc, hl⟩ := not_or.mp (mt mem_cons.mpr h)
    rw [cons_append, fgets, if_neg (Ne.symm hc), ih hl (Nat.lt_of_succ_lt_succ hn)]
    rfl

theorem fgets_full (h : newline ∉ l) (rest : Bytes) : fgets l.length (l ++ rest) = (l, rest) := by
  induction l with
  | nil => rfl
  | cons c l ih =>
    obtain ⟨hc, hl⟩ := not_or.mp (mt mem_cons.mpr h)
    rw [length_cons, cons_append, fgets, if_neg (Ne.symm hc), ih hl]

theorem drainLine_line (h : newline ∉ l) : drainLine (l ++ newline :: rest) = rest := by
  induction l with
  | nil => exact if_pos rfl
  | cons c l ih =>
    obtain ⟨hc, hl⟩ := not_or.mp (mt mem_cons.mpr h)
    exact (if_neg (Ne.symm hc)).trans (ih hl)

theorem recordOf_newline : recordOf (l ++ [newline]) = recordOf l := by
  have hline : (l ++ [newline]).takeWhile (fun c => c != 0x0D && c != newline) =
      l.takeWhile fun c => c != 0x0D && c != newline := by
    induction l with
    | nil => rfl
    | cons c l ih => rw [cons_append, takeWhile_cons, takeWhile_cons, ih]
  unfold recordOf
  rw [hline]

theorem cString_append (h : 0 ∈ l) : cString (l ++ rest) = cString l := by
  induction l with
  | nil => cases h
  | cons c l ih =>
    unfold cString at *
    rw [cons_append, takeWhile_cons, takeWhile_cons]
    split
    · rename_i hc
      rw [ih ((mem_cons.mp h).resolve_left (Ne.symm (bne_iff_ne.mp hc)))]
    · rfl

theorem cString_shorter (h : 0 ∈ l) : (cString l).length < l.length := by
  apply Nat.lt_of_le_of_ne cString_front.length_le
  intro hlength
  rw [← cString_front.eq_of_length hlength] at h
  exact absurd (mem_takeWhile_imp h) (by decide)

/-- What is visited of a line: its record, if there is one and the line is free of NULs and has
room. -/
def lineVisit (capacity : Nat) (l : Bytes) : Option (Text × Text) :=
  if l.length < capacity ∧ 0 ∉ l then recordOf l else none

theorem readTurn_line (hcap : 2 ≤ capacity) (h : newline ∉ l)
    (hover : capacity ≤ l.length → 0 ∉ l.take (capacity - 1)) :
    ∃ rest, readTurn capacity (l ++ [newline]) = (lineVisit capacity l, rest) ∧
      (rest = [] ∨ rest = [newline]) := by
  have hlast : ∀ {text}, text <+: l → text.getLast? ≠ some newline := fun hfront hlast =>
    h (hfront.subset (mem_of_getLast? hlast))
  unfold lineVisit readTurn
  rcases Nat.lt_trichotomy l.length (capacity - 1) with hlt | hfull | hlong
  · rw [fgets_line h hlt]
    refine ⟨[], ?_, .inl rfl⟩
    by_cases hnul : 0 ∈ l
    · have hshort := cString_shorter hnul
      simp only [cString_append hnul]
      rw [if_neg (hlast cString_front), if_neg (by omega), if_neg (by simp [hnul])]
    · have hself : cString (l ++ [newline]) = l ++ [newline] := by
        apply cString_eq_self
        rw [mem_append, mem_singleton, not_or]
        exact ⟨hnul, by decide⟩
      simp only [hself]
      rw [if_pos getLast?_concat, if_pos ⟨by omega, hnul⟩, recordOf_newline]
  · rw [← hfull, fgets_full h]
    by_cases hnul : 0 ∈ l
    · have hshort := cString_shorter hnul
      refine ⟨[newline], ?_, .inr rfl⟩
      simp only
      rw [if_neg (hlast cString_front), if_neg (by omega), if_neg (by simp [hnul])]
    · refine ⟨[], ?_, .inl rfl⟩
      simp only [cString_eq_self hnul]
      rw [if_neg (hlast prefix_rfl), if_pos trivial, if_pos trivial, if_pos ⟨by omega, hnul⟩]
  · -- what did not fit is read up to its newline
    have hnul := hover (by omega)
    obtain ⟨front, c, back, rfl, hfront⟩ : ∃ front c back, l = front ++ c :: back ∧
        front.length = capacity - 1 := by
      refine ⟨l.take (capacity - 1), _, _, (take_append_drop (capacity - 1) l).symm.trans
        (congrArg _ (drop_eq_getElem_cons hlong)), ?_⟩
      rw [length_take]
      omega
    rw [← hfront, take_left] at hnul
    obtain ⟨hfree, hrest⟩ := not_or.mp (mt mem_append.mpr h)
    obtain ⟨hc, hback⟩ := not_or.mp (mt mem_cons.mpr hrest)
    refine ⟨[], ?_, .inl rfl⟩
    rw [← hfront, append_assoc, fgets_full hfree]
    simp only [cString_eq_self hnul]
    rw [if_neg (hlast ⟨_, rfl⟩), if_pos trivial, if_neg (by omega)]
    simp only [cons_append]
    rw [if_neg (Ne.symm hc), drainLine_line hback]

theorem visits_line (hcap : 2 ≤ capacity) (h : newline ∉ l)
    (hover : capacity ≤ l.length → 0 ∉ l.take (capacity - 1)) :
    visits capacity (l ++ [newline]) = (lineVisit capacity l).toList := by
  obtain ⟨rest, hturn, hrest⟩ := readTurn_line hcap h hover
  have hnone : visits capacity rest = [] := by
    rcases hrest with rfl | rfl
    · rfl
    · have hfgets : fgets (capacity - 1) [newline] = ([newline], []) :=
        fgets_line (l := []) not_mem_nil (by rw [length_nil]; omega)
      rw [visits_turn hcap (cons_ne_nil _ _), readTurn, hfgets]
      rfl
  rw [visits_turn hcap (append_ne_nil_of_right_ne_nil _ (cons_ne_nil _ _)), hturn, hnone,
    append_nil]

/-- The `i`-th of the pieces of a line that fill the buffer. -/
def piece (capacity i : Nat) (l : Bytes) : Bytes :=
  (l.drop (i * (capacity - 1))).take (capacity - 1)

/-- Each of the first pieces of a line hides by a NUL that it fills the buffer, and the rest, taken
for a line, has a record. -/
def Strays (capacity : Nat) (l : Bytes) : Prop :=
  ∃ k > 0, (∀ i < k, 0 ∈ piece capacity i l) ∧
    lineVisit capacity (l.drop (k * (capacity - 1))) ≠ none

theorem piece_succ : piece capacity (i + 1) l = piece capacity i (l.drop (capacity - 1)) := by
  rw [piece, piece, drop_drop, Nat.succ_mul, add_comm]

theorem lineVisit_nul (h : 0 ∈ l) : lineVisit capacity l = none := if_neg fun hfree => hfree.2 h

theorem Strays.nul (h : Strays capacity l) : 0 ∈ l.take (capacity - 1) := by
  obtain ⟨k, hk, hpieces, -⟩ := h
  have hfirst := hpieces 0 hk
  rwa [piece, zero_mul, drop_zero] at hfirst

theorem Strays.long (h : Strays capacity l) : capacity ≤ l.length := by
  obtain ⟨k, hk, -, hvisit⟩ := h
  by_contra hshort
  have hle : capacity - 1 ≤ k * (capacity - 1) := Nat.le_mul_of_pos_left _ hk
  rw [drop_eq_nil_of_le (by omega)] at hvisit
  exact hvisit (by simp [lineVisit, recordOf])

theorem strays_hidden (hnul : 0 ∈ l.take (capacity - 1)) : Strays capacity l ↔
    lineVisit capacity (l.drop (capacity - 1)) ≠ none ∨
      Strays capacity (l.drop (capacity - 1)) := by
  constructor
  · rintro ⟨_ | _ | k, hk, hpieces, hvisit⟩
    · cases hk
    · rw [zero_add, one_mul] at hvisit
      exact .inl hvisit
    · refine .inr ⟨k + 1, Nat.succ_pos k, fun i hi => piece_succ ▸ hpieces _ (by omega), ?_⟩
      rwa [drop_drop, add_comm, ← Nat.succ_mul]
  · have hfirst : 0 ∈ piece capacity 0 l := by rwa [piece, zero_mul, drop_zero]
    rintro (hvisit | ⟨k, -, hpieces, hvisit⟩)
    · refine ⟨1, Nat.one_pos, fun i hi => ?_, by rwa [one_mul]⟩
      rwa [Nat.lt_one_iff.mp hi]
    · refine ⟨k + 1, Nat.succ_pos k, fun i hi => ?_, ?_⟩
      · cases i with
        | zero => exact hfirst
        | succ i => exact piece_succ ▸ hpieces i (by omega)
      · rwa [drop_drop, add_comm, ← Nat.succ_mul] at hvisit

theorem visits_hidden (hcap : 2 ≤ capacity) (h : newline ∉ l) (hlong : capacity ≤ l.length)
    (hnul : 0 ∈ l.take (capacity - 1)) :
    visits capacity (l ++ [newline]) = visits capacity (l.drop (capacity - 1) ++ [newline]) := by
  have hfront : (l.take (capacity - 1)).length = capacity - 1 := by
    rw [length_take]
    omega
  have hfree : newline ∉ l.take (capacity - 1) := fun hmem => h (mem_of_mem_take hmem)
  have hfgets : fgets (capacity - 1) (l ++ [newline]) =
      (l.take (capacity - 1), l.drop (capacity - 1) ++ [newline]) := by
    have hfull := fgets_full hfree (l.drop (capacity - 1) ++ [newline])
    rwa [hfront, ← append_assoc, take_append_drop] at hfull
  have hshort := cString_shorter hnul
  have hlast : (cString (l.take (capacity - 1))).getLast? ≠ some newline := fun hlast =>
    hfree (cString_front.subset (mem_of_getLast? hlast))
  rw [visits_turn hcap (append_ne_nil_of_right_ne_nil _ (cons_ne_nil _ _)), readTurn, hfgets]
  simp only
  rw [if_neg hlast, if_neg (by omega)]
  rfl

theorem visits_strays (hcap : 2 ≤ capacity) (h : newline ∉ l) :
    (¬Strays capacity l → visits capacity (l ++ [newline]) = (lineVisit capacity l).toList) ∧
      (Strays capacity l → visits capacity (l ++ [newline]) ≠ []) := by
  induction hn : l.length using Nat.strong_induction_on generalizing l with
  | _ n ih =>
    by_cases hhidden : capacity ≤ l.length ∧ 0 ∈ l.take (capacity - 1)
    · obtain ⟨hlong, hnul⟩ := hhidden
      have hrest : (l.drop (capacity - 1)).length < n := by
        rw [length_drop]
        omega
      obtain ⟨hplain, hstray⟩ := ih _ hrest (fun hmem => h (mem_of_mem_drop hmem)) rfl
      rw [visits_hidden hcap h hlong hnul, strays_hidden hnul, not_or, not_not,
        lineVisit_nul (mem_of_mem_take hnul)]
      refine ⟨fun hnone => (hplain hnone.2).trans (by rw [hnone.1]), ?_⟩
      rintro (hvisit | hstrays)
      · by_cases hstrays : Strays capacity (l.drop (capacity - 1))
        · exact hstray hstrays
        · obtain ⟨r, hr⟩ := Option.ne_none_iff_exists'.mp hvisit
          rw [hplain hstrays, hr]
          exact cons_ne_nil _ _
      · exact hstray hstrays
    · have hnot : ¬Strays capacity l := fun hs => hhidden ⟨hs.long, hs.nul⟩
      have hover : capacity ≤ l.length → 0 ∉ l.take (capacity - 1) := not_and.mp hhidden
      exact ⟨fun _ => visits_line hcap h hover, fun hs => absurd hs hnot⟩

/-- What is visited is the records of the terminated lines that fit, each from the start of its
line, exactly if no record strays from a line that does not. -/
theorem lines_visited (capacity : Nat) (hcap : 2 ≤ capacity) (lines : List Bytes)
    (hlines : ∀ l ∈ lines, newline ∉ l) (tail : Bytes) (htail : newline ∉ tail) :
    visits capacity (lines.flatMap (· ++ [newline]) ++ tail) =
      lines.filterMap (lineVisit capacity) ↔ ∀ l ∈ lines, ¬Strays capacity l := by
  suffices h : (lines.filterMap (lineVisit capacity)).length ≤
      (visits capacity (lines.flatMap (· ++ [newline]) ++ tail)).length ∧
        (visits capacity (lines.flatMap (· ++ [newline]) ++ tail) =
          lines.filterMap (lineVisit capacity) ↔ ∀ l ∈ lines, ¬Strays capacity l) from h.2
  induction lines with
  | nil =>
    have hnone : visits capacity tail = [] := visits_torn htail
    exact ⟨Nat.zero_le _, iff_of_true hnone (forall_mem_nil _)⟩
  | cons l lines ih =>
    obtain ⟨hplain, hstray⟩ := visits_strays hcap (hlines l mem_cons_self)
    obtain ⟨_, hrest⟩ := ih fun l' hl' => hlines l' (mem_cons_of_mem _ hl')
    have hcons : (l :: lines).filterMap (lineVisit capacity) =
        (lineVisit capacity l).toList ++ lines.filterMap (lineVisit capacity) := by
      cases hvisit : lineVisit capacity l with
      | none => exact filterMap_cons_none hvisit
      | some => exact filterMap_cons_some hvisit
    rw [hcons, flatMap_cons, append_assoc, visits_append hcap (whole_line l), length_append,
      length_append, forall_mem_cons]
    by_cases hs : Strays capacity l
    · have hpos := length_pos_iff.mpr (hstray hs)
      rw [lineVisit_nul (mem_of_mem_take hs.nul), Option.toList_none, nil_append, length_nil]
      refine ⟨by omega, iff_of_false (fun heq => ?_) fun hnone => hnone.1 hs⟩
      have hlen := congrArg List.length heq
      rw [length_append] at hlen
      omega
    · rw [hplain hs, append_cancel_left_eq, hrest]
      exact ⟨by omega, (and_iff_right hs).symm⟩

/-- A line that does not fit, one that does, and one that is not terminated. -/
theorem lines_visited_mixed :
    visits 8 (literal "overlong=1\na=1\nb=2") = [(literal "a", literal "1")] := by
  have hlines := lines_visited 8 (by decide) [literal "overlong=1", literal "a=1"] (by decide)
    (literal "b=2") (by decide)
  refine (hlines.mpr fun l hl hs => ?_).trans (by decide)
  have hplain : ∀ l ∈ [literal "overlong=1", literal "a=1"], 0 ∉ l := by decide
  exact hplain l hl (mem_of_mem_take hs.nul)

/-- A NUL hides that a line filled the buffer, and the rest of it is visited as a record. -/
theorem nul_line_visited :
    visits 8 ([0x61, 0x00] ++ literal "bcdefx=1\n") = [(literal "x", literal "1")] := by
  decide

theorem visits_recordText (hcap : 2 ≤ capacity) (records : List Record)
    (hfits : ∀ r ∈ records, r.line.length < capacity) :
    visits capacity (recordText records) = records.map fun r => (r.key, r.value) := by
  induction records with
  | nil => rfl
  | cons r records ih =>
    have hlf : newline ∉ r.line := fun hmem => (r.line_plain _ hmem).2.1 rfl
    have hnul : 0 ∉ r.line := fun hmem => (r.line_plain _ hmem).1 rfl
    have hroom := hfits r mem_cons_self
    have hr : lineVisit capacity r.line = some (r.key, r.value) :=
      (if_pos ⟨hroom, hnul⟩).trans r.recordOf_line
    have htext : recordText (r :: records) = (r.line ++ [newline]) ++ recordText records := rfl
    rw [htext, visits_append hcap (whole_line _), visits_line hcap hlf (by omega), hr,
      ih fun r' hr' => hfits r' (mem_cons_of_mem _ hr')]
    rfl

theorem recordRead_visits (hcap : 2 ≤ capacity) (hmax : capacity ≤ 0x7FFFFFFF) :
    recordRead (some { bytes }) true true capacity = (.ok (), visits capacity bytes) := by
  rw [recordRead, if_neg]
  · rfl
  · simp only [Bool.not_true, Bool.false_or, Bool.or_false, Bool.or_eq_true, decide_eq_true_eq]
    omega

/-- Written records are read back, and a value by itself as well. -/
theorem records_read (capacity : Nat) (hcap : 2 ≤ capacity) (hmax : capacity ≤ 0x7FFFFFFF)
    (records : List Record) (hfits : ∀ r ∈ records, r.line.length < capacity) :
    recordRead (some { bytes := recordText records }) true true capacity =
      (.ok (), records.map fun r => (r.key, r.value)) ∧
    ∀ value, 0 ∉ value → unescape (writeEscaped value) = value := by
  rw [recordRead_visits hcap hmax, visits_recordText hcap records hfits]
  exact ⟨rfl, fun _ _ => unescape_writeEscaped⟩

theorem records_read_escaped :
    recordRead (some { bytes := literal "k=a\\x3db\\x0a\n" }) true true 16 =
      (.ok (), [(literal "k", literal "a=b\n")]) :=
  (records_read 16 (by decide) (by decide)
    [⟨literal "k", literal "a=b\n", by decide, by decide +kernel, by decide⟩] (by decide)).1

/-- After appends that keep apart, the records read are those of the completed ones, in order and
behind what was there before. -/
theorem appends_visited (capacity : Nat) (hcap : 2 ≤ capacity) (hmax : capacity ≤ 0x7FFFFFFF)
    (file : Bytes) (calls : List Append) (h : Apart file calls) :
    recordRead (some { bytes := appendAll file calls }) true true capacity =
      (.ok (), visits capacity file ++ (calls.filter (·.completed)).flatMap fun call =>
        visits capacity (call.writeRecords.getD [])) ∧
    ∀ records : List Record, (∀ r ∈ records, r.line.length < capacity) →
      visits capacity (recordText records) = records.map fun r => (r.key, r.value) := by
  refine ⟨?_, visits_recordText hcap⟩
  rw [← visits_appendAll hcap h, recordRead_visits hcap hmax]

/-- An append, and one that is cut short before its newline. -/
theorem appends_visited_torn_tail :
    let calls : List Append :=
      [{ path := some (literal "f"), writeRecords := some (literal "a=1\n") },
        { path := some (literal "f"), writeRecords := some (literal "b=2\n"),
          ending := .crashed 3 }]
    recordRead (some { bytes := appendAll [] calls }) true true 64 =
      (.ok (), [(literal "a", literal "1")]) := by
  intro calls
  have happart : Apart [] calls := by
    refine ⟨.inr whole_nil, nofun, .inr (whole_line (literal "a=1")), fun _ => ?_, trivial⟩
    decide
  exact (appends_visited 64 (by decide) (by decide) [] calls happart).1.trans (by decide)

/-- One append is cut short before its newline: what is then read is the record of neither it nor
the next, which completed. -/
theorem torn_append_swallows_next :
    let calls : List Append :=
      [{ path := some (literal "f"), writeRecords := some (literal "a=1\n"), ending := .crashed 3 },
        { path := some (literal "f"), writeRecords := some (literal "b=2\n") }]
    (calls.map (·.completed) = [false, true]) ∧
      visits 64 (appendAll [] calls) = [(literal "a", literal "1b=2")] ∧
      visits 64 (literal "b=2\n") = [(literal "b", literal "2")] := by
  decide

end Inkwell.RecordFile
