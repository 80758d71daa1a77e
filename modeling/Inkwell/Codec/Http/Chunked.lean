import Inkwell.Codec.Http.Segmentation

namespace Inkwell.Http
open Library List

def lineEnd (crlf : Bool) : Bytes := if crlf then [CR, LF] else [LF]

def hexValueFrom (n : Nat) (digits : Bytes) : Nat :=
  digits.foldl (fun n c => n * 16 + (hex c).getD 0) n

/-- A chunk-size line: digits in either case, blanks and a `;` extension, at most 127 bytes before
the LF. -/
structure SizeLine (size : Nat) where
  digits : Bytes
  blanks : Bytes
  extension : Bytes
  crlf : Bool
  digits_ne : digits ≠ []
  digits_hex : ∀ c ∈ digits, (hex c).isSome
  value : hexValueFrom 0 digits = size
  blanks_blank : ∀ c ∈ blanks, blank c
  extension_start : ∀ c ∈ extension.head?, c = ';'.toUInt8
  extension_clean : ∀ c ∈ extension, c ≠ CR ∧ c ≠ LF ∧ c ≠ 0
  short : digits.length + blanks.length + extension.length + (lineEnd crlf).length ≤ 128

def SizeLine.text (l : SizeLine size) : Bytes := l.digits ++ l.blanks ++ l.extension

def SizeLine.bytes (l : SizeLine size) : Bytes := l.text ++ lineEnd l.crlf

structure Spelling (size : Nat) (digits blanks extension : Bytes) : Prop where
  digits_ne : digits ≠ []
  digits_hex : ∀ c ∈ digits, (hex c).isSome
  value : hexValueFrom 0 digits = size
  blanks_blank : ∀ c ∈ blanks, blank c
  extension_start : ∀ c ∈ extension.head?, c = ';'.toUInt8
  extension_clean : ∀ c ∈ extension, c ≠ CR ∧ c ≠ LF ∧ c ≠ 0

theorem SizeLine.spelling (l : SizeLine size) : Spelling size l.digits l.blanks l.extension :=
  ⟨l.digits_ne, l.digits_hex, l.value, l.blanks_blank, l.extension_start, l.extension_clean⟩

/-- A chunk and how it is written. Its length is a C object's, so it fits 64 bits. -/
structure Chunk where
  data : Bytes
  line : SizeLine data.length
  crlf : Bool
  data_ne : data ≠ []
  data_fits : data.length ≤ uint64Max

def Chunk.bytes (c : Chunk) : Bytes := c.line.bytes ++ c.data ++ lineEnd c.crlf

/-- The last-chunk line and the trailer: lines that are not empty, then the empty one. -/
structure Trailer where
  line : SizeLine 0
  lines : List Bytes
  crlf : Bool
  lines_no_lf : ∀ l ∈ lines, LF ∉ l
  lines_ne : ∀ l ∈ lines, l ≠ [] ∧ l ≠ [CR]
  short : (lines.map (· ++ [LF])).flatten.length + (lineEnd crlf).length < headMax

def Trailer.text (t : Trailer) : Bytes := (t.lines.map (· ++ [LF])).flatten ++ lineEnd t.crlf

def Trailer.bytes (t : Trailer) : Bytes := t.line.bytes ++ t.text

def chunkedBytes (chunks : List Chunk) (trailer : Trailer) : Bytes :=
  (chunks.map Chunk.bytes).flatten ++ trailer.bytes

theorem hexValueFrom_ge (n : Nat) (digits : Bytes) : n ≤ hexValueFrom n digits := by
  induction digits generalizing n with
  | nil => exact le_refl n
  | cons c _ ih =>
    have h := ih (n * 16 + (hex c).getD 0)
    simp only [hexValueFrom, foldl_cons] at h ⊢
    omega

theorem chunkSizeDigits_value (hd : ∀ c ∈ digits, (hex c).isSome)
    (hr : ∀ c ∈ rest.head?, hex c = none) (size at_ : Nat) :
    chunkSizeDigits size at_ (digits ++ rest) =
        some (hexValueFrom size digits, at_ + digits.length) ∨
      chunkSizeDigits size at_ (digits ++ rest) = none ∧ uint64Max < hexValueFrom size digits := by
  induction digits generalizing size at_ with
  | nil =>
    cases rest with
    | nil => exact .inl rfl
    | cons c =>
      rw [nil_append, chunkSizeDigits, hr c rfl]
      exact .inl rfl
  | cons c digits ih =>
    obtain ⟨v, hc⟩ := Option.isSome_iff_exists.mp (hd c mem_cons_self)
    have hnext := ih (fun c h => hd c (mem_cons_of_mem _ h)) (size * 16 + v) (at_ + 1)
    have hge := hexValueFrom_ge (size * 16 + v) digits
    have hvalue : hexValueFrom size (c :: digits) = hexValueFrom (size * 16 + v) digits := by
      rw [hexValueFrom, foldl_cons, hc]
      rfl
    rw [cons_append, chunkSizeDigits, hc, hvalue, length_cons, add_comm digits.length, ← add_assoc]
    simp only
    split
    · exact .inr ⟨rfl, by omega⟩
    · exact hnext

theorem dropWhile_blanks (blanks rest : Bytes) (hb : ∀ c ∈ blanks, blank c = true)
    (hr : ∀ c ∈ rest.head?, blank c = false) : (blanks ++ rest).dropWhile blank = rest := by
  rw [dropWhile_append_of_pos hb]
  cases rest with
  | nil => rfl
  | cons c => simp [hr c rfl]

theorem Spelling.chunkSizeLine_eq (h : Spelling size digits blanks extension) :
    chunkSizeLine (digits ++ blanks ++ extension) = some size ∨
      chunkSizeLine (digits ++ blanks ++ extension) = none ∧ uint64Max < size := by
  have hsemi : ∀ c ∈ extension.head?, hex c = none ∧ blank c = false := by
    intro c hc
    rw [h.extension_start c hc]
    decide
  have hrest : ∀ c ∈ (blanks ++ extension).head?, hex c = none := by
    intro c hc
    cases blanks with
    | nil => exact (hsemi c hc).1
    | cons b =>
      rw [← Option.some.inj hc]
      exact hex_of_blank (h.blanks_blank b mem_cons_self)
  have hlen : ¬ 0 + digits.length = 0 := by simpa using h.digits_ne
  have hdrop : ((digits ++ (blanks ++ extension)).drop (0 + digits.length)).dropWhile blank =
      extension := by
    rw [zero_add, drop_left]
    exact dropWhile_blanks _ _ h.blanks_blank fun c hc => (hsemi c hc).2
  have hstart : extension.head?.any (· != ';'.toUInt8) = false := by
    cases he : extension.head? with
    | none => rfl
    | some c => simp [h.extension_start c (by simp [he])]
  have hclean : extension.any (fun c => c == CR || c == 0) = false := by
    rw [any_eq_false]
    intro c hc
    obtain ⟨h₁, -, h₂⟩ := h.extension_clean c hc
    simp [h₁, h₂]
  rw [append_assoc, ← h.value]
  rcases chunkSizeDigits_value h.digits_hex hrest 0 0 with hd | ⟨hd, hlarge⟩
  · simp only [chunkSizeLine, hd, hlen, if_false, hdrop, hstart, hclean,
      Bool.false_eq_true, true_or]
  · simp [chunkSizeLine, hd, hlarge]

theorem SizeLine.chunkSizeLine_text (l : SizeLine size) (hs : size ≤ uint64Max) :
    chunkSizeLine l.text = some size :=
  l.spelling.chunkSizeLine_eq.resolve_right fun h => not_lt.mpr hs h.2

theorem Spelling.clean (h : Spelling size digits blanks extension) :
    LF ∉ digits ++ blanks ++ extension ∧ ∀ c ∈ digits ++ blanks ++ extension, c ≠ CR := by
  have hall : ∀ c ∈ digits ++ blanks ++ extension, c ≠ LF ∧ c ≠ CR := by
    intro c hc
    rw [mem_append, mem_append] at hc
    rcases hc with (hc | hc) | hc
    · have hhex := h.digits_hex c hc
      constructor <;> rintro rfl <;> revert hhex <;> decide
    · have hblank := h.blanks_blank c hc
      constructor <;> rintro rfl <;> revert hblank <;> decide
    · exact ⟨(h.extension_clean c hc).2.1, (h.extension_clean c hc).1⟩
  exact ⟨fun hmem => (hall LF hmem).1 rfl, fun c hc => (hall c hc).2⟩

theorem SizeLine.text_no_lf (l : SizeLine size) : LF ∉ l.text ∧ ∀ c ∈ l.text, c ≠ CR :=
  l.spelling.clean

theorem run_chunkLine (r : Response) (bytes : Bytes) (hp : r.phase = .chunkSize)
    (hb : LF ∉ bytes) (hl : r.chunkLine.length + bytes.length < chunkLineMax) :
    byteMachine.run r bytes = ⟨{ r with chunkLine := r.chunkLine ++ bytes }, [], bytes.length⟩ := by
  induction bytes generalizing r with
  | nil => simp [Outcome.stay]
  | cons c _ ih =>
    have hc : c ≠ LF := fun h => hb (by simp [h])
    rw [length_cons] at hl
    have hs : byteStep r c = ({ r with chunkLine := r.chunkLine ++ [c] }, []) := by
      have hg : ¬ r.chunkLine.length + 1 ≥ chunkLineMax := by omega
      simp [byteStep, hp, chunkSizeByte, hc, hg]
    have hr := ih { r with chunkLine := r.chunkLine ++ [c] } hp (fun h => hb (by simp [h]))
      (by simp only [length_append, length_singleton]; omega)
    rw [run_byte_cons (over_of_phase (by simp [hp])) hs, Outcome.andThen]
    simp only [hr]
    simp [add_comm]

theorem stripCr_clean (text : Bytes) (h : ∀ c ∈ text, c ≠ CR) : stripCr text = text := by
  have hl : text.getLast? ≠ some CR := fun hc => h CR (mem_of_getLast? hc) rfl
  simp [stripCr, hl]

theorem stripCr_cr (text : Bytes) : stripCr (text ++ [CR]) = text := by simp [stripCr]

def afterSizeLine (r : Response) : Nat → Response
  | 0 => { r with chunkLine := [], phase := .trailer, lineLen := 0, trailerLen := 0 }
  | size + 1 => { r with chunkLine := [], phase := .chunkData, remaining := size + 1 }

theorem SizeLine.run_bytes (l : SizeLine size) (hs : size ≤ uint64Max) (r : Response)
    (hp : r.phase = .chunkSize) (hc : r.chunkLine = []) :
    byteMachine.run r l.bytes = ⟨afterSizeLine r size, [], l.bytes.length⟩ := by
  obtain ⟨hlf, hcr⟩ := l.text_no_lf
  have hshort := l.short
  obtain ⟨front, hfront, hnolf, hstrip, hlen⟩ : ∃ front, l.bytes = front ++ [LF] ∧ LF ∉ front ∧
      stripCr front = l.text ∧ front.length < chunkLineMax := by
    cases hcrlf : l.crlf with
    | true =>
      refine ⟨l.text ++ [CR], by simp [bytes, lineEnd, hcrlf], ?_, stripCr_cr _, ?_⟩
      · simp only [mem_append, mem_singleton, not_or]
        exact ⟨hlf, by decide⟩
      · simp [lineEnd, hcrlf] at hshort
        simp [text, chunkLineMax]
        omega
    | false =>
      refine ⟨l.text, by simp [bytes, lineEnd, hcrlf], hlf, stripCr_clean _ hcr, ?_⟩
      simp [lineEnd, hcrlf] at hshort
      simp [text, chunkLineMax]
      omega
  have hline := run_chunkLine r front hp hnolf (by simpa [hc] using hlen)
  rw [hc, nil_append] at hline
  have hlast : byteStep { r with chunkLine := front } LF = (afterSizeLine r size, []) := by
    cases size with
    | zero | succ =>
      simp [byteStep, hp, chunkSizeByte, hstrip, l.chunkSizeLine_text hs, afterSizeLine]
  rw [hfront, Machine.run_append, hline, Outcome.andThen]
  rw [run_byte (over_of_phase (by simp [hp])) hlast]
  simp

theorem run_lineEnd (hp : r.phase = .chunkEnd) : byteMachine.run r (lineEnd crlf) =
      ⟨{ r with phase := .chunkSize }, [], (lineEnd crlf).length⟩ := by
  have hh : byteMachine.halted r = false := over_of_phase (by simp [hp])
  cases crlf with
  | false =>
    refine run_byte hh ?_
    simp [byteStep, hp, chunkEndByte, CR, LF]
  | true =>
    have h₁ : byteStep r CR = ({ r with phase := .chunkEndLf }, []) := by
      simp [byteStep, hp, chunkEndByte]
    have h₂ :
        byteStep { r with phase := .chunkEndLf } LF = ({ r with phase := .chunkSize }, []) := by
      simp [byteStep, chunkEndLfByte]
    rw [lineEnd, if_pos rfl, run_byte_cons hh h₁, Outcome.andThen]
    rw [run_byte (over_of_phase (by simp)) h₂]
    simp

theorem Chunk.run_bytes (c : Chunk) (r : Response) (hp : r.phase = .chunkSize)
    (hc : r.chunkLine = []) :
    ∃ r', r'.phase = .chunkSize ∧ r'.chunkLine = [] ∧
      byteMachine.run r c.bytes = ⟨r', c.data, c.bytes.length⟩ := by
  obtain ⟨n, hn⟩ : ∃ n, c.data.length = n + 1 :=
    ⟨c.data.length - 1, by have := length_pos_iff.mpr c.data_ne; omega⟩
  have hline := c.line.run_bytes c.data_fits r hp hc
  have hafter : (afterSizeLine r c.data.length).phase = .chunkData ∧
      (afterSizeLine r c.data.length).remaining = c.data.length := by
    simp [hn, afterSizeLine]
  have hdata := run_counted _ (.inr hafter.1) c.data_ne (le_of_eq hafter.2.symm)
  have hend : (takeBody (afterSizeLine r c.data.length) c.data.length).response.phase =
      .chunkEnd := by
    simp [takeBody, hafter.1, hafter.2]
  refine ⟨{ (takeBody (afterSizeLine r c.data.length) c.data.length).response with
    phase := .chunkSize }, rfl, ?_, ?_⟩
  · simp only [takeBody, hn, afterSizeLine]
    split <;> rfl
  · rw [bytes, Machine.run_append, Machine.run_append, hline, Outcome.andThen_assoc]
    simp only [Outcome.andThen]
    rw [hdata]
    rw [run_lineEnd hend]
    simp only [nil_append, append_nil, length_append]
    congr 1
    omega

theorem run_chunks (chunks : List Chunk) (r : Response) (hp : r.phase = .chunkSize)
    (hc : r.chunkLine = []) :
    ∃ r', r'.phase = .chunkSize ∧ r'.chunkLine = [] ∧
      byteMachine.run r (chunks.map Chunk.bytes).flatten =
        ⟨r', (chunks.map Chunk.data).flatten, (chunks.map Chunk.bytes).flatten.length⟩ := by
  induction chunks generalizing r with
  | nil => exact ⟨r, hp, hc, rfl⟩
  | cons c _ ih =>
    obtain ⟨r₁, hp₁, hc₁, h₁⟩ := c.run_bytes r hp hc
    obtain ⟨r₂, hp₂, hc₂, h₂⟩ := ih r₁ hp₁ hc₁
    refine ⟨r₂, hp₂, hc₂, ?_⟩
    rw [map_cons, flatten_cons, Machine.run_append, h₁, Outcome.andThen]
    simp only [h₂]
    simp

theorem run_trailerText (r : Response) (bytes : Bytes) (hp : r.phase = .trailer)
    (hb : LF ∉ bytes) (hl : r.trailerLen + bytes.length < headMax) :
    byteMachine.run r bytes =
      ⟨{ r with
          trailerLen := r.trailerLen + bytes.length
          lineLen := r.lineLen + bytes.length
          lineCr := if bytes = [] then r.lineCr else bytes.getLast? == some CR }, [],
        bytes.length⟩ := by
  induction bytes generalizing r with
  | nil => simp [Outcome.stay]
  | cons c bytes ih =>
    have hc : c ≠ LF := fun h => hb (by simp [h])
    rw [length_cons] at hl
    have hs : byteStep r c = ({ r with
        trailerLen := r.trailerLen + 1, lineLen := r.lineLen + 1, lineCr := c == CR }, []) := by
      have hg : ¬ r.trailerLen + 1 ≥ headMax := by omega
      simp [byteStep, hp, trailerByte, hc, hg]
    have hr := ih { r with
        trailerLen := r.trailerLen + 1, lineLen := r.lineLen + 1, lineCr := c == CR } hp
      (fun h => hb (by simp [h])) (by simp only; omega)
    rw [run_byte_cons (over_of_phase (by simp [hp])) hs, Outcome.andThen]
    simp only [hr]
    cases bytes with
    | nil => simp
    | cons => simp [add_comm, Nat.add_left_comm]

theorem run_trailerLine (r : Response) (line : Bytes) (hp : r.phase = .trailer)
    (hl : r.lineLen = 0) (hb : LF ∉ line) (hne : line ≠ [] ∧ line ≠ [CR])
    (ht : r.trailerLen + line.length + 1 < headMax) :
    ∃ r', r'.phase = .trailer ∧ r'.lineLen = 0 ∧ r'.trailerLen = r.trailerLen + line.length + 1 ∧
      byteMachine.run r (line ++ [LF]) = ⟨r', [], line.length + 1⟩ := by
  have htext := run_trailerText r line hp hb (by omega)
  have hempty : ¬ (r.lineLen + line.length = 0 ∨ r.lineLen + line.length = 1 ∧
      (line.getLast? == some CR)) := by
    obtain ⟨hnil, hcr⟩ := hne
    match line with
    | [] => exact absurd rfl hnil
    | [c] =>
      have hc : c ≠ CR := fun h => hcr (by rw [h])
      simp [hl, hc]
    | _ :: _ :: _ => simp [hl]
  have hg : ¬ r.trailerLen + line.length + 1 ≥ headMax := by omega
  have hs : byteStep { r with
      trailerLen := r.trailerLen + line.length, lineLen := r.lineLen + line.length
      lineCr := line.getLast? == some CR } LF = ({ r with
      trailerLen := r.trailerLen + line.length + 1, lineLen := 0
      lineCr := line.getLast? == some CR }, []) := by
    simp only [byteStep, hp, trailerByte, hg, hempty, if_false, ne_eq, not_true_eq_false]
  refine ⟨{ r with
    trailerLen := r.trailerLen + line.length + 1, lineLen := 0
    lineCr := line.getLast? == some CR }, hp, rfl, rfl, ?_⟩
  rw [Machine.run_append, htext, Outcome.andThen]
  simp only [hne.1, if_false]
  rw [run_byte (over_of_phase (by simp [hp])) hs]
  simp

theorem run_trailerLines (lines : List Bytes) (r : Response) (hp : r.phase = .trailer)
    (hl : r.lineLen = 0) (hb : ∀ l ∈ lines, LF ∉ l) (hne : ∀ l ∈ lines, l ≠ [] ∧ l ≠ [CR])
    (ht : r.trailerLen + (lines.map (· ++ [LF])).flatten.length < headMax) :
    ∃ r', r'.phase = .trailer ∧ r'.lineLen = 0 ∧
      r'.trailerLen = r.trailerLen + (lines.map (· ++ [LF])).flatten.length ∧
      byteMachine.run r (lines.map (· ++ [LF])).flatten =
        ⟨r', [], (lines.map (· ++ [LF])).flatten.length⟩ := by
  induction lines generalizing r with
  | nil => exact ⟨r, hp, hl, rfl, rfl⟩
  | cons line _ ih =>
    simp only [map_cons, flatten_cons, length_append, length_singleton] at ht
    obtain ⟨r₁, hp₁, hl₁, _, h₁⟩ := run_trailerLine r line hp hl
      (hb line mem_cons_self) (hne line mem_cons_self) (by omega)
    obtain ⟨r₂, hp₂, hl₂, _, h₂⟩ := ih r₁ hp₁ hl₁ (fun l h => hb l (mem_cons_of_mem _ h))
      (fun l h => hne l (mem_cons_of_mem _ h)) (by omega)
    refine ⟨r₂, hp₂, hl₂, ?_, ?_⟩
    · simp only [map_cons, flatten_cons, length_append, length_singleton]
      omega
    · rw [map_cons, flatten_cons, Machine.run_append, h₁, Outcome.andThen]
      simp only [h₂]
      simp
      omega

theorem run_blankLine (r : Response) (crlf : Bool) (hp : r.phase = .trailer) (hl : r.lineLen = 0)
    (ht : r.trailerLen + (lineEnd crlf).length < headMax) :
    ∃ r', r'.phase = .done ∧
      byteMachine.run r (lineEnd crlf) = ⟨r', [], (lineEnd crlf).length⟩ := by
  have hh : byteMachine.halted r = false := over_of_phase (by simp [hp])
  cases crlf with
  | false =>
    simp [lineEnd] at ht
    have hg : ¬ r.trailerLen + 1 ≥ headMax := by omega
    refine ⟨{ r with trailerLen := r.trailerLen + 1, lineLen := 0, phase := .done }, rfl, ?_⟩
    refine run_byte hh ?_
    simp [byteStep, hp, trailerByte, hg, hl]
  | true =>
    simp [lineEnd] at ht
    have hg : ¬ r.trailerLen + 1 ≥ headMax := by omega
    have hg' : ¬ r.trailerLen + 1 + 1 ≥ headMax := by omega
    have h₁ : byteStep r CR = ({ r with
        trailerLen := r.trailerLen + 1, lineLen := 1, lineCr := true }, []) := by
      simp [byteStep, hp, trailerByte, hg, hl, CR, LF]
    have h₂ : byteStep { r with
        trailerLen := r.trailerLen + 1, lineLen := 1, lineCr := true } LF = ({ r with
        trailerLen := r.trailerLen + 1 + 1, lineLen := 0, lineCr := true, phase :=
          .done }, []) := by
      simp [byteStep, hp, trailerByte, hg']
    rw [lineEnd, if_pos rfl, run_byte_cons hh h₁, Outcome.andThen]
    rw [run_byte (over_of_phase (by simp [hp])) h₂]
    simp

theorem Trailer.run_bytes (t : Trailer) (r : Response) (hp : r.phase = .chunkSize)
    (hc : r.chunkLine = []) :
    ∃ r', r'.phase = .done ∧ byteMachine.run r t.bytes = ⟨r', [], t.bytes.length⟩ := by
  have hshort := t.short
  have hline := t.line.run_bytes (Nat.zero_le _) r hp hc
  obtain ⟨r₁, hp₁, hl₁, ht₁, h₁⟩ := run_trailerLines t.lines (afterSizeLine r 0) rfl rfl
    t.lines_no_lf t.lines_ne (by simp only [afterSizeLine]; omega)
  simp only [afterSizeLine, Nat.zero_add] at ht₁
  obtain ⟨r₂, hp₂, h₂⟩ := run_blankLine r₁ t.crlf hp₁ hl₁ (by omega)
  refine ⟨r₂, hp₂, ?_⟩
  rw [bytes, text, Machine.run_append, hline, Outcome.andThen]
  simp only [Machine.run_append, Outcome.andThen, h₁, h₂]
  simp

theorem run_chunked (chunks : List Chunk) (trailer : Trailer) (r : Response)
    (hp : r.phase = .chunkSize) (hc : r.chunkLine = []) :
    ∃ r', r'.phase = .done ∧ byteMachine.run r (chunkedBytes chunks trailer) =
      ⟨r', (chunks.map Chunk.data).flatten, (chunkedBytes chunks trailer).length⟩ := by
  obtain ⟨r₁, hp₁, hc₁, h₁⟩ := run_chunks chunks r hp hc
  obtain ⟨r₂, hp₂, h₂⟩ := trailer.run_bytes r₁ hp₁ hc₁
  refine ⟨r₂, hp₂, ?_⟩
  rw [chunkedBytes, Machine.run_append, h₁, Outcome.andThen]
  simp only [h₂]
  simp

/-- Chunked decoding inverts every chunked encoding, however it is cut: the response is done after
the trailer's empty line, at no earlier byte, and nothing that follows is consumed. -/
theorem feedPieces_chunkedBytes (chunks : List Chunk) (trailer : Trailer) (after : Bytes)
    (r : Response) (hp : r.phase = .chunkSize) (hc : r.chunkLine = []) (pieces : List Bytes)
    (hpieces : pieces.flatten = chunkedBytes chunks trailer ++ after) :
    (feedPieces r pieces).output = (chunks.map Chunk.data).flatten ∧
      (feedPieces r pieces).state.phase = .done ∧
      (feedPieces r pieces).used = (chunkedBytes chunks trailer).length ∧
      ∀ n < (chunkedBytes chunks trailer).length,
        (feedPieces r [(chunkedBytes chunks trailer).take n]).state.phase ≠ .done := by
  have hcount : Counted r := counted_of_phase (by simp [hp])
  obtain ⟨r', hp', h'⟩ := run_chunked chunks trailer r hp hc
  have hhalt : byteMachine.halted r' := by simp [byteMachine, responseOver, responseDone, hp']
  have hall : feedPieces r pieces =
      ⟨r', (chunks.map Chunk.data).flatten, (chunkedBytes chunks trailer).length⟩ := by
    rw [feedPieces_eq_run hcount, hpieces, Machine.run_append, h', Outcome.andThen]
    rw [Machine.run_halted _ hhalt]
    simp [Outcome.stay]
  refine ⟨by rw [hall], by rw [hall]; exact hp', by rw [hall], ?_⟩
  intro n _ hdone
  rw [feedPieces_eq_run hcount, flatten_cons, flatten_nil, append_nil] at hdone
  -- done at a proper prefix would leave the rest of the encoding unread
  have hhalt' : byteMachine.halted
      (byteMachine.run r ((chunkedBytes chunks trailer).take n)).state := by
    simp [byteMachine, responseOver, responseDone] at hdone ⊢
    exact .inl hdone
  have hsplit := Machine.run_append byteMachine r ((chunkedBytes chunks trailer).take n)
    ((chunkedBytes chunks trailer).drop n)
  rw [take_append_drop, h', Outcome.andThen, Machine.run_halted _ hhalt'] at hsplit
  have hused := congrArg Outcome.used hsplit
  have hle := Machine.run_used_le byteMachine r ((chunkedBytes chunks trailer).take n)
  simp only [Outcome.stay, length_take] at hused hle
  omega

def sampleChunk : Chunk where
  data := ascii "ink"
  line := ⟨ascii "03", ascii " ", ascii ";x=1", true, by decide +kernel, by decide +kernel,
    by decide +kernel, by decide +kernel, by decide +kernel, by decide +kernel, by decide +kernel⟩
  crlf := false
  data_ne := by decide
  data_fits := by decide

def sampleTrailer : Trailer where
  line := ⟨ascii "0", [], [], true, by decide +kernel, by decide +kernel, by decide +kernel,
    by decide +kernel, by decide +kernel, by decide +kernel, by decide +kernel⟩
  lines := [ascii "X-Sum: 1"]
  crlf := true
  lines_no_lf := by decide
  lines_ne := by decide
  short := by decide

def chunkedHead : Bytes := ascii "HTTP/1.1 200 OK\r\nTransfer-Encoding: chunked\r\n\r\n"

theorem feedPieces_sampleChunk :
    (byteMachine.run (responseInit false) chunkedHead).state.phase = .chunkSize ∧
      (feedPieces (byteMachine.run (responseInit false) chunkedHead).state
        [chunkedBytes [sampleChunk, sampleChunk] sampleTrailer ++ ascii "next"]).output =
          ascii "inkink" :=
  ⟨by decide,
    (feedPieces_chunkedBytes [sampleChunk, sampleChunk] sampleTrailer (ascii "next") _
      (by decide) (by decide) _ (by decide)).1⟩

end Inkwell.Http
