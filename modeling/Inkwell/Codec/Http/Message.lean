import Inkwell.Codec.Http.Chunked

namespace Inkwell.Http
open Library
open List hiding head

def linesText (lines : List Bytes) : Bytes := (lines.map (· ++ [LF])).flatten

def Inner (line : Bytes) : Prop := LF ∉ line ∧ line ≠ [] ∧ line ≠ [CR]

def HeadText (head : Bytes) : Prop :=
  ∃ lines crlf, head = linesText lines ++ lineEnd crlf ∧ lines ≠ [] ∧ ∀ line ∈ lines, Inner line

structure Headed (head : Bytes) (status : Nat) (fields : Fields) : Prop where
  text : HeadText head
  lines : ∃ first lines, headLines head = first :: lines ∧ statusOf first = some status ∧
    fieldLines {} lines = .ok fields

/-- What may come before the head of a reply: empty lines, and the heads of interim answers. -/
inductive Preamble : Bytes → Prop
  | nil : Preamble []
  | blank (h : Preamble bytes) (crlf : Bool) : Preamble (bytes ++ lineEnd crlf)
  | interim (h : Preamble bytes) (hhead : Headed head status fields)
      (hstatus : 100 ≤ status ∧ status < 200) : Preamble (bytes ++ head)

inductive Framed (fields : Fields) : Framing → Bytes → Bytes → Prop
  | none : Framed fields .none [] []
  | length (h : fields.length = some body.length) : Framed fields .length body body
  | chunked (chunks : List Chunk) (trailer : Trailer) :
    Framed fields .chunked (chunkedBytes chunks trailer) (chunks.map Chunk.data).flatten
  | untilClose (body : Bytes) : Framed fields .untilClose body body

inductive Message (headRequest : Bool) : Bytes → Nat → Framing → Bytes → Prop
  | reply (hpre : Preamble pre) (hhead : Headed head status fields) (hstatus : 200 ≤ status)
      (hrest : Framed fields (framingOf headRequest status fields) rest body) :
    Message headRequest (pre ++ head ++ rest) status (framingOf headRequest status fields) body

theorem Message.final (h : Message headRequest bytes status framing body) : 200 ≤ status := by
  cases h with
  | reply _ _ hstatus => exact hstatus

structure Lines (text : Bytes) (lineLen : Nat) (lines : List Bytes)
    (line : Bytes) : Prop where
  eq : text = linesText lines ++ line
  inner : ∀ line ∈ lines, Inner line
  noLf : LF ∉ line
  len : line.length = lineLen

theorem Lines.byte (h : Lines text n lines line) (hc : c ≠ LF) :
    Lines (text ++ [c]) (n + 1) lines (line ++ [c]) where
  eq := by rw [h.eq, append_assoc]
  inner := h.inner
  noLf := by
    intro hmem
    rcases mem_append.mp hmem with hmem | hmem
    · exact h.noLf hmem
    · exact hc (mem_singleton.mp hmem).symm
  len := by rw [length_append, h.len, length_singleton]

theorem linesText_cons : linesText (line :: lines) = line ++ [LF] ++ linesText lines := by rfl

theorem linesText_concat : linesText (lines ++ [line]) = linesText lines ++ line ++ [LF] := by
  unfold linesText
  simp

theorem Lines.newline (h : Lines text n lines line) (hne : line ≠ []) (hcr : line ≠ [CR]) :
    Lines (text ++ [LF]) 0 (lines ++ [line]) [] where
  eq := by rw [h.eq, linesText_concat, append_nil]
  inner := by
    intro l hl
    rcases mem_append.mp hl with hl | hl
    · exact h.inner l hl
    · rw [mem_singleton.mp hl]
      exact ⟨h.noLf, hne, hcr⟩
  noLf := not_mem_nil
  len := rfl

theorem Lines.blank (h : Lines text n lines line) (he : line = [] ∨ line = [CR]) :
    ∃ crlf, text ++ [LF] = linesText lines ++ lineEnd crlf := by
  rcases he with he | he
  · refine ⟨false, ?_⟩
    rw [h.eq, he, append_nil]
    rfl
  · refine ⟨true, ?_⟩
    rw [h.eq, he, append_assoc]
    rfl

theorem Lines.blank_iff (h : Lines text n lines line) :
    n = 0 ∨ n = 1 ∧ text.getLast? = some CR ↔ line = [] ∨ line = [CR] := by
  have hlen := h.len
  have heq := h.eq
  constructor
  · intro he
    rcases he with hn | ⟨hn, hcr⟩
    · exact .inl (eq_nil_of_length_eq_zero (hlen.trans hn))
    · obtain ⟨_, hline⟩ := length_eq_one_iff.mp (hlen.trans hn)
      rw [heq, hline, getLast?_concat] at hcr
      exact .inr (by rw [hline, Option.some.inj hcr])
  · intro he
    rcases he with hline | hline
    · rw [hline] at hlen
      exact .inl hlen.symm
    · rw [hline] at hlen heq
      exact .inr ⟨hlen.symm, by rw [heq, getLast?_concat]⟩

theorem chunkSizeDigits_spells (h : chunkSizeDigits size at_ line = some (value, n))
    (hsize : size ≤ uint64Max) :
    ∃ digits rest, line = digits ++ rest ∧ (∀ c ∈ digits, (hex c).isSome) ∧
      hexValueFrom size digits = value ∧ n = at_ + digits.length ∧ value ≤ uint64Max := by
  induction line generalizing size at_ with
  | nil =>
    cases h
    exact ⟨[], [], rfl, forall_mem_nil _, rfl, rfl, hsize⟩
  | cons c cs ih =>
    unfold chunkSizeDigits at h
    cases hc : hex c with
    | none =>
      simp only [hc] at h
      cases h
      exact ⟨[], c :: cs, rfl, forall_mem_nil _, rfl, rfl, hsize⟩
    | some v =>
      simp only [hc] at h
      split at h
      · cases h
      rename_i hfits
      have hv := hex_lt hc
      have hnext : size * 16 + v ≤ uint64Max := by
        unfold uint64Max at hfits ⊢
        omega
      obtain ⟨digits, rest, hline, hhex, hvalue, hn, hle⟩ := ih h hnext
      refine ⟨c :: digits, rest, by rw [hline, cons_append], ?_, ?_, ?_, hle⟩
      · exact forall_mem_cons.mpr ⟨by rw [hc]; rfl, hhex⟩
      · rw [← hvalue]
        unfold hexValueFrom
        rw [foldl_cons, hc]
        rfl
      · rw [hn, length_cons]
        omega

theorem chunkSizeLine_spells (h : chunkSizeLine text = some size) (hlf : LF ∉ text) (crlf : Bool)
    (hlen : text.length + (lineEnd crlf).length ≤ 128) :
    size ≤ uint64Max ∧ ∃ line : SizeLine size, line.bytes = text ++ lineEnd crlf := by
  unfold chunkSizeLine at h
  split at h
  · cases h
  rename_i hdigits
  obtain ⟨digits, rest, htext, hhex, hvalue, hn, hle⟩ :=
    chunkSizeDigits_spells hdigits (Nat.zero_le _)
  rw [Nat.zero_add] at hn
  split at h
  · cases h
  rename_i hne
  rw [htext, hn, drop_left] at h
  simp only at h
  split at h
  · cases h
  rename_i hstart
  split at h
  · cases h
  rename_i hclean
  cases h
  have hsplit : rest = rest.takeWhile blank ++ rest.dropWhile blank :=
    takeWhile_append_dropWhile.symm
  generalize rest.dropWhile blank = extension at *
  have hblanks : ∀ c ∈ rest.takeWhile blank, blank c = true := fun c => mem_takeWhile_imp
  generalize rest.takeWhile blank = blanks at *
  subst hsplit
  refine ⟨hle, ⟨digits, blanks, extension, crlf, ?_, hhex, hvalue, hblanks, ?_, ?_, ?_⟩, ?_⟩
  · intro hnil
    rw [hnil] at hn
    exact hne hn
  · intro c hc
    rw [Option.mem_def] at hc
    simpa [hc] using hstart
  · intro c hc
    have hany : (c == CR || c == 0) = false := by
      have hall := any_eq_false.mp (Bool.eq_false_iff.mpr hclean) c hc
      exact Bool.eq_false_iff.mpr hall
    rw [Bool.or_eq_false_iff, beq_eq_false_iff_ne, beq_eq_false_iff_ne] at hany
    refine ⟨hany.1, ?_, hany.2⟩
    intro hlfc
    rw [hlfc] at hc
    rw [htext] at hlf
    exact hlf (mem_append_right _ (mem_append_right _ hc))
  · rw [htext, length_append, length_append] at hlen
    omega
  · show digits ++ blanks ++ extension ++ lineEnd crlf = text ++ lineEnd crlf
    rw [htext, append_assoc digits]

theorem stripCr_cases (line : Bytes) : line = stripCr line ∨ line = stripCr line ++ [CR] := by
  unfold stripCr
  split
  · rename_i hcr
    exact .inr (dropLast_append_getLast? _ hcr).symm
  · exact .inl rfl

theorem sizeLine_spells (h : chunkSizeLine (stripCr line) = some size) (hlf : LF ∉ line)
    (hlen : line.length < chunkLineMax) :
    size ≤ uint64Max ∧ ∃ l : SizeLine size, l.bytes = line ++ [LF] := by
  unfold chunkLineMax at hlen
  rcases stripCr_cases line with heq | heq
  · rw [← heq] at h
    refine chunkSizeLine_spells h hlf false ?_
    show line.length + 1 ≤ 128
    omega
  · generalize stripCr line = text at *
    subst heq
    rw [length_append, length_singleton] at hlen
    have hspells := chunkSizeLine_spells h (fun hmem => hlf (mem_append_left _ hmem)) true (by
      show text.length + 2 ≤ 128
      omega)
    rw [append_assoc]
    exact hspells

def chunksText (chunks : List Chunk) : Bytes := (chunks.map Chunk.bytes).flatten

def chunksData (chunks : List Chunk) : Bytes := (chunks.map Chunk.data).flatten

/-- How far the body has come behind a head: what has been read of it, and the bytes it gave. -/
inductive Progress (r : Response) (fields : Fields) : Bytes → Bytes → Prop
  | length (hp : r.phase = .length) (hf : r.framing = .length)
      (hl : fields.length = some (out.length + r.remaining)) (hpos : 0 < r.remaining) :
    Progress r fields out out
  | untilClose (hp : r.phase = .untilClose) (hf : r.framing = .untilClose) (out : Bytes) :
    Progress r fields out out
  | chunkSize (hp : r.phase = .chunkSize) (hf : r.framing = .chunked) (chunks : List Chunk)
      (hlf : LF ∉ r.chunkLine) (hlen : r.chunkLine.length < chunkLineMax) :
    Progress r fields (chunksText chunks ++ r.chunkLine) (chunksData chunks)
  | chunkData (hp : r.phase = .chunkData) (hf : r.framing = .chunked) (hl : r.chunkLine = [])
      (chunks : List Chunk) (line : SizeLine size) (hs : size ≤ uint64Max)
      (hn : data.length + r.remaining = size) (hpos : 0 < r.remaining) :
    Progress r fields (chunksText chunks ++ line.bytes ++ data) (chunksData chunks ++ data)
  | chunkEnd (hp : r.phase = .chunkEnd) (hf : r.framing = .chunked) (hl : r.chunkLine = [])
      (chunks : List Chunk) (line : SizeLine data.length) (hs : data.length ≤ uint64Max)
      (hne : data ≠ []) :
    Progress r fields (chunksText chunks ++ line.bytes ++ data) (chunksData chunks ++ data)
  | chunkEndLf (hp : r.phase = .chunkEndLf) (hf : r.framing = .chunked) (hl : r.chunkLine = [])
      (chunks : List Chunk) (line : SizeLine data.length) (hs : data.length ≤ uint64Max)
      (hne : data ≠ []) :
    Progress r fields (chunksText chunks ++ line.bytes ++ data ++ [CR]) (chunksData chunks ++ data)
  | trailer (hp : r.phase = .trailer) (hf : r.framing = .chunked) (chunks : List Chunk)
      (line : SizeLine 0) (htext : ∃ lines cur, Lines text r.lineLen lines cur)
      (hlen : text.length = r.trailerLen)
      (hcr : 0 < r.lineLen → (r.lineCr ↔ text.getLast? = some CR)) :
    Progress r fields (chunksText chunks ++ line.bytes ++ text) (chunksData chunks)
  | done (hp : r.phase = .done) (hf : r.framing ≠ .untilClose)
      (h : Framed fields r.framing rest out) : Progress r fields rest out

theorem chunksText_concat (chunks : List Chunk) (chunk : Chunk) :
    chunksText (chunks ++ [chunk]) = chunksText chunks ++ chunk.bytes := by
  unfold chunksText
  simp

theorem chunksData_concat (chunks : List Chunk) (chunk : Chunk) :
    chunksData (chunks ++ [chunk]) = chunksData chunks ++ chunk.data := by
  unfold chunksData
  simp

theorem Progress.nextChunk (hp : r.phase = .chunkSize) (hf : r.framing = .chunked)
    (hl : r.chunkLine = []) (chunks : List Chunk) (chunk : Chunk) :
    Progress r fields (chunksText chunks ++ chunk.bytes) (chunksData chunks ++ chunk.data) := by
  have hnext : Progress r fields (chunksText (chunks ++ [chunk]) ++ r.chunkLine)
      (chunksData (chunks ++ [chunk])) :=
    .chunkSize hp hf _ (by rw [hl]; exact not_mem_nil) (by rw [hl]; decide)
  rw [hl, append_nil, chunksText_concat, chunksData_concat] at hnext
  exact hnext

def Advances (fields : Fields) (rest out : Bytes) (c : UInt8)
    (next : Response × Bytes) : Prop :=
  next.1.phase = .failed ∨ Progress next.1 fields (rest ++ [c]) (out ++ next.2)

theorem advances_length (hp : r.phase = .length) (hf : r.framing = .length)
    (hl : fields.length = some (out.length + r.remaining)) (hpos : 0 < r.remaining) :
    Advances fields out out c ((takeBody r 1).response, [c]) := by
  refine .inr ?_
  rw [takeBody_one hpos]
  split
  · rename_i hone
    refine .done ?_ ?_ ?_
    · rfl
    · rw [hf]
      decide
    · have hwhole : fields.length = some (out ++ [c]).length := by
        rw [hl, hone, length_append, length_singleton]
      rw [hf]
      exact .length hwhole
  · refine .length ?_ ?_ ?_ ?_
    · exact hp
    · exact hf
    · rw [hl, length_append, length_singleton]
      simp only [Option.some.injEq]
      omega
    · simp only
      omega

theorem advances_chunkData (hp : r.phase = .chunkData) (hf : r.framing = .chunked)
    (hl : r.chunkLine = []) (chunks : List Chunk) (line : SizeLine size) (hs : size ≤ uint64Max)
    (hn : data.length + r.remaining = size) (hpos : 0 < r.remaining) (c : UInt8) :
    Advances fields (chunksText chunks ++ line.bytes ++ data) (chunksData chunks ++ data) c
      ((takeBody r 1).response, [c]) := by
  refine .inr ?_
  rw [takeBody_one hpos, append_assoc _ data, append_assoc _ data]
  split
  · rename_i hone
    have hsize : size = (data ++ [c]).length := by rw [← hn, hone, length_append, length_singleton]
    subst hsize
    have hend : (if r.phase = .length then Phase.done else .chunkEnd) = .chunkEnd :=
      if_neg (by rw [hp]; decide)
    refine .chunkEnd ?_ ?_ ?_ chunks line hs (by simp)
    · exact hend
    · exact hf
    · exact hl
  · refine .chunkData ?_ ?_ ?_ chunks line hs ?_ ?_
    · exact hp
    · exact hf
    · exact hl
    · rw [length_append, length_singleton]
      simp only
      omega
    · simp only
      omega

theorem advances_chunkSize (hp : r.phase = .chunkSize) (hf : r.framing = .chunked)
    (hlf : LF ∉ r.chunkLine) (hlen : r.chunkLine.length < chunkLineMax) :
    Advances fields (chunksText chunks ++ r.chunkLine) (chunksData chunks) c
      ((chunkSizeByte r c).1, []) := by
  unfold chunkSizeByte
  split
  · rename_i hc
    split
    · exact .inl rfl
    refine .inr ?_
    rw [append_assoc, append_nil]
    refine .chunkSize ?_ ?_ chunks ?_ ?_
    · exact hp
    · exact hf
    · intro hmem
      rcases mem_append.mp hmem with hmem | hmem
      · exact hlf hmem
      · exact hc (mem_singleton.mp hmem).symm
    · rw [length_append, length_singleton]
      omega
  · rename_i hc
    have hc : c = LF := not_not.mp hc
    subst hc
    simp only
    split
    · exact .inl rfl
    · rename_i hsize
      obtain ⟨_, line, hline⟩ := sizeLine_spells hsize hlf hlen
      refine .inr ?_
      rw [append_assoc, ← hline, append_nil, ← append_nil (_ ++ line.bytes)]
      refine .trailer ?_ ?_ chunks line ?_ ?_ ?_
      · rfl
      · exact hf
      · exact ⟨[], [], rfl, forall_mem_nil _, not_mem_nil, rfl⟩
      · rfl
      · exact fun h => absurd h (lt_irrefl 0)
    · rename_i size hne hsize
      obtain ⟨hs, line, hline⟩ := sizeLine_spells hsize hlf hlen
      refine .inr ?_
      rw [append_assoc, ← hline, ← append_nil (_ ++ line.bytes)]
      refine .chunkData ?_ ?_ ?_ chunks line hs ?_ ?_
      · rfl
      · exact hf
      · rfl
      · exact zero_add size
      · exact Nat.pos_of_ne_zero hne

theorem advances_chunkEnd (hf : r.framing = .chunked) (hl : r.chunkLine = []) (chunks : List Chunk)
    (line : SizeLine data.length) (hs : data.length ≤ uint64Max) (hne : data ≠ []) (c : UInt8) :
    Advances fields (chunksText chunks ++ line.bytes ++ data) (chunksData chunks ++ data) c
      ((chunkEndByte r c).1, []) := by
  unfold chunkEndByte
  split
  · rename_i hc
    subst hc
    refine .inr ?_
    rw [append_nil]
    refine .chunkEndLf ?_ ?_ ?_ chunks line hs hne
    · rfl
    · exact hf
    · exact hl
  split
  · rename_i hc
    subst hc
    refine .inr ?_
    rw [append_nil, append_assoc _ data, append_assoc _ line.bytes, ← append_assoc line.bytes]
    refine Progress.nextChunk ?_ ?_ ?_ chunks ⟨data, line, false, hne, hs⟩
    · rfl
    · exact hf
    · exact hl
  · exact .inl rfl

theorem advances_chunkEndLf (hf : r.framing = .chunked) (hl : r.chunkLine = [])
    (chunks : List Chunk) (line : SizeLine data.length) (hs : data.length ≤ uint64Max)
    (hne : data ≠ []) (c : UInt8) :
    Advances fields (chunksText chunks ++ line.bytes ++ data ++ [CR]) (chunksData chunks ++ data) c
      ((chunkEndLfByte r c).1, []) := by
  unfold chunkEndLfByte
  split
  · exact .inl rfl
  · rename_i hc
    have hc : c = LF := not_not.mp hc
    subst hc
    refine .inr ?_
    rw [append_nil, append_assoc _ [CR], append_assoc _ data,
      append_assoc _ line.bytes, ← append_assoc line.bytes]
    refine Progress.nextChunk ?_ ?_ ?_ chunks ⟨data, line, true, hne, hs⟩
    · rfl
    · exact hf
    · exact hl

theorem advances_trailer (hp : r.phase = .trailer) (hf : r.framing = .chunked) (chunks : List Chunk)
    (line : SizeLine 0) (htext : Lines text r.lineLen lines cur) (hlen : text.length = r.trailerLen)
    (hcr : 0 < r.lineLen → (r.lineCr ↔ text.getLast? = some CR)) (c : UInt8) :
    Advances fields (chunksText chunks ++ line.bytes ++ text) (chunksData chunks) c
      ((trailerByte r c).1, []) := by
  have hlen' : (text ++ [c]).length = r.trailerLen + 1 := by
    rw [length_append, hlen, length_singleton]
  unfold trailerByte
  simp only
  split
  · exact .inl rfl
  rename_i hroom
  split
  · rename_i hc
    refine .inr ?_
    rw [append_nil, append_assoc]
    refine .trailer ?_ ?_ chunks line ?_ ?_ ?_
    · exact hp
    · exact hf
    · exact ⟨lines, cur ++ [c], htext.byte hc⟩
    · exact hlen'
    · simp
  · rename_i hc
    have hc : c = LF := not_not.mp hc
    subst hc
    have hempty : r.lineLen = 0 ∨ r.lineLen = 1 ∧ r.lineCr ↔ cur = [] ∨ cur = [CR] := by
      rw [← htext.blank_iff]
      refine or_congr_right (and_congr_right ?_)
      intro _
      exact hcr (by omega)
    split
    · rename_i he
      obtain ⟨crlf, htrailer⟩ := htext.blank (hempty.mp he)
      refine .inr (.done ?_ ?_ ?_)
      · rfl
      · rw [hf]
        decide
      have hshort : (linesText lines).length + (lineEnd crlf).length < headMax := by
        rw [← length_append, ← htrailer, hlen']
        exact lt_of_not_ge hroom
      have hwhole : Framed fields .chunked (chunkedBytes chunks ⟨line, lines, crlf,
          fun l hl => (htext.inner l hl).1, fun l hl => (htext.inner l hl).2, hshort⟩)
          (chunksData chunks) := .chunked chunks _
      rw [append_nil, append_assoc, htrailer, append_assoc]
      rw [hf]
      exact hwhole
    · rename_i he
      have hline := not_or.mp (mt hempty.mpr he)
      refine .inr ?_
      rw [append_nil, append_assoc]
      refine .trailer ?_ ?_ chunks line ?_ ?_ ?_
      · exact hp
      · exact hf
      · exact ⟨lines ++ [cur], [], htext.newline hline.1 hline.2⟩
      · exact hlen'
      · exact fun h => absurd h (lt_irrefl 0)

theorem Progress.byte (h : Progress r fields rest out) (hover : responseOver r = false)
    (c : UInt8) : Advances fields rest out c (byteStep r c) := by
  unfold byteStep
  cases h with
  | length hp hf hl hpos =>
    simp only [hp]
    exact advances_length hp hf hl hpos
  | untilClose hp hf =>
    simp only [hp]
    refine .inr (.untilClose ?_ ?_ _)
    · rfl
    · exact hf
  | chunkSize hp hf _ hlf hlen =>
    simp only [hp]
    exact advances_chunkSize hp hf hlf hlen
  | chunkData hp hf hl chunks line hs hn hpos =>
    simp only [hp]
    exact advances_chunkData hp hf hl chunks line hs hn hpos c
  | chunkEnd hp hf hl chunks line hs hne =>
    simp only [hp]
    exact advances_chunkEnd hf hl chunks line hs hne c
  | chunkEndLf hp hf hl chunks line hs hne =>
    simp only [hp]
    exact advances_chunkEndLf hf hl chunks line hs hne c
  | trailer hp hf chunks line htext hlen hcr =>
    obtain ⟨_, _, htext⟩ := htext
    simp only [hp]
    exact advances_trailer hp hf chunks line htext hlen hcr c
  | done hp =>
    rw [responseOver, responseDone, hp] at hover
    cases hover

theorem Progress.phase_ne (h : Progress r fields rest out) : r.phase ≠ .head := by
  cases h with
  | length hp | untilClose hp | chunkSize hp | chunkData hp | chunkEnd hp | chunkEndLf hp
      | trailer hp
  | done hp =>
    rw [hp]
    nofun

theorem Progress.counted (h : Progress r fields rest out) : Counted r := by
  cases h with
  | length _ _ _ hpos
  | chunkData _ _ _ _ _ _ _ hpos => exact fun _ => hpos
  | untilClose hp | chunkSize hp | chunkEnd hp | chunkEndLf hp | trailer hp | done hp =>
    exact counted_of_phase (by simp [hp])

structure Settled (headRequest : Bool) (r : Response) (pre : Bytes) (fields : Fields) : Prop where
  preamble : Preamble pre
  head : Headed r.head r.status fields
  final : 200 ≤ r.status
  framing : r.framing = framingOf headRequest r.status fields
  contentLength : r.contentLength = if r.framing = .length then fields.length.getD 0 else 0

theorem Settled.behind (h : Settled headRequest r pre fields) (hr : Behind r r') :
    Settled headRequest r' pre fields := by
  obtain ⟨hpre, hhead, hfinal, hframing, hlength⟩ := h
  rw [← hr.head, ← hr.status] at hhead
  rw [← hr.status] at hfinal hframing
  rw [← hr.framing] at hframing hlength
  rw [← hr.contentLength] at hlength
  exact ⟨hpre, hhead, hfinal, hframing, hlength⟩

/-- A response that has read these bytes, and given this of its body. -/
inductive Reading (headRequest : Bool) (r : Response) : Bytes → Bytes → Prop
  | head (hp : r.phase = .head) (hrequest : r.headRequest = headRequest) (hstatus : r.status = 0)
      (hlength : r.contentLength = 0) (hpre : Preamble pre)
      (htext : ∃ lines cur, Lines r.head r.lineLen lines cur) :
    Reading headRequest r (pre ++ r.head) []
  | body (hs : Settled headRequest r pre fields)
      (hb : r.phase = .failed ∨ Progress r fields rest out) :
    Reading headRequest r (pre ++ r.head ++ rest) out
  | refused (hp : r.phase = .failed) (hstatus : r.status = 0) (bytes out : Bytes) :
    Reading headRequest r bytes out

theorem Reading.init (headRequest : Bool) :
    Reading headRequest (responseInit headRequest) [] [] := by
  have hnone : Reading headRequest (responseInit headRequest) ([] ++ []) [] :=
    .head rfl rfl rfl rfl .nil ⟨[], [], rfl, forall_mem_nil _, not_mem_nil, rfl⟩
  exact hnone

theorem framingOf_length (h : framingOf headRequest status fields = .length) :
    ∃ length, fields.length = some length := by
  unfold framingOf at h
  cases hl : fields.length with
  | some length => exact ⟨length, rfl⟩
  | none =>
    rw [hl] at h
    repeat' split at h
    all_goals contradiction

theorem framed_progress (r : Response) (status : Nat) (fields : Fields) :
    Progress (framed r status (fields.length.getD 0) (framingOf r.headRequest status fields)) fields
      [] [] := by
  cases hf : framingOf r.headRequest status fields with
  | none => exact .done rfl nofun .none
  | untilClose => exact .untilClose rfl rfl []
  | chunked => exact .chunkSize rfl rfl [] not_mem_nil (show 0 < chunkLineMax by decide)
  | length =>
    obtain ⟨length, hl⟩ := framingOf_length hf
    rw [hl]
    by_cases hzero : length = 0
    · exact .done (if_pos hzero) nofun (.length (by rw [hl, hzero]; rfl))
    · refine .length (if_neg hzero) rfl ?_ (Nat.pos_of_ne_zero hzero)
      rw [hl, length_nil, zero_add]
      rfl

theorem setFraming_reading (hlength : r.contentLength = 0) (hpre : Preamble pre)
    (hhead : Headed r.head status fields) (hstatus : 200 ≤ status) :
    Reading r.headRequest (setFraming r status fields) (pre ++ r.head) [] := by
  have hprogress := framed_progress r status fields
  have hsettled : ∀ framing, framing = framingOf r.headRequest status fields →
      let r' := framed r status (fields.length.getD 0) framing
      Settled r.headRequest r' pre fields ∧ r'.head = r.head := by
    intro framing hframing
    cases framing with
    | length => exact ⟨⟨hpre, hhead, hstatus, hframing, rfl⟩, rfl⟩
    | none | chunked | untilClose => exact ⟨⟨hpre, hhead, hstatus, hframing, hlength⟩, rfl⟩
  rw [setFraming_eq]
  obtain ⟨hs, hsame⟩ := hsettled _ rfl
  have hreading := Reading.body hs (.inr hprogress)
  rw [append_nil, hsame] at hreading
  exact hreading

theorem parseHead_reading (hp : r.phase = .head) (hstatus : r.status = 0)
    (hlength : r.contentLength = 0) (hpre : Preamble pre) (htext : HeadText r.head)
    (hlen : r.lineLen = 0) : Reading r.headRequest (parseHead r).1 (pre ++ r.head) [] := by
  have hrefused (e : HttpError) : Reading r.headRequest (r.fail e) (pre ++ r.head) [] :=
    .refused (r := r.fail e) rfl hstatus _ _
  unfold parseHead
  split
  · exact hrefused _
  rename_i first lines hlines
  split
  · exact hrefused _
  rename_i status hfirst
  iterate 3
    split
    · exact hrefused _
  rename_i fields hfields
  have hhead : Headed r.head status fields := ⟨htext, first, lines, hlines, hfirst, hfields⟩
  split
  · rename_i hinterim
    have hnext : Preamble (pre ++ r.head) := .interim hpre hhead ⟨by omega, hinterim⟩
    have hreading : Reading r.headRequest { r with head := [] } (pre ++ r.head ++ []) [] :=
      .head hp rfl hstatus hlength hnext
        ⟨[], [], rfl, forall_mem_nil _, not_mem_nil, hlen.symm⟩
    rw [append_nil] at hreading
    exact hreading
  · exact setFraming_reading hlength hpre hhead (by omega)

theorem lines_length (h : ∀ line ∈ lines, Inner line) (hne : lines ≠ []) :
    2 ≤ (linesText lines).length := by
  cases lines with
  | nil => exact absurd rfl hne
  | cons line =>
    have hline := length_pos_iff.mpr (h line mem_cons_self).2.1
    rw [linesText_cons, length_append, length_append, length_singleton]
    omega

theorem headByte_reading (hp : r.phase = .head) (hstatus : r.status = 0)
    (hlength : r.contentLength = 0) (hpre : Preamble pre)
    (htext : Lines r.head r.lineLen lines cur) :
    Reading r.headRequest (headByte r c).1 (pre ++ r.head ++ [c]) [] := by
  unfold headByte
  split
  · exact .refused (r := r.fail .headTooLarge) rfl hstatus _ _
  rw [append_assoc]
  simp only
  split
  · rename_i hc
    refine .head ?_ ?_ ?_ ?_ hpre ?_
    · exact hp
    · rfl
    · exact hstatus
    · exact hlength
    · exact ⟨lines, cur ++ [c], htext.byte hc⟩
  rename_i hc
  have hc : c = LF := not_not.mp hc
  subst hc
  split
  · rename_i he
    have hline := not_or.mp (mt htext.blank_iff.mpr he)
    refine .head ?_ ?_ ?_ ?_ hpre ?_
    · exact hp
    · rfl
    · exact hstatus
    · exact hlength
    · exact ⟨lines ++ [cur], [], htext.newline hline.1 hline.2⟩
  rename_i he
  obtain ⟨crlf, hhead⟩ := htext.blank (htext.blank_iff.mp (not_not.mp he))
  split
  · rename_i hshort
    have hnone : lines = [] := by
      by_contra hne
      have htwo := lines_length htext.inner hne
      rw [hhead, length_append] at hshort
      cases crlf
      · change _ + 1 ≤ 2 at hshort
        omega
      · change _ + 2 ≤ 2 at hshort
        omega
    rw [hnone] at hhead
    have hnext : Preamble (pre ++ (r.head ++ [LF])) := by
      rw [hhead]
      exact .blank hpre crlf
    have hreading : Reading r.headRequest { r with head := [], lineLen := 0 }
        (pre ++ (r.head ++ [LF]) ++ []) [] :=
      .head hp rfl hstatus hlength hnext ⟨[], [], rfl, forall_mem_nil _, not_mem_nil, rfl⟩
    rw [append_nil] at hreading
    exact hreading
  · rename_i hlong
    have hne : lines ≠ [] := by
      intro hnone
      rw [hhead, hnone] at hlong
      cases crlf <;> exact hlong (by decide)
    have hcomplete : HeadText (r.head ++ [LF]) := ⟨lines, crlf, hhead, hne, htext.inner⟩
    have hreading := parseHead_reading (r := { r with head := r.head ++ [LF], lineLen := 0 }) hp
      hstatus hlength hpre hcomplete rfl
    exact hreading

theorem Reading.byte (h : Reading headRequest r bytes out) (hover : responseOver r = false)
    (c : UInt8) :
    Reading headRequest (byteStep r c).1 (bytes ++ [c]) (out ++ (byteStep r c).2) := by
  cases h with
  | head hp hrequest hstatus hlength hpre htext =>
    obtain ⟨_, _, htext⟩ := htext
    subst hrequest
    unfold byteStep
    simp only [hp]
    exact headByte_reading hp hstatus hlength hpre htext
  | body hs hb =>
    rcases hb with hp | hb
    · rw [responseOver, responseFailed, hp] at hover
      simp at hover
    · have hbehind := (byteStep_reads hb.counted c).behind hb.phase_ne
      rw [append_assoc, ← hbehind.head]
      exact .body (hs.behind hbehind) (hb.byte hover c)
  | refused hp =>
    rw [responseOver, responseFailed, hp] at hover
    simp at hover

theorem Reading.message (h : Reading headRequest r bytes out)
    (hend : r.phase = .done ∨ r.phase = .untilClose) :
    Message headRequest bytes r.status r.framing out ∧
      (r.framing = .untilClose ↔ r.phase = .untilClose) := by
  cases h with
  | head hp
  | refused hp =>
    rw [hp] at hend
    rcases hend with hend | hend <;> cases hend
  | body hs hb =>
    have hf := hs.framing
    rw [hf]
    rcases hb with hp | hb
    · rw [hp] at hend
      rcases hend with hend | hend <;> cases hend
    cases hb with
    | done hp hne hframed =>
      rw [hf] at hframed hne
      refine ⟨.reply hs.preamble hs.head hs.final hframed, fun h => absurd h hne, ?_⟩
      rw [hp]
      exact nofun
    | untilClose hp hclose =>
      rw [hf] at hclose
      refine ⟨.reply hs.preamble hs.head hs.final ?_, fun _ => hp, fun _ => hclose⟩
      rw [hclose]
      exact .untilClose _
    | length hp | chunkSize hp | chunkData hp | chunkEnd hp | chunkEndLf hp | trailer hp =>
      rw [hp] at hend
      rcases hend with hend | hend <;> cases hend

theorem run_reading (headRequest : Bool) (bytes : Bytes)
    (hrun : byteMachine.run (responseInit headRequest) bytes = ⟨r, out, used⟩) :
    Reading headRequest r (bytes.take used) out := by
  have hreading := byteMachine.run_record (I := fun as r out => Reading headRequest r as out)
    (fun as r out c h hhalt => h.byte hhalt c) (Reading.init headRequest) bytes
  rw [hrun] at hreading
  exact hreading

theorem run_settled (hrun : byteMachine.run (responseInit headRequest) bytes = ⟨r, out, used⟩)
    (hdone : responseHeadDone r) :
    ∃ pre rest fields, bytes.take used = pre ++ r.head ++ rest ∧
      Settled headRequest r pre fields := by
  have hreading := run_reading headRequest bytes hrun
  generalize bytes.take used = read at hreading
  cases hreading with
  | head _ _ hstatus
  | refused _ hstatus =>
    rw [responseHeadDone, hstatus] at hdone
    cases hdone
  | body hs => exact ⟨_, _, _, rfl, hs⟩

theorem run_message (hrun : byteMachine.run (responseInit headRequest) bytes = ⟨r, out, used⟩)
    (hend : r.phase = .done ∨ r.phase = .untilClose) :
    Message headRequest (bytes.take used) r.status r.framing out ∧
      (r.framing = .untilClose ↔ r.phase = .untilClose) :=
  (run_reading headRequest bytes hrun).message hend

/-- However the bytes come, a response that is done, or whose end is that of the connection, has
read a reply of its status and handed out its body; one that is over takes none of what follows. -/
theorem feedPieces_sound (headRequest : Bool) (pieces : List Bytes) :
    let o := feedPieces (responseInit headRequest) pieces
    (o.state.phase = .done ∨ o.state.phase = .untilClose →
      Message headRequest (pieces.flatten.take o.used) o.state.status o.state.framing o.output) ∧
    (responseOver o.state → ∀ more,
      feedPieces (responseInit headRequest) (pieces ++ more) = o) := by
  intro o
  have ho : o = byteMachine.run (responseInit headRequest) pieces.flatten :=
    feedPieces_eq_run (responseInit_counted headRequest)
  refine ⟨fun hend => (run_message ho.symm hend).1, fun hover more => ?_⟩
  rw [feedPieces_eq_run (responseInit_counted headRequest), flatten_append, Machine.run_append,
    ← ho, Outcome.andThen, Machine.run_halted _ hover]
  simp [Outcome.stay]

end Inkwell.Http
