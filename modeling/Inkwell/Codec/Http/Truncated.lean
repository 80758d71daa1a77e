import Inkwell.Codec.Http.Message

namespace Inkwell.Http
open List hiding head length
open Library

inductive ChunkedBody : Bytes → Prop
  | last (h : Spelling 0 digits blanks extension) (crlf : Bool)
      (hlines : ∀ line ∈ lines, Inner line)
      (crlf' : Bool) :
    ChunkedBody
      (digits ++ blanks ++ extension ++ lineEnd crlf ++ (linesText lines ++ lineEnd crlf'))
  | chunk (h : Spelling (List.length data) digits blanks extension) (crlf : Bool) (hne : data ≠ [])
      (crlf' : Bool) (hrest : ChunkedBody rest) :
    ChunkedBody (digits ++ blanks ++ extension ++ lineEnd crlf ++ (data ++ (lineEnd crlf' ++ rest)))

/-- A whole reply that says where its body ends. -/
inductive Complete (headRequest : Bool) : Bytes → Prop
  | length (hpre : Preamble pre) (hhead : Headed head status fields) (hstatus : 200 ≤ status)
      (hframing : framingOf headRequest status fields = .length)
      (hlength : fields.length = some (List.length body)) : Complete headRequest
      (pre ++ head ++ body)
  | chunked (hpre : Preamble pre) (hhead : Headed head status fields) (hstatus : 200 ≤ status)
      (hframing : framingOf headRequest status fields = .chunked) (hbody : ChunkedBody body) :
    Complete headRequest (pre ++ head ++ body)

/-- Bytes that lead to where `Q` holds, unless the response fails, and are not at an end before. -/
inductive Passes (Q : Response → Prop) : Response → Bytes → Prop
  | here (h : Q r) : Passes Q r []
  | failed (h : r.phase = .failed) (bytes : Bytes) : Passes Q r bytes
  | byte (hdone : r.phase ≠ .done) (hclose : r.phase ≠ .untilClose)
      (h : Passes Q (byteStep r c).1 bytes) : Passes Q r (c :: bytes)

theorem Passes.append (hx : Passes Q r x) (hy : ∀ r', Q r' → Passes R r' y) :
    Passes R r (x ++ y) := by
  induction hx with
  | here h => exact hy _ h
  | failed h => exact .failed h _
  | byte hdone hclose _ ih => exact .byte hdone hclose ih

theorem Passes.mono (h : Passes Q r bytes) (hQ : ∀ r', Q r' → R r' ∨ r'.phase = .failed) :
    Passes R r bytes := by
  induction h with
  | here h =>
    rcases hQ _ h with hR | hfailed
    · exact .here hR
    · exact .failed hfailed []
  | failed h bytes => exact .failed h bytes
  | byte hdone hclose _ ih => exact .byte hdone hclose ih

theorem run_failed (h : r.phase = .failed) : byteMachine.run r bytes = .stay r := by
  apply byteMachine.run_halted
  change (responseDone r || responseFailed r) = true
  rw [responseFailed, h]
  exact Bool.or_true _

theorem Passes.state (h : Passes Q r bytes) :
    Q (byteMachine.run r bytes).state ∨ (byteMachine.run r bytes).state.phase = .failed := by
  induction h with
  | here h => exact .inl h
  | failed h =>
    rw [run_failed h]
    exact .inr h
  | @byte r _ _ hdone _ _ ih =>
    by_cases hfailed : r.phase = .failed
    · rw [run_failed hfailed]
      exact .inr hfailed
    · rw [byteMachine.run_cons (over_of_phase ⟨hdone, hfailed⟩)]
      exact ih

theorem Passes.cut (h : Passes Q r (p ++ q)) (hq : q ≠ []) :
    (byteMachine.run r p).state.phase ≠ .done ∧
      (byteMachine.run r p).state.phase ≠ .untilClose := by
  have hstop (r : Response) (p : Bytes) (h : r.phase = .failed) :
      (byteMachine.run r p).state.phase ≠ .done ∧
        (byteMachine.run r p).state.phase ≠ .untilClose := by
    rw [run_failed h]
    change r.phase ≠ .done ∧ r.phase ≠ .untilClose
    rw [h]
    exact ⟨nofun, nofun⟩
  induction p generalizing r with
  | nil =>
    cases h with
    | here => exact absurd rfl hq
    | failed h => exact hstop _ [] h
    | byte hdone hclose => exact ⟨hdone, hclose⟩
  | cons c p ih =>
    by_cases hfailed : r.phase = .failed
    · exact hstop r (c :: p) hfailed
    cases h with
    | failed h => exact absurd h hfailed
    | byte hdone _ h =>
      rw [byteMachine.run_cons (over_of_phase ⟨hdone, hfailed⟩)]
      exact ih h

theorem Passes.one (hp : r.phase ≠ .done ∧ r.phase ≠ .untilClose)
    (h : (byteStep r c).1.phase = .failed ∨ Q (byteStep r c).1) : Passes Q r [c] := by
  apply Passes.byte hp.1 hp.2
  rcases h with hfailed | hQ
  · exact .failed hfailed []
  · exact .here hQ

theorem passes_headByte (hp : r.phase = .head)
    (h : (headByte r c).1.phase = .failed ∨ Q (headByte r c).1) : Passes Q r [c] := by
  refine Passes.one (by simp [hp]) ?_
  rw [byteStep, hp]
  exact h

theorem passes_text {Q : Bytes → Response → Prop} (line : Bytes)
    (hbyte : ∀ {line r c}, Q line r → c ≠ LF → Passes (Q (line ++ [c])) r [c]) (h : Q line r)
    (hlf : LF ∉ text) : Passes (Q (line ++ text)) r text := by
  induction text generalizing line r with
  | nil =>
    apply Passes.here
    rw [append_nil]
    exact h
  | cons c _ ih =>
    rw [mem_cons, not_or] at hlf
    apply (hbyte h (Ne.symm hlf.1)).append
    intro _ hr'
    have hrest := ih _ hr' hlf.2
    rw [append_assoc] at hrest
    exact hrest

theorem passes_headText (hp : r.phase = .head) (hlf : LF ∉ text) :
    Passes (· = { r with head := r.head ++ text, lineLen := r.lineLen + text.length }) r text := by
  refine passes_text (Q := fun line => (· = { r with
    head := r.head ++ line, lineLen := r.lineLen + line.length })) [] ?_ (by simp) hlf
  rintro _ _ c rfl hc
  refine passes_headByte (by exact hp) ?_
  unfold headByte
  split
  · exact .inl rfl
  · rw [if_pos hc]
    simp [add_assoc]

theorem passes_headLf (hp : r.phase = .head)
    (hne : ¬ (r.lineLen = 0 ∨ r.lineLen = 1 ∧ r.head.getLast? = some CR)) :
    Passes (· = { r with head := r.head ++ [LF], lineLen := 0 }) r [LF] := by
  apply passes_headByte hp
  unfold headByte
  split
  · exact .inl rfl
  · simp only [ne_eq, not_true_eq_false, if_false]
    rw [if_pos hne]
    exact .inr rfl

theorem passes_headLine (hp : r.phase = .head) (hn : r.lineLen = 0) (h : Inner line) :
    Passes (· = { r with head := r.head ++ (line ++ [LF]), lineLen := 0 }) r (line ++ [LF]) := by
  obtain ⟨hlf, hne, hcr⟩ := h
  apply (passes_headText hp hlf).append
  rintro _ rfl
  rw [← append_assoc]
  apply passes_headLf
    (r := { r with head := r.head ++ line, lineLen := r.lineLen + line.length }) hp
  rw [hn, zero_add]
  rintro (hempty | ⟨hone, hlast⟩)
  · exact hne (eq_nil_of_length_eq_zero hempty)
  · obtain ⟨c, rfl⟩ := length_eq_one_iff.mp hone
    rw [getLast?_concat] at hlast
    exact hcr (by rw [Option.some.inj hlast])

theorem passes_headLines (hp : r.phase = .head) (hn : r.lineLen = 0)
    (h : ∀ line ∈ lines, Inner line) :
    Passes (· = { r with head := r.head ++ linesText lines, lineLen := 0 }) r
      (linesText lines) := by
  induction lines generalizing r with
  | nil =>
    apply Passes.here
    rw [linesText, map_nil, flatten_nil, append_nil, ← hn]
  | cons line _ ih =>
    obtain ⟨hline, hlines⟩ := forall_mem_cons.mp h
    rw [linesText_cons]
    apply (passes_headLine hp hn hline).append
    rintro _ rfl
    rw [← append_assoc]
    exact ih (r := { r with head := r.head ++ (line ++ [LF]), lineLen := 0 }) hp rfl hlines

theorem passes_headBlank (hp : r.phase = .head) (hn : r.lineLen = 0) (crlf : Bool) :
    Passes (fun r' => r' = if (r.head ++ lineEnd crlf).length ≤ 2
        then { r with head := [], lineLen := 0 }
        else (parseHead { r with head := r.head ++ lineEnd crlf, lineLen := 0 }).1)
      r (lineEnd crlf) := by
  have hlf : ∀ r₁ : Response, r₁.phase = .head →
      (r₁.lineLen = 0 ∨ r₁.lineLen = 1 ∧ r₁.head.getLast? = some CR) →
      Passes (fun r' => r' = if (r₁.head ++ [LF]).length ≤ 2
          then { r₁ with head := [], lineLen := 0 }
          else (parseHead { r₁ with head := r₁.head ++ [LF], lineLen := 0 }).1) r₁ [LF] := by
    intro _ hp₁ hempty
    apply passes_headByte hp₁
    unfold headByte
    split
    · exact .inl rfl
    · simp only [ne_eq, not_true_eq_false, if_false]
      rw [if_neg (not_not.mpr hempty)]
      split
      · exact .inr rfl
      · exact .inr rfl
  cases crlf with
  | false => exact hlf r hp (.inl hn)
  | true =>
    have hcr : Passes (· = { r with head := r.head ++ [CR], lineLen := r.lineLen + 1 }) r [CR] :=
      passes_headText hp (by decide)
    apply hcr.append
    intro r' hr'
    have hnext := hlf r' (by rw [hr']; exact hp) (.inr (by
      rw [hr']
      exact ⟨congrArg (· + 1) hn, getLast?_concat⟩))
    subst hr'
    simp only [append_assoc, singleton_append] at hnext
    exact hnext

theorem passes_head (headRequest : Bool) (h : HeadText head) :
    Passes (· = (parseHead { responseInit headRequest with head }).1) (responseInit headRequest)
      head := by
  obtain ⟨lines, crlf, rfl, hne, hlines⟩ := h
  apply (passes_headLines rfl rfl hlines).append
  rintro _ rfl
  have hblank := passes_headBlank
    (r := { responseInit headRequest with head := linesText lines, lineLen := 0 }) rfl rfl crlf
  rw [if_neg] at hblank
  · exact hblank
  · have hlong := lines_length hlines hne
    have hend : 1 ≤ (lineEnd crlf).length := by cases crlf <;> decide
    change ¬ (linesText lines ++ lineEnd crlf).length ≤ 2
    rw [length_append]
    omega

theorem Headed.parse (h : Headed head status fields) (r : Response) :
    (parseHead { r with head }).1.phase = .failed ∨ 100 ≤ status ∧
      (parseHead { r with head }).1 =
        if status < 200 then { r with head := [] }
        else setFraming { r with head } status fields := by
  obtain ⟨_, lines, hsplit, hstatus, hfields⟩ := h.lines
  unfold parseHead
  simp only [hsplit, hstatus, hfields]
  split
  · exact .inl rfl
  rename_i hlow
  split
  · exact .inl rfl
  · refine .inr ⟨le_of_not_gt hlow, ?_⟩
    split
    · rfl
    · rfl

theorem passes_preamble (h : Preamble bytes) :
    Passes (· = responseInit headRequest) (responseInit headRequest) bytes := by
  induction h with
  | nil => exact .here rfl
  | blank _ crlf ih =>
    apply ih.append
    rintro _ rfl
    have hblank := passes_headBlank (r := responseInit headRequest) rfl rfl crlf
    rw [if_pos] at hblank
    · exact hblank
    · change (lineEnd crlf).length ≤ 2
      cases crlf <;> decide
  | interim _ hhead hstatus ih =>
    apply ih.append
    rintro _ rfl
    apply (passes_head headRequest hhead.text).mono
    rintro _ rfl
    rcases hhead.parse (responseInit headRequest) with hfailed | ⟨_, heq⟩
    · exact .inr hfailed
    · rw [if_pos hstatus.2] at heq
      exact .inl heq

theorem passes_reply (hpre : Preamble pre) (hhead : Headed head status fields)
    (hstatus : 200 ≤ status) :
    Passes (· = setFraming { responseInit headRequest with head } status fields)
      (responseInit headRequest) (pre ++ head) := by
  apply (passes_preamble hpre).append
  rintro _ rfl
  apply (passes_head headRequest hhead.text).mono
  rintro _ rfl
  rcases hhead.parse (responseInit headRequest) with hfailed | ⟨_, heq⟩
  · exact .inr hfailed
  · rw [if_neg (not_lt.mpr hstatus)] at heq
    exact .inl heq

theorem passes_counted (hp : r.phase = .length ∨ r.phase = .chunkData)
    (hremaining : r.remaining = body.length) (hne : body ≠ []) :
    Passes (fun r' => r'.chunkLine = r.chunkLine ∧
        r'.phase = if r.phase = .length then .done else .chunkEnd) r body := by
  induction body generalizing r with
  | nil => exact absurd rfl hne
  | cons c body ih =>
    have hstep : (byteStep r c).1 = (takeBody r 1).response := by
      rcases hp with hp | hp <;> rw [byteStep, hp]
    have hpos : 0 < r.remaining := by
      rw [hremaining]
      exact Nat.succ_pos _
    rw [takeBody_one hpos] at hstep
    apply Passes.byte
    · rcases hp with hp | hp <;> rw [hp] <;> simp
    · rcases hp with hp | hp <;> rw [hp] <;> simp
    cases body with
    | nil =>
      have hlast : r.remaining = 1 := hremaining
      rw [hstep, if_pos hlast]
      exact .here ⟨rfl, rfl⟩
    | cons d body =>
      rw [length_cons, length_cons] at hremaining
      have hmore : r.remaining ≠ 1 := by omega
      rw [if_neg hmore] at hstep
      rw [hstep]
      apply ih (r := { r with
        remaining := r.remaining - 1, bodyReceived := r.bodyReceived + 1 }) hp
      · change r.remaining - 1 = body.length + 1
        omega
      · exact cons_ne_nil d body

theorem passes_chunkSizeByte (hp : r.phase = .chunkSize)
    (h : (chunkSizeByte r c).1.phase = .failed ∨ Q (chunkSizeByte r c).1) : Passes Q r [c] := by
  refine Passes.one (by simp [hp]) ?_
  rw [byteStep, hp]
  exact h

theorem passes_sizeText (hp : r.phase = .chunkSize) (hlf : LF ∉ text) :
    Passes (· = { r with chunkLine := r.chunkLine ++ text }) r text := by
  refine passes_text (Q := fun line => (· = { r with
    chunkLine := r.chunkLine ++ line })) [] ?_ (by simp) hlf
  rintro _ _ c rfl hc
  refine passes_chunkSizeByte (by exact hp) ?_
  unfold chunkSizeByte
  rw [if_pos hc]
  split
  · exact .inl rfl
  · simp

def Opened (size : Nat) (r : Response) : Prop :=
  if size = 0 then r.phase = .trailer ∧ r.lineLen = 0
  else r.phase = .chunkData ∧ r.remaining = size ∧ r.chunkLine = []

theorem Spelling.passes (h : Spelling size digits blanks extension) (hp : r.phase = .chunkSize)
    (hl : r.chunkLine = []) :
    Passes (Opened size) r (digits ++ blanks ++ extension ++ lineEnd crlf) := by
  obtain ⟨hlf, hcr⟩ := h.clean
  have hvalue := h.chunkSizeLine_eq
  generalize digits ++ blanks ++ extension = text at *
  have hend : ∀ r' : Response, r'.phase = .chunkSize → stripCr r'.chunkLine = text →
      Passes (Opened size) r' [LF] := by
    intro _ hp' hstrip
    apply passes_chunkSizeByte hp'
    unfold chunkSizeByte
    simp only [ne_eq, not_true_eq_false, if_false, hstrip]
    rcases hvalue with hsome | ⟨hnone, -⟩
    · rw [hsome]
      cases size with
      | zero => exact .inr ⟨rfl, rfl⟩
      | succ => exact .inr ⟨rfl, rfl, rfl⟩
    · rw [hnone]
      exact .inl rfl
  apply (passes_sizeText hp hlf).append
  rintro _ rfl
  cases crlf with
  | false =>
    apply hend { r with chunkLine := r.chunkLine ++ text } hp
    rw [hl, nil_append]
    exact stripCr_clean text hcr
  | true =>
    have hcrlf : LF ∉ [CR] := by decide
    have hreturn := passes_sizeText (r := { r with chunkLine := r.chunkLine ++ text }) hp hcrlf
    apply hreturn.append
    rintro _ rfl
    apply hend { r with chunkLine := r.chunkLine ++ text ++ [CR] } hp
    rw [hl, nil_append]
    exact stripCr_cr text

theorem passes_chunkEnd (hp : r.phase = .chunkEnd) (hl : r.chunkLine = []) :
    Passes (fun r' => r'.phase = .chunkSize ∧ r'.chunkLine = []) r (lineEnd crlf) := by
  have hdone : r.phase ≠ .done ∧ r.phase ≠ .untilClose := by
    rw [hp]
    exact ⟨nofun, nofun⟩
  cases crlf with
  | false =>
    have hstep : (byteStep r LF).1 = { r with phase := .chunkSize } := by
      rw [byteStep, hp]
      rfl
    apply Passes.one hdone
    rw [hstep]
    exact .inr ⟨rfl, hl⟩
  | true =>
    have hcr : (byteStep r CR).1 = { r with phase := .chunkEndLf } := by
      rw [byteStep, hp]
      rfl
    apply Passes.byte hdone.1 hdone.2
    rw [hcr]
    exact .one ⟨Phase.noConfusion, Phase.noConfusion⟩ (.inr ⟨rfl, hl⟩)

theorem passes_trailerByte (hp : r.phase = .trailer)
    (h : (trailerByte r c).1.phase = .failed ∨ Q (trailerByte r c).1) : Passes Q r [c] := by
  refine Passes.one (by simp [hp]) ?_
  rw [byteStep, hp]
  exact h

structure InTrailer (line : Bytes) (r : Response) : Prop where
  phase : r.phase = .trailer
  len : r.lineLen = line.length
  cr : line ≠ [] → r.lineCr = (line.getLast? == some CR)

theorem InTrailer.passes (h : InTrailer line r) (hlf : LF ∉ text) :
    Passes (InTrailer (line ++ text)) r text := by
  refine passes_text line (fun {line r c} h hc => ?_) h hlf
  apply passes_trailerByte h.phase
  unfold trailerByte
  simp only
  split
  · exact .inl rfl
  · refine .inr ⟨h.phase, ?_, ?_⟩
    · rw [length_append, length_singleton, ← h.len]
    · intro _
      rw [getLast?_concat]
      rfl

theorem InTrailer.empty_iff (h : InTrailer line r) :
    (r.lineLen = 0 ∨ r.lineLen = 1 ∧ r.lineCr) ↔ line = [] ∨ line = [CR] := by
  rw [h.len]
  constructor
  · rintro (hzero | ⟨hone, hcr⟩)
    · exact .inl (eq_nil_of_length_eq_zero hzero)
    · obtain ⟨_, rfl⟩ := length_eq_one_iff.mp hone
      rw [h.cr (cons_ne_nil _ _), getLast?_singleton, beq_iff_eq] at hcr
      exact .inr (by rw [Option.some.inj hcr])
  · rintro (rfl | rfl)
    · exact .inl rfl
    · exact .inr ⟨rfl, h.cr (cons_ne_nil _ _)⟩

theorem InTrailer.inner (h : InTrailer line r) (hne : ¬ (line = [] ∨ line = [CR])) :
    Passes (InTrailer []) r [LF] := by
  apply passes_trailerByte h.phase
  unfold trailerByte
  simp only
  split
  · exact .inl rfl
  · rw [if_neg (fun hempty => hne (h.empty_iff.mp hempty))]
    exact .inr ⟨h.phase, rfl, fun hnil => absurd rfl hnil⟩

theorem InTrailer.blank (h : InTrailer line r) (hempty : line = [] ∨ line = [CR]) :
    Passes (·.phase = .done) r [LF] := by
  apply passes_trailerByte h.phase
  unfold trailerByte
  simp only
  split
  · exact .inl rfl
  · rw [if_pos (h.empty_iff.mpr hempty)]
    exact .inr rfl

theorem InTrailer.ends (h : InTrailer [] r) (hlines : ∀ line ∈ lines, Inner line) :
    Passes (·.phase = .done) r (linesText lines ++ lineEnd crlf) := by
  induction lines generalizing r with
  | nil =>
    cases crlf with
    | false => exact h.blank (.inl rfl)
    | true =>
      have hcrlf : LF ∉ [CR] := by decide
      apply (h.passes hcrlf).append
      intro _ hr'
      exact hr'.blank (.inr rfl)
  | cons line lines ih =>
    obtain ⟨⟨hlf, hne, hcr⟩, hrest⟩ := forall_mem_cons.mp hlines
    have hsplit : linesText (line :: lines) ++ lineEnd crlf =
        line ++ ([LF] ++ (linesText lines ++ lineEnd crlf)) := by
      rw [linesText, map_cons, flatten_cons, append_assoc, append_assoc]
      rfl
    rw [hsplit]
    apply (h.passes hlf).append
    intro _ hr₁
    apply (hr₁.inner (not_or.mpr ⟨hne, hcr⟩)).append
    intro _ hr₂
    exact ih hr₂ hrest

theorem ChunkedBody.passes (h : ChunkedBody bytes) (hp : r.phase = .chunkSize)
    (hl : r.chunkLine = []) : Passes (·.phase = .done) r bytes := by
  induction h generalizing r with
  | last h _ hlines =>
    apply (h.passes hp hl).append
    intro _ hr₁
    obtain ⟨hphase, hlen⟩ := hr₁
    exact InTrailer.ends ⟨hphase, hlen, fun hne => absurd rfl hne⟩ hlines
  | chunk h _ hne _ _ ih =>
    apply (h.passes hp hl).append
    intro _ hr₁
    have hpos : List.length _ ≠ 0 := fun hzero => hne (eq_nil_of_length_eq_zero hzero)
    rw [Opened, if_neg hpos] at hr₁
    obtain ⟨hphase, hremaining, hline⟩ := hr₁
    apply (passes_counted (.inr hphase) hremaining hne).append
    intro _ hr₂
    rw [hphase, if_neg (by decide), hline] at hr₂
    apply (passes_chunkEnd hr₂.2 hr₂.1).append
    intro _ hr₃
    exact ih hr₃.1 hr₃.2

theorem Complete.passes (h : Complete headRequest bytes) :
    Passes (·.phase = .done) (responseInit headRequest) bytes := by
  cases h with
  | @length _ _ status fields body hpre hhead hstatus hframing hlength =>
    apply (passes_reply hpre hhead hstatus).append
    intro r hr
    rw [setFraming_eq] at hr
    change r = framed _ status _ (framingOf headRequest status fields) at hr
    rw [hframing, hlength] at hr
    have hremaining : r.remaining = body.length := by rw [hr]; rfl
    have hphase : r.phase = if body.length = 0 then .done else .length := by rw [hr]; rfl
    by_cases hne : body = []
    · subst hne
      exact .here hphase
    · rw [if_neg (fun hzero => hne (eq_nil_of_length_eq_zero hzero))] at hphase
      apply (passes_counted (.inl hphase) hremaining hne).mono
      intro _ hr'
      rw [if_pos hphase] at hr'
      exact .inl hr'.2
  | @chunked _ _ status fields _ hpre hhead hstatus hframing hbody =>
    apply (passes_reply hpre hhead hstatus).append
    intro r hr
    rw [setFraming_eq] at hr
    change r = framed _ status _ (framingOf headRequest status fields) at hr
    rw [hframing] at hr
    exact hbody.passes (by rw [hr]; rfl) (by rw [hr]; rfl)

def Explained (r : Response) : Prop := r.phase = .failed → r.error ≠ .ok

theorem Reads.explained (h : Reads r c out) (he : Explained r) : Explained out.1 := by
  cases h with
  | ended | headText | headDropped | body | untilClose | sizeText | trailer => exact he
  | headFull | chunkRefused | trailerFull => exact fun _ => HttpError.noConfusion
  | headRefused _ _ he => exact fun _ => he
  | headRead =>
    rw [setFraming_eq]
    cases framingOf r.headRequest _ _ with
    | length =>
      exact fun hfailed => by simp only [framed] at hfailed; split at hfailed <;> cases hfailed
    | _ => exact fun hfailed => Phase.noConfusion hfailed
  | bodyLast hp => exact fun hfailed => by rcases hp with hp | hp <;> simp [hp] at hfailed
  | _ => exact fun hfailed => Phase.noConfusion hfailed

theorem finish_refused (hdone : r.phase ≠ .done) (hclose : r.phase ≠ .untilClose) :
    (responseFinish r).2 = false ∧
      (r.phase ≠ .failed ∧ (responseFinish r).1.error = .truncated ∨
        r.phase = .failed ∧ (responseFinish r).1 = r) := by
  unfold responseFinish
  cases hp : r.phase with
  | done => exact absurd hp hdone
  | untilClose => exact absurd hp hclose
  | failed => exact ⟨rfl, .inr ⟨rfl, rfl⟩⟩
  | _ => exact ⟨rfl, .inl ⟨Phase.noConfusion, rfl⟩⟩

/-- A reply that says where it ends is not ended by the end of the connection, however it is cut
short; only what is done, or has no other end, is. -/
theorem finish_cut_short (headRequest : Bool) (pieces : List Bytes) :
    (∀ bytes, Complete headRequest bytes → pieces.flatten <+: bytes → pieces.flatten ≠ bytes →
      (responseFinish (feedPieces (responseInit headRequest) pieces).state).2 = false ∧
      ((responseFinish (feedPieces (responseInit headRequest) pieces).state).1.error = .truncated ∨
        (feedPieces (responseInit headRequest) pieces).state.error ≠ .ok ∧
        (responseFinish (feedPieces (responseInit headRequest) pieces).state).1 =
          (feedPieces (responseInit headRequest) pieces).state)) ∧
    ((responseFinish (feedPieces (responseInit headRequest) pieces).state).2 →
      responseDone (feedPieces (responseInit headRequest) pieces).state ∨
      (feedPieces (responseInit headRequest) pieces).state.framing = .untilClose) := by
  rw [feedPieces_eq_run (responseInit_counted headRequest)]
  refine ⟨?_, ?_⟩
  · intro _ hcomplete hprefix hproper
    obtain ⟨rest, rfl⟩ := hprefix
    have hne : rest ≠ [] := by
      rintro rfl
      exact hproper (append_nil _).symm
    obtain ⟨hdone, hclose⟩ := hcomplete.passes.cut hne
    obtain ⟨hrefused, hwhy⟩ := finish_refused hdone hclose
    refine ⟨hrefused, ?_⟩
    rcases hwhy with ⟨_, htruncated⟩ | ⟨hfailed, hsame⟩
    · exact .inl htruncated
    · have hstep : ∀ r c, Counted r ∧ Explained r → byteMachine.halted r = false →
          Counted (byteStep r c).1 ∧ Explained (byteStep r c).1 := fun r c h _ =>
        have hreads := byteStep_reads h.1 c
        ⟨hreads.counted h.1, hreads.explained h.2⟩
      have hinit : Explained (responseInit headRequest) := nofun
      have hexplained := byteMachine.run_induction hstep ⟨responseInit_counted headRequest, hinit⟩
        pieces.flatten
      exact .inr ⟨hexplained.2 hfailed, hsame⟩
  · intro htrue
    cases hrun : byteMachine.run (responseInit headRequest) pieces.flatten with
    | mk r =>
      rw [hrun] at htrue
      by_cases hdone : r.phase = .done
      · exact .inl (beq_iff_eq.mpr hdone)
      by_cases hclose : r.phase = .untilClose
      · have hmessage := run_message hrun (.inr hclose)
        exact .inr (hmessage.2.mpr hclose)
      · cases htrue.symm.trans (finish_refused hdone hclose).1

/-- The connection ends behind the head. -/
theorem finish_cut_short_headed :
    let head := ascii "HTTP/1.1 200 OK\r\nContent-Length: 1\r\n\r\n"
    Complete false (head ++ ascii "x") ∧
      (responseFinish (feedPieces (responseInit false) [head]).state).2 = false := by
  intro head
  have hhead : Headed head 200 ⟨some 1, false⟩ := by
    refine ⟨⟨[ascii "HTTP/1.1 200 OK\r", ascii "Content-Length: 1\r"], true, ?_, ?_, ?_⟩, ?_⟩
    · decide
    · decide
    · unfold Inner
      decide
    · exact ⟨_, _, rfl, by decide, by decide⟩
  have hlength : (Fields.mk (some 1) false).length = some (ascii "x").length := rfl
  have hcomplete : Complete false (head ++ ascii "x") :=
    .length .nil hhead (by decide) (by decide) hlength
  refine ⟨hcomplete, ((finish_cut_short false [head]).1 _ hcomplete ?_ ?_).1⟩
  · exact ⟨ascii "x", by simp⟩
  · decide

end Inkwell.Http
