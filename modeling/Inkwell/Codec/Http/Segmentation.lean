import Inkwell.Codec.Http.Response

namespace Inkwell.Http
open Library List

def byteStep (r : Response) (c : UInt8) : Response × Bytes :=
  match r.phase with
  | .head => ((headByte r c).1, [])
  | .length | .chunkData => ((takeBody r 1).response, [c])
  | .untilClose => ({ r with bodyReceived := r.bodyReceived + 1 }, [c])
  | .chunkSize => ((chunkSizeByte r c).1, [])
  | .chunkEnd => ((chunkEndByte r c).1, [])
  | .chunkEndLf => ((chunkEndLfByte r c).1, [])
  | .trailer => ((trailerByte r c).1, [])
  | .done | .failed => (r, [])

def responseOver (r : Response) : Bool := responseDone r || responseFailed r

def byteMachine : Machine Response UInt8 UInt8 := ⟨byteStep, responseOver⟩

def feedOutcome (r : Response) (bytes : Bytes) : Outcome Response UInt8 :=
  let f := responseFeed r bytes
  ⟨f.response, (bytes.drop f.bodyAt).take f.bodyLen, f.used⟩

def Counted (r : Response) : Prop := r.phase = .length ∨ r.phase = .chunkData → 0 < r.remaining

theorem counted_of_phase (hp : r.phase ≠ .length ∧ r.phase ≠ .chunkData) : Counted r :=
  fun h => (h.elim hp.1 hp.2).elim

theorem counted_fail (r : Response) : Counted (r.fail e) :=
  counted_of_phase (by simp [Response.fail])

def framingOf (headRequest : Bool) (status : Nat) (fields : Fields) : Framing :=
  if headRequest || status == 204 || status == 304 then .none
  else if fields.chunked then .chunked
  else if fields.length.isSome then .length
  else .untilClose

def framed (r : Response) (status length : Nat) : Framing → Response
  | .none => { r with status, framing := .none, phase := .done }
  | .length =>
    { r with
      status, framing := .length, contentLength := length, remaining := length
      phase := if length = 0 then .done else .length }
  | .chunked => { r with status, framing := .chunked, phase := .chunkSize, chunkLine := [] }
  | .untilClose => { r with status, framing := .untilClose, phase := .untilClose }

theorem setFraming_eq : setFraming r status fields =
      framed r status (fields.length.getD 0) (framingOf r.headRequest status fields) := by
  unfold setFraming framingOf
  simp only
  split
  · rfl
  split
  · rfl
  cases fields.length with
  | none | some => rfl

theorem setFraming_counted (r : Response) (status : Nat) (fields : Fields) :
    Counted (setFraming r status fields) := by
  rw [setFraming_eq]
  cases framingOf r.headRequest status fields with
  | length =>
    by_cases hl : fields.length.getD 0 = 0
    · exact counted_of_phase (by simp [framed, hl])
    · exact fun _ => Nat.pos_of_ne_zero hl
  | _ => exact counted_of_phase ⟨nofun, nofun⟩

theorem takeBody_one (h : 0 < r.remaining) :
    (takeBody r 1).response =
      if r.remaining = 1 then
        { r with
          remaining := 0, bodyReceived := r.bodyReceived + 1
          phase := if r.phase = .length then .done else .chunkEnd }
      else { r with remaining := r.remaining - 1, bodyReceived := r.bodyReceived + 1 } := by
  have hmin : min r.remaining 1 = 1 := min_eq_right h
  unfold takeBody
  simp only [hmin]
  by_cases hone : r.remaining = 1
  · rw [if_pos (by omega), if_pos hone, hone]
  · rw [if_neg (by omega), if_neg hone]

inductive Reads (r : Response) (c : UInt8) : Response × Bytes → Prop
  | ended (hover : r.phase = .done ∨ r.phase = .failed) : Reads r c (r, [])
  | headFull (hp : r.phase = .head) : Reads r c (r.fail .headTooLarge, [])
  | headText (hp : r.phase = .head) (hroom : r.head.length + 1 < headMax) (n : Nat) :
    Reads r c ({ r with head := r.head ++ [c], lineLen := n }, [])
  | headDropped (hp : r.phase = .head) : Reads r c ({ r with head := [], lineLen := 0 }, [])
  | headRefused (hp : r.phase = .head) (hroom : r.head.length + 1 < headMax) (he : e ≠ .ok) :
    Reads r c (({ r with head := r.head ++ [c], lineLen := 0 } : Response).fail e, [])
  | headRead (hp : r.phase = .head) (hroom : r.head.length + 1 < headMax) (status : Nat)
      (fields : Fields) :
    Reads r c (setFraming { r with head := r.head ++ [c], lineLen := 0 } status fields, [])
  | bodyLast (hp : r.phase = .length ∨ r.phase = .chunkData) (hone : r.remaining = 1) :
    Reads r c ({ r with
      remaining := 0, bodyReceived := r.bodyReceived + 1
      phase := if r.phase = .length then .done else .chunkEnd }, [c])
  | body (hp : r.phase = .length ∨ r.phase = .chunkData) (hmore : 1 < r.remaining) :
    Reads r c ({ r with remaining := r.remaining - 1, bodyReceived := r.bodyReceived + 1 }, [c])
  | untilClose (hp : r.phase = .untilClose) :
    Reads r c ({ r with bodyReceived := r.bodyReceived + 1 }, [c])
  | chunkRefused (hp : r.phase = .chunkSize ∨ r.phase = .chunkEnd ∨ r.phase = .chunkEndLf)
      (hline : line = r.chunkLine ∨ line = []) :
    Reads r c (({ r with chunkLine := line } : Response).fail .chunk, [])
  | sizeText (hp : r.phase = .chunkSize) (hroom : r.chunkLine.length + 1 < chunkLineMax) :
    Reads r c ({ r with chunkLine := r.chunkLine ++ [c] }, [])
  | lastChunk (hp : r.phase = .chunkSize) :
    Reads r c ({ r with chunkLine := [], phase := .trailer, lineLen := 0, trailerLen := 0 }, [])
  | chunk (hp : r.phase = .chunkSize) (hsize : 0 < size) :
    Reads r c ({ r with chunkLine := [], phase := .chunkData, remaining := size }, [])
  | chunkEndCr (hp : r.phase = .chunkEnd) : Reads r c ({ r with phase := .chunkEndLf }, [])
  | chunkEnd (hp : r.phase = .chunkEnd ∨ r.phase = .chunkEndLf) :
    Reads r c ({ r with phase := .chunkSize }, [])
  | trailerFull (hp : r.phase = .trailer) :
    Reads r c (({ r with trailerLen := r.trailerLen + 1 } : Response).fail .headTooLarge, [])
  | trailer (hp : r.phase = .trailer) (n : Nat) (cr : Bool) :
    Reads r c ({ r with trailerLen := r.trailerLen + 1, lineLen := n, lineCr := cr }, [])
  | trailerEnd (hp : r.phase = .trailer) :
    Reads r c ({ r with trailerLen := r.trailerLen + 1, lineLen := 0, phase := .done }, [])

theorem fieldLine_error (h : fieldLine acc line = .error e) : e ≠ .ok := by
  unfold fieldLine at h
  repeat' split at h
  all_goals first
    | cases h
      simp
    | cases h

theorem fieldLines_error (h : fieldLines acc lines = .error e) : e ≠ .ok := by
  induction lines generalizing acc with
  | nil => cases h
  | cons _ _ ih =>
    unfold fieldLines at h
    split at h
    · cases h
    split at h
    · rename_i hline
      cases h
      exact fieldLine_error hline
    · exact ih h

theorem headByte_reads (hp : r.phase = .head) (c : UInt8) : Reads r c ((headByte r c).1, []) := by
  unfold headByte
  split
  · exact .headFull hp
  rename_i hroom
  have hroom := lt_of_not_ge hroom
  simp only
  split
  · exact .headText hp hroom _
  split
  · exact .headText hp hroom _
  split
  · exact .headDropped hp
  unfold parseHead
  iterate 4
    split
    · exact .headRefused hp hroom (by simp)
  split
  · rename_i herror
    exact .headRefused hp hroom (fieldLines_error herror)
  split
  · exact .headDropped hp
  · exact .headRead hp hroom _ _

theorem takeBody_reads (hp : r.phase = .length ∨ r.phase = .chunkData) (hpos : 0 < r.remaining) :
    Reads r c ((takeBody r 1).response, [c]) := by
  rw [takeBody_one hpos]
  split
  · rename_i hone
    exact .bodyLast hp hone
  · exact .body hp (by omega)

theorem chunkSizeByte_reads (hp : r.phase = .chunkSize) :
    Reads r c ((chunkSizeByte r c).1, []) := by
  unfold chunkSizeByte
  split
  · split
    · exact .chunkRefused (.inl hp) (.inl rfl)
    · rename_i hroom
      exact .sizeText hp (lt_of_not_ge hroom)
  · simp only
    split
    · exact .chunkRefused (.inl hp) (.inr rfl)
    · exact .lastChunk hp
    · rename_i hsize _
      exact .chunk hp (Nat.pos_of_ne_zero hsize)

theorem trailerByte_reads (hp : r.phase = .trailer) : Reads r c ((trailerByte r c).1, []) := by
  unfold trailerByte
  simp only
  split
  · exact .trailerFull hp
  split
  · exact .trailer hp _ _
  split
  · exact .trailerEnd hp
  · exact .trailer hp _ r.lineCr

theorem byteStep_reads (h : Counted r) (c : UInt8) : Reads r c (byteStep r c) := by
  unfold byteStep
  cases hp : r.phase with
  | head => exact headByte_reads hp c
  | length => exact takeBody_reads (.inl hp) (h (.inl hp))
  | chunkData => exact takeBody_reads (.inr hp) (h (.inr hp))
  | untilClose =>
    have hreads := Reads.untilClose (c := c) hp
    rwa [hp] at hreads
  | chunkSize => exact chunkSizeByte_reads hp
  | chunkEnd =>
    change Reads r c ((chunkEndByte r c).1, [])
    unfold chunkEndByte
    split
    · exact .chunkEndCr hp
    split
    · exact .chunkEnd (.inl hp)
    · exact .chunkRefused (.inr (.inl hp)) (.inl rfl)
  | chunkEndLf =>
    change Reads r c ((chunkEndLfByte r c).1, [])
    unfold chunkEndLfByte
    split
    · exact .chunkRefused (.inr (.inr hp)) (.inl rfl)
    · exact .chunkEnd (.inr hp)
  | trailer => exact trailerByte_reads hp
  | done => exact .ended (.inl hp)
  | failed => exact .ended (.inr hp)

theorem Reads.counted (h : Reads r c out) (hc : Counted r) : Counted out.1 := by
  cases h with
  | ended | headText | headDropped | untilClose | sizeText | trailer => exact hc
  | headRead => exact setFraming_counted _ _ _
  | body _ hmore => exact fun _ => Nat.sub_pos_of_lt hmore
  | chunk _ hsize => exact fun _ => hsize
  | bodyLast hp =>
    apply counted_of_phase
    rcases hp with hp | hp <;> simp [hp]
  | _ => exact counted_of_phase ⟨nofun, nofun⟩

theorem byteStep_counted (c : UInt8) (h : Counted r) : Counted (byteStep r c).1 :=
  (byteStep_reads h c).counted h

structure Behind (r r' : Response) : Prop where
  phase : r'.phase ≠ .head
  head : r'.head = r.head
  status : r'.status = r.status
  framing : r'.framing = r.framing
  contentLength : r'.contentLength = r.contentLength

theorem Reads.behind (h : Reads r c out) (hp : r.phase ≠ .head) : Behind r out.1 := by
  cases h with
  | headFull hp' | headText hp' | headDropped hp' | headRefused hp' | headRead hp' =>
    exact absurd hp' hp
  | ended | body | untilClose | sizeText | trailer => exact ⟨hp, rfl, rfl, rfl, rfl⟩
  | bodyLast hp' =>
    refine ⟨?_, rfl, rfl, rfl, rfl⟩
    rcases hp' with hp' | hp' <;> simp [hp']
  | _ => exact ⟨Phase.noConfusion, rfl, rfl, rfl, rfl⟩

theorem run_behind (hc : Counted r) (hp : r.phase ≠ .head) (bytes : Bytes) :
    Behind r (byteMachine.run r bytes).state := by
  have hstep : ∀ r' c, Counted r' ∧ Behind r r' → byteMachine.halted r' = false →
      Counted (byteStep r' c).1 ∧ Behind r (byteStep r' c).1 := by
    rintro _ c ⟨hc', hr'⟩ -
    have hreads := byteStep_reads hc' c
    have hnext := hreads.behind hr'.phase
    exact ⟨hreads.counted hc', hnext.phase, hnext.head.trans hr'.head,
      hnext.status.trans hr'.status,
      hnext.framing.trans hr'.framing, hnext.contentLength.trans hr'.contentLength⟩
  exact (byteMachine.run_induction hstep ⟨hc, hp, rfl, rfl, rfl, rfl⟩ bytes).2

theorem over_of_phase (h : r.phase ≠ .done ∧ r.phase ≠ .failed) : byteMachine.halted r = false := by
  simp [byteMachine, responseOver, responseDone, responseFailed, h]

theorem run_byte_cons (h : byteMachine.halted r = false) (hs : byteStep r c = (r', out)) :
    byteMachine.run r (c :: rest) =
      (⟨r', out, 1⟩ : Outcome Response UInt8).andThen fun r => byteMachine.run r rest := by
  have hm : byteMachine.step r c = (r', out) := hs
  rw [Machine.run_cons _ h, hm]

theorem run_byte (h : byteMachine.halted r = false) (hs : byteStep r c = (r', out)) :
    byteMachine.run r [c] = ⟨r', out, 1⟩ := by
  rw [run_byte_cons h hs]
  exact Outcome.andThen_stay _

theorem takeBody_succ (r : Response) (n : Nat) (hn : n + 1 < r.remaining) :
    (takeBody r 1).response.phase = r.phase ∧
      (takeBody r 1).response.remaining = r.remaining - 1 ∧
      ∀ k, k ≤ n + 1 → (takeBody (takeBody r 1).response k).response =
        (takeBody r (k + 1)).response := by
  have h₁ : min r.remaining 1 = 1 := by omega
  have h₂ : ¬ r.remaining - 1 = 0 := by omega
  refine ⟨by simp [takeBody, h₁, h₂], by simp [takeBody, h₁, h₂], ?_⟩
  intro k _
  have h₃ : min (r.remaining - 1) k = k := by omega
  have h₄ : min r.remaining (k + 1) = k + 1 := by omega
  simp only [takeBody, h₁, h₂, if_false, h₃, h₄]
  have h₅ : r.remaining - 1 - k = r.remaining - (k + 1) := by omega
  have h₆ : r.bodyReceived + 1 + k = r.bodyReceived + (k + 1) := by omega
  rw [h₅, h₆]

theorem run_counted (r : Response) (hp : r.phase = .length ∨ r.phase = .chunkData) (hb : bytes ≠ [])
    (hl : bytes.length ≤ r.remaining) :
    byteMachine.run r bytes = ⟨(takeBody r bytes.length).response, bytes, bytes.length⟩ := by
  induction bytes generalizing r with
  | nil => exact absurd rfl hb
  | cons c bytes ih =>
    have hh : byteMachine.halted r = false := by
      rcases hp with hp | hp <;> exact over_of_phase (by simp [hp])
    have hs : byteStep r c = ((takeBody r 1).response, [c]) := by
      rcases hp with hp | hp <;> simp [byteStep, hp]
    by_cases hnil : bytes = []
    · subst hnil
      exact run_byte hh hs
    · have hpos := length_pos_iff.mpr hnil
      obtain ⟨n, hn⟩ : ∃ n, bytes.length = n + 1 := ⟨bytes.length - 1, by omega⟩
      rw [length_cons] at hl
      obtain ⟨hphase, _, htake⟩ := takeBody_succ r n (by omega)
      rw [run_byte_cons hh hs, Outcome.andThen]
      simp only
      rw [ih _ (by rw [hphase]; exact hp) hnil (by omega), hn, htake (n + 1) (le_rfl)]
      simp [hn, add_comm]

theorem run_untilClose (r : Response) (bytes : Bytes) (hp : r.phase = .untilClose) :
    byteMachine.run r bytes =
      ⟨{ r with bodyReceived := r.bodyReceived + bytes.length }, bytes, bytes.length⟩ := by
  induction bytes generalizing r with
  | nil => rfl
  | cons c _ ih =>
    have hh : byteMachine.halted r = false := over_of_phase (by simp [hp])
    have hs : byteStep r c = ({ r with bodyReceived := r.bodyReceived + 1 }, [c]) := by
      simp [byteStep, hp]
    rw [run_byte_cons hh hs, Outcome.andThen]
    rw [ih { r with bodyReceived := r.bodyReceived + 1 } hp]
    simp [add_comm, Nat.add_left_comm]

theorem feedOutcome_byte (next : Response × Bool) (stop : Bool) (hover : r.phase ∉ [.done, .failed])
    (hs : byteStep r c = (next.1, []))
    (hf : responseFeed r (c :: rest) =
      if next.2 = stop then ⟨next.1, 1, 1, 0⟩ else (responseFeed next.1 rest).next)
    (ih : ∀ r, Counted r →
      feedOutcome r rest = byteMachine.run r (rest.take (responseFeed r rest).used))
    (h : Counted r) :
    feedOutcome r (c :: rest) =
      byteMachine.run r ((c :: rest).take (responseFeed r (c :: rest)).used) := by
  have hh : byteMachine.halted r = false := by
    simp only [mem_cons, not_mem_nil, or_false, not_or] at hover
    exact over_of_phase hover
  by_cases hstop : next.2 = stop
  · have ht : (c :: rest).take 1 = [c] := rfl
    simp only [feedOutcome, hf, if_pos hstop, ht]
    exact (run_byte hh hs).symm
  · have hk := byteStep_counted c h
    rw [hs] at hk
    rw [if_neg hstop] at hf
    have hu : (responseFeed r (c :: rest)).used = (responseFeed next.1 rest).used + 1 := by
      rw [hf]
      rfl
    rw [hu, take_succ_cons, run_byte_cons hh hs, Outcome.andThen, ← ih _ hk]
    simp only [feedOutcome, hf, Fed.next, drop_succ_cons, nil_append]
    rw [add_comm]

theorem feedOutcome_counted (hp : r.phase = .length ∨ r.phase = .chunkData) (h : Counted r) :
    feedOutcome r (c :: rest) =
      byteMachine.run r ((c :: rest).take (responseFeed r (c :: rest)).used) := by
  have hr := h hp
  have hf : responseFeed r (c :: rest) = takeBody r (rest.length + 1) := by
    rcases hp with hp | hp <;> simp [responseFeed, hp]
  have hu : (takeBody r (rest.length + 1)).used = min r.remaining (rest.length + 1) := rfl
  have hl : ((c :: rest).take (min r.remaining (rest.length + 1))).length =
      min r.remaining (rest.length + 1) := by
    rw [length_take, length_cons]
    omega
  have hne : (c :: rest).take (min r.remaining (rest.length + 1)) ≠ [] := by
    apply ne_nil_of_length_pos
    omega
  have hmin : takeBody r (min r.remaining (rest.length + 1)) = takeBody r (rest.length + 1) := by
    have hm : min r.remaining (min r.remaining (rest.length + 1)) =
        min r.remaining (rest.length + 1) := by omega
    simp only [takeBody, hm]
  rw [hf, hu, run_counted r hp hne (by omega), hl, hmin]
  simp only [feedOutcome, hf]
  rfl

theorem feedOutcome_run (r : Response) (bytes : Bytes) (h : Counted r) :
    feedOutcome r bytes = byteMachine.run r (bytes.take (responseFeed r bytes).used) := by
  induction bytes generalizing r with
  | nil => rfl
  | cons c rest ih =>
    cases hp : r.phase with
    | head =>
      exact feedOutcome_byte (headByte r c) true (by simp [hp]) (by simp [byteStep, hp])
        (by simp [responseFeed, hp]) ih h
    | length => exact feedOutcome_counted (.inl hp) h
    | chunkData => exact feedOutcome_counted (.inr hp) h
    | untilClose =>
      have hr := run_untilClose r (c :: rest) hp
      simp [feedOutcome, responseFeed, hp, hr]
    | chunkSize =>
      exact feedOutcome_byte (chunkSizeByte r c) false (by simp [hp]) (by simp [byteStep, hp])
        (by cases hf : (chunkSizeByte r c).2 <;> simp [responseFeed, hp, hf]) ih h
    | chunkEnd =>
      exact feedOutcome_byte (chunkEndByte r c) false (by simp [hp]) (by simp [byteStep, hp])
        (by cases hf : (chunkEndByte r c).2 <;> simp [responseFeed, hp, hf]) ih h
    | chunkEndLf =>
      exact feedOutcome_byte (chunkEndLfByte r c) false (by simp [hp]) (by simp [byteStep, hp])
        (by cases hf : (chunkEndLfByte r c).2 <;> simp [responseFeed, hp, hf]) ih h
    | trailer =>
      exact feedOutcome_byte (trailerByte r c) true (by simp [hp]) (by simp [byteStep, hp])
        (by simp [responseFeed, hp]) ih h
    | done | failed => simp [feedOutcome, responseFeed, hp, Outcome.stay]

theorem responseFeed_induction {P : Response → Prop}
    (hstep : ∀ r c, P r → byteMachine.halted r = false → P (byteStep r c).1) (hc : Counted r)
    (h : P r) : P (responseFeed r bytes).response := by
  have hstate : (responseFeed r bytes).response =
      (byteMachine.run r (bytes.take (responseFeed r bytes).used)).state :=
    congrArg Outcome.state (feedOutcome_run r bytes hc)
  rw [hstate]
  exact byteMachine.run_induction hstep h _

theorem responseFeed_progress (h : Counted r) (hh : byteMachine.halted r = false)
    (hb : bytes ≠ []) : 0 < (responseFeed r bytes).used := by
  cases bytes with
  | nil => exact absurd rfl hb
  | cons =>
    simp only [byteMachine, responseOver, responseDone, responseFailed] at hh
    cases hp : r.phase with
    | length =>
      have hr := h (.inl hp)
      simp only [responseFeed, hp, takeBody]
      omega
    | chunkData =>
      have hr := h (.inr hp)
      simp only [responseFeed, hp, takeBody]
      omega
    | done | failed => simp [hp] at hh
    | _ =>
      simp only [responseFeed, hp]
      first
        | exact Nat.succ_pos _
        | split <;> exact Nat.succ_pos _

theorem responseFeed_feeds : byteMachine.Feeds Counted feedOutcome where
  run_eq r bytes h := feedOutcome_run r bytes h
  progress _ _ h hh hb := responseFeed_progress h hh hb
  keeps _ c h _ := byteStep_counted c h

theorem responseInit_counted (headRequest : Bool) : Counted (responseInit headRequest) :=
  counted_of_phase (by simp [responseInit])

/-- Each piece fed in a loop until it is consumed or the response is over. -/
def feedPieces (r : Response) (pieces : List Bytes) : Outcome Response UInt8 :=
  Machine.drainPieces responseOver feedOutcome r pieces

theorem feedPieces_eq_run (h : Counted r) :
    feedPieces r pieces = byteMachine.run r pieces.flatten :=
  Machine.drainPieces_eq_run responseFeed_feeds h

/-- However a reply is cut into pieces, the parser reads the same response and body and consumes
as much. -/
theorem feedPieces_segmentation (headRequest : Bool) (pieces : List Bytes) :
    feedPieces (responseInit headRequest) pieces =
      feedPieces (responseInit headRequest) [pieces.flatten] := by
  rw [feedPieces_eq_run (responseInit_counted _), feedPieces_eq_run (responseInit_counted _)]
  simp

end Inkwell.Http
