import Inkwell.Codec.Http.Segmentation

namespace Inkwell.Http
open List hiding head
open Library

/-- What every byte keeps: room left in the buffers, and the account of a body of known length. -/
structure Accounted (r : Response) : Prop where
  counted : Counted r
  unread : r.phase = .head → r.bodyReceived = 0
  framed : r.phase = .length → r.framing = .length
  length : r.framing = .length → (r.phase = .length ∨ r.phase = .done) ∧
    r.bodyReceived + r.remaining = r.contentLength
  head : r.head.length < headMax
  chunkLine : r.chunkLine.length < chunkLineMax

theorem headMax_pos : 0 < headMax := by decide

theorem chunkLineMax_pos : 0 < chunkLineMax := by decide

theorem Accounted.unlengthed (h : Accounted r) (hp : r.phase ≠ .length ∧ r.phase ≠ .done) :
    r.framing ≠ .length :=
  fun hf => (h.length hf).1.elim hp.1 hp.2

theorem Accounted.beside (hc : Counted r) (hp : r.phase ≠ .head ∧ r.phase ≠ .length)
    (hf : r.framing ≠ .length) (hroom : r.head.length < headMax)
    (hline : r.chunkLine.length < chunkLineMax) : Accounted r :=
  ⟨hc, fun h => absurd h hp.1, fun h => absurd h hp.2, fun h => absurd h hf, hroom, hline⟩

theorem Accounted.fail (h : Accounted r) (hf : r.framing ≠ .length) (e : HttpError) :
    Accounted (r.fail e) :=
  .beside (counted_fail r) ⟨nofun, nofun⟩ hf h.head h.chunkLine

theorem setFraming_accounted (h : Accounted r) (hp : r.phase = .head) (status : Nat)
    (fields : Fields) : Accounted (setFraming r status fields) := by
  have hcounted := setFraming_counted r status fields
  rw [setFraming_eq] at hcounted ⊢
  cases hf : framingOf r.headRequest status fields with
  | length =>
    rw [hf] at hcounted
    refine ⟨hcounted, ?_, fun _ => rfl, fun _ => ⟨?_, ?_⟩, h.head, h.chunkLine⟩
    · intro hhead
      simp only [framed] at hhead
      split at hhead <;> cases hhead
    · simp only [framed]
      split
      · exact .inr rfl
      · exact .inl rfl
    · simp only [framed]
      rw [h.unread hp, zero_add]
  | none | untilClose =>
    rw [hf] at hcounted
    exact .beside hcounted (by simp [framed]) Framing.noConfusion h.head h.chunkLine
  | chunked =>
    rw [hf] at hcounted
    exact .beside hcounted (by simp [framed]) Framing.noConfusion h.head chunkLineMax_pos

theorem Reads.accounted (h : Reads r c out) (ha : Accounted r) : Accounted out.1 := by
  have hcounted := h.counted ha.counted
  have hpushed (hroom : r.head.length + 1 < headMax) : (r.head ++ [c]).length < headMax := by
    simpa using hroom
  cases h with
  | ended => exact ha
  | headFull hp => exact ha.fail (ha.unlengthed (by simp [hp])) _
  | headText _ hroom =>
    exact ⟨hcounted, ha.unread, ha.framed, ha.length, hpushed hroom, ha.chunkLine⟩
  | headDropped => exact ⟨hcounted, ha.unread, ha.framed, ha.length, headMax_pos, ha.chunkLine⟩
  | headRefused hp hroom =>
    exact .beside hcounted ⟨nofun, nofun⟩
      (ha.unlengthed (by simp [hp])) (hpushed hroom) ha.chunkLine
  | headRead hp hroom =>
    have hread : Accounted { r with head := r.head ++ [c], lineLen := 0 } :=
      ⟨ha.counted, ha.unread, ha.framed, ha.length, hpushed hroom, ha.chunkLine⟩
    exact setFraming_accounted hread hp _ _
  | bodyLast hp =>
    rcases hp with hp | hp
    · obtain ⟨_, _⟩ := ha.length (ha.framed hp)
      refine ⟨hcounted, ?_, ?_, ?_, ha.head, ha.chunkLine⟩ <;> simp only [hp, if_true]
      · nofun
      · nofun
      · intro _
        exact ⟨.inr trivial, by omega⟩
    · exact .beside hcounted (by simp [hp]) (ha.unlengthed (by simp [hp])) ha.head ha.chunkLine
  | body hp =>
    refine ⟨hcounted, ?_, ha.framed, fun hf => ?_, ha.head, ha.chunkLine⟩
    · intro hhead
      rcases hp with hp | hp <;> cases hp.symm.trans hhead
    · obtain ⟨hphase, _⟩ := ha.length hf
      have hsum' : r.bodyReceived + 1 + (r.remaining - 1) = r.contentLength := by omega
      exact ⟨hphase, hsum'⟩
  | untilClose hp | trailer hp =>
    exact .beside hcounted (by simp [hp]) (ha.unlengthed (by simp [hp])) ha.head ha.chunkLine
  | chunkRefused hp hline =>
    refine .beside hcounted ⟨nofun, nofun⟩ (ha.unlengthed ?_) ha.head ?_
    · rcases hp with hp | hp | hp <;> simp [hp]
    · rcases hline with rfl | rfl
      · exact ha.chunkLine
      · exact chunkLineMax_pos
  | sizeText hp hroom =>
    exact .beside hcounted (by simp [hp])
      (ha.unlengthed (by simp [hp])) ha.head (by simpa using hroom)
  | lastChunk hp | chunk hp =>
    exact .beside hcounted ⟨nofun, nofun⟩ (ha.unlengthed (by simp [hp])) ha.head chunkLineMax_pos
  | chunkEnd hp =>
    refine .beside hcounted ⟨nofun, nofun⟩ (ha.unlengthed ?_) ha.head ha.chunkLine
    rcases hp with hp | hp <;> simp [hp]
  | chunkEndCr hp | trailerFull hp | trailerEnd hp =>
    exact .beside hcounted ⟨nofun, nofun⟩ (ha.unlengthed (by simp [hp])) ha.head ha.chunkLine

theorem byteStep_accounted (h : Accounted r) : Accounted (byteStep r c).1 :=
  (byteStep_reads h.counted c).accounted h

theorem responseInit_accounted : Accounted (responseInit headRequest) :=
  ⟨responseInit_counted headRequest, fun _ => rfl, nofun, nofun, headMax_pos, chunkLineMax_pos⟩

theorem responseFeed_accounted (h : Accounted r) : Accounted (responseFeed r bytes).response :=
  responseFeed_induction (fun _ _ hr _ => byteStep_accounted hr) h.counted h

def Fed.Inside (f : Fed) (len : Nat) : Prop := f.bodyAt + f.bodyLen ≤ f.used ∧ f.used ≤ len

theorem Fed.Inside.next (h : Fed.Inside f len) : f.next.Inside (len + 1) := by
  obtain ⟨_, _⟩ := h
  simp only [Fed.Inside, Fed.next]
  omega

theorem takeBody_inside (r : Response) (avail : Nat) : (takeBody r avail).Inside avail := by
  simp only [Fed.Inside, takeBody]
  omega

theorem responseFeed_inside (r : Response) (bytes : Bytes) :
    (responseFeed r bytes).Inside bytes.length := by
  induction bytes generalizing r with
  | nil => exact ⟨Nat.le_refl _, Nat.le_refl _⟩
  | cons c rest ih =>
    have hstop : ∀ r', (Fed.mk r' 1 1 0).Inside (rest.length + 1) :=
      fun r' => ⟨Nat.le_refl _, Nat.succ_le_succ (Nat.zero_le _)⟩
    unfold responseFeed
    cases hp : r.phase with
    | length | chunkData => exact takeBody_inside r _
    | untilClose => exact ⟨Nat.le_of_eq (Nat.zero_add _), Nat.le_refl _⟩
    | done | failed => exact ⟨Nat.le_refl _, Nat.zero_le _⟩
    | head | trailer =>
      simp only
      split
      · exact hstop _
      · exact (ih _).next
    | chunkSize | chunkEnd | chunkEndLf =>
      simp only
      split
      · exact (ih _).next
      · exact hstop _

theorem responseFeed_over (h : responseOver r) (bytes : Bytes) :
    responseFeed r bytes = ⟨r, 0, 0, 0⟩ := by
  cases bytes with
  | nil => rfl
  | cons =>
    rw [responseOver, responseDone, responseFailed, Bool.or_eq_true, beq_iff_eq, beq_iff_eq] at h
    unfold responseFeed
    rcases h with h | h <;> rw [h]

/-- What `http_head_byte` leaves in the buffer: the byte and a terminator, which is at the front
if the head was dropped. -/
def headCells (r : Response) (cells : Bytes) (c : UInt8) : Bytes :=
  if r.head.length + 1 ≥ headMax then cells
  else
    let cells := (cells.set r.head.length c).set (r.head.length + 1) 0
    if (headByte r c).1.head = [] then cells.set 0 0 else cells

def feedCells : Response → Bytes → Bytes → Bytes
  | _, cells, [] => cells
  | r, cells, c :: rest =>
    if r.phase ≠ .head then cells
    else if (headByte r c).2 then headCells r cells c
    else feedCells (headByte r c).1 (headCells r cells c) rest

structure Terminated (head cells : Bytes) : Prop where
  size : cells.length = headMax
  holds : head <+: cells
  nul : cells[head.length]? = some 0

theorem Terminated.dropped (h : Terminated head cells) : Terminated [] (cells.set 0 0) := by
  refine ⟨?_, nil_prefix, ?_⟩
  · rw [length_set, h.size]
  · rw [length_nil, getElem?_set_self]
    rw [h.size]
    exact headMax_pos

theorem Terminated.pushed (h : Terminated head cells) (hroom : head.length + 1 < headMax)
    (c : UInt8) : Terminated (head ++ [c]) ((cells.set head.length c).set (head.length + 1) 0) := by
  obtain ⟨rest, rfl⟩ := h.holds
  refine ⟨?_, ?_, ?_⟩
  · rw [length_set, length_set, h.size]
  · cases rest with
    | nil =>
      have hsize := h.size
      rw [append_nil] at hsize
      omega
    | cons x rest =>
      rw [set_append_right _ _ (le_rfl), set_append_right _ _ (Nat.le_succ _),
        Nat.sub_self, Nat.succ_sub (le_rfl), Nat.sub_self]
      exact ⟨rest.set 0 0, append_assoc head [c] _⟩
  · rw [length_append, length_singleton, getElem?_set_self]
    rw [length_set, h.size]
    exact hroom

theorem setFraming_head : (setFraming r status fields).head = r.head := by
  rw [setFraming_eq]
  cases framingOf r.headRequest status fields <;> rfl

theorem headByte_head (hroom : r.head.length + 1 < headMax) :
    (headByte r c).1.head = r.head ++ [c] ∨ (headByte r c).1.head = [] := by
  have hparse : ∀ r : Response, (parseHead r).1.head = r.head ∨ (parseHead r).1.head = [] := by
    intro r
    unfold parseHead
    repeat' split
    all_goals first
      | exact .inr rfl
      | exact .inl rfl
      | exact .inl setFraming_head
  unfold headByte
  rw [if_neg (not_le_of_gt hroom)]
  simp only
  split
  · exact .inl rfl
  split
  · exact .inl rfl
  split
  · exact .inr rfl
  · exact hparse _

theorem headCells_terminated (h : Terminated r.head cells) (c : UInt8) :
    Terminated (headByte r c).1.head (headCells r cells c) := by
  unfold headCells
  split
  · rename_i hfull
    have hsame : (headByte r c).1.head = r.head := by
      unfold headByte
      rw [if_pos hfull]
      rfl
    rw [hsame]
    exact h
  · rename_i hroom
    have hpushed := h.pushed (lt_of_not_ge hroom) c
    split
    · rename_i hdropped
      rw [hdropped]
      exact hpushed.dropped
    · rename_i hkept
      rw [(headByte_head (lt_of_not_ge hroom)).resolve_right hkept]
      exact hpushed

theorem responseFeed_head (hc : Counted r) (hp : r.phase ≠ .head) :
    (responseFeed r bytes).response.head = r.head := by
  have hstate : (responseFeed r bytes).response =
      (byteMachine.run r (bytes.take (responseFeed r bytes).used)).state :=
    congrArg Outcome.state (feedOutcome_run r bytes hc)
  rw [hstate]
  exact (run_behind hc hp _).head

theorem feedCells_terminated (h : Terminated r.head cells) (hc : Counted r) :
    Terminated (responseFeed r bytes).response.head (feedCells r cells bytes) := by
  induction bytes generalizing r cells with
  | nil => exact h
  | cons c _ ih =>
    by_cases hp : r.phase = .head
    · have hbyte := headCells_terminated h c
      have hcounted := (headByte_reads hp c).counted hc
      unfold feedCells responseFeed
      rw [if_neg (not_not.mpr hp), hp]
      simp only
      split
      · exact hbyte
      · exact ih hbyte hcounted
    · rw [responseFeed_head hc hp, feedCells, if_pos hp]
      exact h

theorem feedCells_over (h : responseOver r) : feedCells r cells bytes = cells := by
  cases bytes with
  | nil => rfl
  | cons =>
    apply if_pos
    intro hp
    rw [responseOver, responseDone, responseFailed, hp] at h
    cases h

structure Parser where
  response : Response
  cells : Bytes

def Parser.init (headRequest : Bool) : Parser := ⟨responseInit headRequest, replicate headMax 0⟩

def Parser.feed (p : Parser) (bytes : Bytes) : Parser :=
  ⟨(responseFeed p.response bytes).response, feedCells p.response p.cells bytes⟩

structure Parser.Sound (p : Parser) : Prop where
  accounted : Accounted p.response
  terminated : Terminated p.response.head p.cells

theorem Parser.init_sound : (Parser.init headRequest).Sound := by
  refine ⟨responseInit_accounted, length_replicate, nil_prefix, ?_⟩
  change (replicate headMax 0)[0]? = some 0
  rw [getElem?_replicate, if_pos headMax_pos]

inductive Parser.Reached (headRequest : Bool) : Parser → Prop
  | init : Reached headRequest (.init headRequest)
  | feed (h : Reached headRequest p) (bytes : Bytes) : Reached headRequest (p.feed bytes)

theorem Parser.Reached.sound (h : Parser.Reached headRequest p) : p.Sound := by
  induction h with
  | init => exact init_sound
  | feed _ _ ih =>
    refine ⟨responseFeed_accounted ih.accounted, ?_⟩
    exact feedCells_terminated ih.terminated ih.accounted.counted

/-- After any calls the body is accounted for and the head is in its buffer with a terminator; a
call takes a byte, unless the response is over and it changes nothing, and hands out part of what
it took. -/
theorem reached_accounted (h : Parser.Reached headRequest p) :
    (p.response.phase = .length ∨ p.response.phase = .chunkData → 0 < p.response.remaining) ∧
    (p.response.phase = .length → p.response.framing = .length) ∧
    (p.response.framing = .length → (p.response.phase = .length ∨ p.response.phase = .done) ∧
      p.response.bodyReceived + p.response.remaining = p.response.contentLength) ∧
    (p.response.head.length < 16384 ∧ p.cells.length = 16384 ∧ p.response.head <+: p.cells ∧
      p.cells[p.response.head.length]? = some 0) ∧
    p.response.chunkLine.length < 128 ∧
    ∀ bytes, (bytes ≠ [] → responseOver p.response = false →
        0 < (responseFeed p.response bytes).used) ∧
      (responseOver p.response → p.feed bytes = p ∧
        (responseFeed p.response bytes).used = 0 ∧ (responseFeed p.response bytes).bodyLen = 0) ∧
      (responseFeed p.response bytes).bodyAt + (responseFeed p.response bytes).bodyLen ≤
        (responseFeed p.response bytes).used ∧
      (responseFeed p.response bytes).used ≤ bytes.length := by
  obtain ⟨haccounted, hterminated⟩ := h.sound
  refine ⟨haccounted.counted, haccounted.framed, haccounted.length,
    ⟨haccounted.head, hterminated.size, hterminated.holds, hterminated.nul⟩,
      haccounted.chunkLine, ?_⟩
  intro bytes
  obtain ⟨hinside, hall⟩ := responseFeed_inside p.response bytes
  refine ⟨?_, ?_, hinside, hall⟩
  · intro hne hover
    exact responseFeed_progress haccounted.counted hover hne
  · intro hover
    have hfed := responseFeed_over hover bytes
    refine ⟨?_, by rw [hfed], by rw [hfed]⟩
    rw [Parser.feed, hfed, feedCells_over hover]

/-- In the middle of a body of three bytes. -/
theorem reached_accounted_length :
    ∃ p, Parser.Reached false p ∧ p.response.framing = .length ∧ p.response.phase = .length ∧
      0 < p.response.remaining ∧
      p.response.bodyReceived + p.response.remaining = p.response.contentLength := by
  have hinit : Parser.Reached false (.init false) := .init
  have hhead := hinit.feed (ascii "HTTP/1.1 200 OK\r\nContent-Length: 3\r\n\r\n")
  have hbody := hhead.feed (ascii "ab")
  obtain ⟨hcounted, hframed, hlength, _⟩ := reached_accounted hbody
  have hphase : (((Parser.init false).feed
      (ascii "HTTP/1.1 200 OK\r\nContent-Length: 3\r\n\r\n")).feed (ascii "ab")).response.phase =
        .length := by
    decide
  exact ⟨_, hbody, hframed hphase, hphase, hcounted (.inl hphase), (hlength (hframed hphase)).2⟩

end Inkwell.Http
