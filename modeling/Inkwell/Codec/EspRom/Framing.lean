import Inkwell.Codec.EspRom

namespace Inkwell.EspRom
open Library List

def escapeByte (byte : UInt8) : Bytes :=
  if byte = slipEnd then [slipEsc, slipEscEnd]
  else if byte = slipEsc then [slipEsc, slipEscEsc]
  else [byte]

def escape (packet : Bytes) : Bytes := packet.flatMap escapeByte

def framed (packet : Bytes) : Bytes := slipEnd :: (escape packet ++ [slipEnd])

theorem escapeByte_free : slipEnd ∉ escapeByte byte := by
  unfold escapeByte
  split
  · decide
  split
  · decide
  · rename_i hend _
    intro hmem
    exact hend (mem_singleton.mp hmem).symm

theorem escape_free : slipEnd ∉ escape packet := by
  intro hmem
  obtain ⟨_, _, hbyte⟩ := mem_flatMap.mp hmem
  exact escapeByte_free hbyte

theorem slipPut_eq : slipPut outLen out byte =
      if (out ++ escapeByte byte).length ≤ outLen then some (out ++ escapeByte byte) else none := by
  unfold slipPut escapeByte
  by_cases hend : byte = slipEnd
  · rw [if_pos (.inl hend), if_pos hend, if_pos hend, length_append]
    split <;> split <;> first | rfl | (simp only [length_cons, length_nil] at *; omega)
  by_cases hesc : byte = slipEsc
  · rw [if_pos (.inr hesc), if_neg hend, if_neg hend, if_pos hesc, length_append]
    split <;> split <;> first | rfl | (simp only [length_cons, length_nil] at *; omega)
  · rw [if_neg (not_or.mpr ⟨hend, hesc⟩), if_neg hend, if_neg hesc, length_append]
    split <;> split <;> first | rfl | (simp only [length_cons, length_nil] at *; omega)

theorem foldlM_slipPut (out : Bytes) (hout : out.length ≤ outLen) :
    packet.foldlM (slipPut outLen) out =
      if (out ++ escape packet).length ≤ outLen then some (out ++ escape packet) else none := by
  induction packet generalizing out with
  | nil =>
    have hnil : out ++ escape [] = out := append_nil out
    rw [hnil, if_pos hout]
    rfl
  | cons byte packet ih =>
    have hcons : out ++ escape (byte :: packet) = out ++ escapeByte byte ++ escape packet := by
      rw [append_assoc]
      rfl
    rw [foldlM_cons, slipPut_eq, hcons]
    by_cases hroom : (out ++ escapeByte byte).length ≤ outLen
    · rw [if_pos hroom]
      exact ih _ hroom
    · rw [if_neg hroom, if_neg]
      · rfl
      · rw [length_append]
        omega

theorem request_framed (head : Bytes) : request op head body checksum outLen =
      if (framed (requestPacket op head body checksum)).length ≤ outLen then
        .ok (framed (requestPacket op head body checksum))
      else .error .enobufs := by
  have hframed : ∀ packet, framed packet = [slipEnd] ++ escape packet ++ [slipEnd] := fun _ => rfl
  have hlen : ∀ out : Bytes, (out ++ [slipEnd]).length = out.length + 1 := fun _ => length_append
  unfold request
  rw [hframed, hlen]
  by_cases hempty : outLen < 1
  · rw [if_pos hempty, if_neg]
    omega
  rw [if_neg hempty, foldlM_slipPut [slipEnd] (le_of_not_gt hempty)]
  by_cases hroom : ([slipEnd] ++ escape (requestPacket op head body checksum)).length ≤ outLen
  · rw [if_pos hroom]
    simp only
    split <;> split <;> first | rfl | omega
  · rw [if_neg hroom, if_neg]
    omega

structure RomResponse where
  op : UInt8
  value : Nat
  data : Bytes
  word : value < 2 ^ 32
  status : statusLen ≤ data.length
  size : data.length < 2 ^ 16

def RomResponse.packet (r : RomResponse) : Bytes :=
  [0x01, r.op, .ofNat r.data.length, .ofNat (r.data.length / 2 ^ 8)] ++ putU32 r.value ++ r.data

/-- The status is the fourth-last byte of the data, and the error the third-last. -/
def RomResponse.report (r : RomResponse) : Response :=
  { op := r.op
    value := r.value
    data := r.data
    status := r.data.getD (r.data.length - 4) 0
    error := r.data.getD (r.data.length - 3) 0 }

theorem getU32_putU32 (h : value < 2 ^ 32) :
    getU32 (.ofNat value) (.ofNat (value / 2 ^ 8)) (.ofNat (value / 2 ^ 16))
      (.ofNat (value / 2 ^ 24)) = value := by
  unfold getU32
  simp only [UInt8.toNat_ofNat']
  omega

theorem drop_status (data : Bytes) (h : statusLen ≤ data.length) :
    ∃ rest, data.drop (data.length - statusLen) =
      data.getD (data.length - 4) 0 :: data.getD (data.length - 3) 0 :: rest := by
  unfold statusLen at *
  have hfour : data.length - 4 < data.length := by omega
  have hthree : data.length - 4 + 1 < data.length := by omega
  have hnext : data.length - 3 = data.length - 4 + 1 := by omega
  refine ⟨data.drop (data.length - 4 + 1 + 1), ?_⟩
  rw [drop_eq_getElem_cons hfour, drop_eq_getElem_cons hthree, hnext]
  simp [getD_eq_getElem?_getD, hfour, hthree]

theorem parse_packet (r : RomResponse) : parse r.packet = some r.report := by
  have hsize : (UInt8.ofNat r.data.length).toNat +
      (UInt8.ofNat (r.data.length / 2 ^ 8)).toNat * 2 ^ 8 = r.data.length := by
    have hlt := r.size
    simp only [UInt8.toNat_ofNat']
    omega
  obtain ⟨_, hdrop⟩ := drop_status r.data r.status
  have hok : ¬ (r.data.length < statusLen ∨ (0x01 : UInt8) ≠ 0x01) := by
    rintro (hshort | hfirst)
    · exact absurd r.status (not_le_of_gt hshort)
    · exact hfirst rfl
  simp only [RomResponse.packet, putU32, cons_append, nil_append, parse]
  rw [if_neg hok, if_neg (not_not_intro hsize), hdrop]
  simp only [getU32_putU32 r.word]
  rfl

def readerMachine : Machine Reader UInt8 Response where
  step reader byte := ((readerByte reader byte).1, (readerByte reader byte).2.toList)
  halted _ := false

def feedOutcome (reader : Reader) (data : Bytes) : Outcome Reader Response :=
  ⟨(readerFeed reader data).reader, (readerFeed reader data).ready.toList,
    (readerFeed reader data).used⟩

theorem feedOutcome_run (reader : Reader) : feedOutcome reader data =
      readerMachine.run reader (data.take (feedOutcome reader data).used) := by
  induction data generalizing reader with
  | nil => rfl
  | cons byte data ih =>
    cases hbyte : readerByte reader byte with
    | mk reader' ready =>
      cases ready with
      | some response =>
        have hfed : feedOutcome reader (byte :: data) = ⟨reader', [response], 1⟩ := by
          simp [feedOutcome, readerFeed, hbyte]
        rw [hfed]
        simp [readerMachine, Machine.run, hbyte, Outcome.andThen, Outcome.stay]
      | none =>
        have hfed : feedOutcome reader (byte :: data) =
            ⟨(feedOutcome reader' data).state, (feedOutcome reader' data).output,
              (feedOutcome reader' data).used + 1⟩ := by
          simp [feedOutcome, readerFeed, hbyte]
        rw [hfed, take_succ_cons, Machine.run_cons _ rfl]
        have hstep : readerMachine.step reader byte = (reader', []) := by
          simp [readerMachine, hbyte]
        rw [hstep]
        simp only [Outcome.andThen]
        rw [← ih reader', nil_append, add_comm]

theorem readerFeed_feeds : readerMachine.Feeds (fun _ => True) feedOutcome where
  run_eq reader data _ := feedOutcome_run reader
  progress reader data _ _ hne := by
    cases data with
    | nil => exact absurd rfl hne
    | cons =>
      simp only [feedOutcome, readerFeed]
      split <;> exact Nat.succ_pos _
  keeps _ _ _ _ := trivial

/-- Each piece fed in a loop until it is consumed, with all responses reported. -/
def feedPieces (reader : Reader) (pieces : List Bytes) : Outcome Reader Response :=
  Machine.drainPieces (fun _ => false) feedOutcome reader pieces

theorem feedPieces_eq_run : feedPieces reader pieces = readerMachine.run reader pieces.flatten :=
  Machine.drainPieces_eq_run readerFeed_feeds trivial

def collecting (frame : Bytes) : Reader := { frame, inFrame := true }

def escaping (frame : Bytes) : Reader := { frame, inFrame := true, escape := true }

theorem run_byte (h : readerByte reader byte = (reader', ready)) :
    readerMachine.run reader (byte :: data) =
      (⟨reader', ready.toList, 1⟩ : Outcome Reader Response).andThen
      (readerMachine.run · data) := by
  rw [Machine.run_cons _ rfl]
  simp only [readerMachine, h]

theorem run_text (htext : slipEnd ∉ text) (hidle : reader.inFrame = false) :
    readerMachine.run reader text = ⟨reader, [], text.length⟩ := by
  induction text with
  | nil => rfl
  | cons byte _ ih =>
    have hne : byte ≠ slipEnd := fun h => htext (h ▸ mem_cons_self)
    have hbyte : readerByte reader byte = (reader, none) := by
      unfold readerByte
      rw [if_neg hne, hidle]
      rfl
    rw [run_byte hbyte, Outcome.andThen, ih fun h => htext (mem_cons_of_mem _ h)]
    simp [add_comm]

theorem readerByte_collecting (hne : byte ≠ slipEnd) :
    readerByte (collecting frame) byte = (collect (collecting frame) byte, none) := by
  unfold readerByte
  rw [if_neg hne]
  rfl

theorem collect_collecting : collect (collecting frame) byte =
      if byte = slipEsc then escaping frame else collect.keep (collecting frame) byte :=
  if_neg Bool.false_ne_true

theorem run_escapeByte (hroom : frame.length < frameMax) :
    readerMachine.run (collecting frame) (escapeByte byte) =
      ⟨collecting (frame ++ [byte]), [], (escapeByte byte).length⟩ := by
  have hkeep : ∀ value, collect.keep (collecting frame) value = collecting (frame ++ [value]) := by
    intro _
    exact if_neg (not_le_of_gt hroom)
  have hescape : readerByte (collecting frame) slipEsc = (escaping frame, none) := rfl
  unfold escapeByte
  split
  · rename_i hend
    have hbyte : readerByte (escaping frame) slipEscEnd = (collecting (frame ++ [slipEnd]), none) :=
      congrArg (·, none) (hkeep slipEnd)
    rw [hend, run_byte hescape, Outcome.andThen, run_byte hbyte]
    rfl
  split
  · rename_i hesc
    have hbyte : readerByte (escaping frame) slipEscEsc = (collecting (frame ++ [slipEsc]), none) :=
      congrArg (·, none) (hkeep slipEsc)
    rw [hesc, run_byte hescape, Outcome.andThen, run_byte hbyte]
    rfl
  · rename_i hend hesc
    have hbyte : readerByte (collecting frame) byte = (collecting (frame ++ [byte]), none) := by
      rw [readerByte_collecting hend, collect_collecting, if_neg hesc, hkeep]
    rw [run_byte hbyte]
    rfl

theorem run_escape (hroom : frame.length + packet.length ≤ frameMax) :
    readerMachine.run (collecting frame) (escape packet) =
      ⟨collecting (frame ++ packet), [], (escape packet).length⟩ := by
  induction packet generalizing frame with
  | nil =>
    rw [append_nil]
    rfl
  | cons byte packet ih =>
    have hcons : escape (byte :: packet) = escapeByte byte ++ escape packet := rfl
    rw [length_cons] at hroom
    have hrest : (frame ++ [byte]).length + packet.length ≤ frameMax := by
      rw [length_append, length_singleton]
      omega
    rw [hcons, Machine.run_append, run_escapeByte (by omega), Outcome.andThen, ih hrest,
      append_assoc, length_append]
    rfl

theorem readerByte_end : readerByte reader slipEnd = (collecting [], none) ∨
      ∃ response, readerByte reader slipEnd = ({}, some response) := by
  unfold readerByte
  rw [if_pos rfl]
  cases hended : ended reader with
  | none => exact .inl rfl
  | some response =>
    refine .inr ⟨response, ?_⟩
    have hover : reader.overflow = false := by
      unfold ended at hended
      split at hended
      · rename_i h
        simpa using h.2.2
      · cases hended
    simp only [hover]

theorem RomResponse.packet_length (r : RomResponse) :
    r.packet.length = headerLen + r.data.length := by
  simp [packet, putU32, headerLen]
  omega

theorem readerByte_packet (r : RomResponse) :
    readerByte (collecting r.packet) slipEnd = ({}, some r.report) := by
  have hended : ended (collecting r.packet) = some r.report := by
    unfold ended
    rw [if_pos]
    · exact parse_packet r
    · refine ⟨rfl, ?_, rfl⟩
      show r.packet.length > 0
      rw [r.packet_length]
      exact Nat.add_pos_left (by decide) _
  unfold readerByte
  rw [if_pos rfl, hended]
  rfl

theorem run_begun (r : RomResponse) (hfits : r.packet.length ≤ frameMax) :
    readerMachine.run (collecting []) (escape r.packet ++ [slipEnd]) =
      ⟨{}, [r.report], (escape r.packet).length + 1⟩ := by
  rw [Machine.run_append, run_escape (by simpa using hfits), Outcome.andThen]
  simp only [nil_append]
  rw [run_byte (readerByte_packet r)]
  rfl

structure Sent where
  text : Bytes
  response : RomResponse
  free : slipEnd ∉ text
  fits : response.packet.length ≤ frameMax

def Sent.bytes (sent : Sent) : Bytes := sent.text ++ framed sent.response.packet

theorem run_sent (sent : Sent) :
    readerMachine.run {} sent.bytes = ⟨{}, [sent.response.report], sent.bytes.length⟩ := by
  have hopen : readerByte {} slipEnd = (collecting [], none) := rfl
  unfold Sent.bytes framed
  rw [Machine.run_append, run_text sent.free rfl, Outcome.andThen, run_byte hopen,
    Outcome.andThen, run_begun _ sent.fits]
  simp
  omega

theorem run_sents (sents : List Sent) :
    readerMachine.run {} (sents.flatMap Sent.bytes) =
      ⟨{}, sents.map (·.response.report), (sents.flatMap Sent.bytes).length⟩ := by
  induction sents with
  | nil => rfl
  | cons _ _ ih =>
    rw [flatMap_cons, Machine.run_append, run_sent, Outcome.andThen, ih, length_append]
    rfl

/-- A stream of answers among text is reported as those answers, in order, however it is cut. -/
theorem stream_reported (sents : List Sent) (tail : Bytes) (htail : slipEnd ∉ tail)
    (pieces : List Bytes) (hpieces : pieces.flatten = sents.flatMap Sent.bytes ++ tail) :
    (feedPieces {} pieces).output = sents.map (·.response.report) := by
  rw [feedPieces_eq_run, hpieces, Machine.run_append, run_sents, Outcome.andThen,
    run_text htail rfl, append_nil]

def syncResponse : RomResponse where
  op := 0x08
  value := 0x20120707
  data := [0, 0, 0, 0]
  word := by decide
  status := by decide
  size := by decide

theorem stream_reported_sync :
    (feedPieces {} [[0x65, 0x73, 0xC0, 0x01, 0x08, 0x04, 0x00, 0x07, 0x07, 0x12, 0x20, 0x00],
      [0x00, 0x00, 0x00, 0xC0, 0x0A]]).output = [syncResponse.report] :=
  stream_reported
    [{ text := [0x65, 0x73], response := syncResponse, free := by decide, fits := by decide }]
    [0x0A] (by decide) _ (by decide)

/-- A run that cannot be the packet of an answer, as it does not begin with 0x01. -/
def Astray (reader : Reader) : Prop :=
  reader.overflow ∨ (reader.frame.head? ≠ some 0x01 ∧ (reader.frame = [] → reader.escape))

theorem Astray.ended (h : Astray reader) : ended reader = none := by
  unfold EspRom.ended
  split
  · rename_i hwhole
    obtain ⟨_, _, hover⟩ := hwhole
    rcases h with hflow | ⟨hhead, _⟩
    · rw [hflow] at hover
      cases hover
    · unfold parse
      split
      · rename_i hframe
        rw [hframe] at hhead
        rw [if_pos]
        right
        intro hfirst
        exact hhead (congrArg some hfirst)
      · rfl
  · rfl

theorem Astray.keep (hhead : (reader.frame ++ [value]).head? ≠ some 0x01) :
    Astray (collect.keep reader value) := by
  unfold collect.keep
  split
  · exact .inl rfl
  · refine .inr ⟨hhead, ?_⟩
    intro hnil
    cases append_eq_nil_iff.mp hnil |>.2

theorem Astray.collect (h : Astray reader) : Astray (collect reader byte) := by
  rcases h with hover | ⟨hhead, hempty⟩
  · have hkeep : ∀ r value, r.overflow → (collect.keep r value).overflow := by
      intro r _ hr
      unfold collect.keep
      split
      · rfl
      · exact hr
    left
    unfold EspRom.collect
    split
    · split
      · exact hkeep _ _ hover
      split
      · exact hkeep _ _ hover
      · rfl
    split
    · exact hover
    · exact hkeep _ _ hover
  -- What is put behind a run that begins with another byte changes nothing of that.
  · have hbehind : ∀ value, reader.frame ≠ [] → (reader.frame ++ [value]).head? ≠ some 0x01 := by
      intro _ hne
      rw [head?_append_of_ne_nil _ hne]
      exact hhead
    have hunescaped : ∀ value, value ≠ 0x01 → (reader.frame ++ [value]).head? ≠ some 0x01 := by
      intro _ hvalue
      cases hframe : reader.frame with
      | nil => exact fun h => hvalue (Option.some.inj h)
      | cons =>
        rw [hframe] at hhead
        exact hhead
    unfold EspRom.collect
    split
    · split
      · exact .keep (hunescaped slipEnd (by decide))
      split
      · exact .keep (hunescaped slipEsc (by decide))
      · exact .inl rfl
    rename_i hescape
    have hne : reader.frame ≠ [] := fun hnil => hescape (hempty hnil)
    split
    · exact .inr ⟨hhead, fun _ => rfl⟩
    · exact .keep (hbehind byte hne)

theorem astray_run (h : Astray reader) (hin : reader.inFrame) (htext : slipEnd ∉ text) :
    Astray (readerMachine.run reader text).state := by
  induction text generalizing reader with
  | nil => exact h
  | cons byte _ ih =>
    have hne : byte ≠ slipEnd := fun h => htext (h ▸ mem_cons_self)
    have hbyte : readerByte reader byte = (collect reader byte, none) := by
      unfold readerByte
      rw [if_neg hne, hin]
      rfl
    have hkeep : ∀ r value, (collect.keep r value).inFrame = r.inFrame := by
      intro r _
      unfold collect.keep
      split <;> rfl
    have hin' : (collect reader byte).inFrame := by
      unfold collect
      split
      · split
        · rw [hkeep]
          exact hin
        split
        · rw [hkeep]
          exact hin
        · exact hin
      split
      · exact hin
      · rw [hkeep]
        exact hin
    rw [run_byte hbyte, Outcome.andThen]
    exact ih h.collect hin' fun hmem => htext (mem_cons_of_mem _ hmem)

theorem ended_gap (hgap : slipEnd ∉ gap) (hfirst : gap.head? ≠ some 0x01) :
    ended (readerMachine.run (collecting []) gap).state = none := by
  cases gap with
  | nil => rfl
  | cons byte gap =>
    have hne : byte ≠ slipEnd := fun h => hgap (h ▸ mem_cons_self)
    have hone : byte ≠ 0x01 := fun h => hfirst (congrArg some h)
    have hrest : slipEnd ∉ gap := fun hmem => hgap (mem_cons_of_mem _ hmem)
    rw [run_byte (readerByte_collecting hne), Outcome.andThen, collect_collecting]
    apply Astray.ended
    by_cases hesc : byte = slipEsc
    · rw [if_pos hesc]
      exact astray_run (.inr ⟨by simp [escaping], fun _ => rfl⟩) rfl hrest
    · rw [if_neg hesc]
      exact astray_run (.keep fun h => hone (Option.some.inj h)) rfl hrest

theorem run_framed (h : ended reader = none) (r : RomResponse)
    (hfits : r.packet.length ≤ frameMax) :
    (readerMachine.run reader (framed r.packet)).output = [r.report] := by
  have hopen : readerByte reader slipEnd = (collecting [], none) := by
    unfold readerByte
    rw [if_pos rfl, h]
    rfl
  unfold framed
  rw [run_byte hopen, Outcome.andThen, run_begun r hfits]
  rfl

/-- Behind a delimiter, and text that does not begin as an answer, a frame is reported whatever
came before. -/
theorem run_resynced (hgap : slipEnd ∉ gap) (hfirst : gap.head? ≠ some 0x01) (r : RomResponse)
    (hfits : r.packet.length ≤ frameMax) :
    ∃ earlier, (readerMachine.run reader (before ++ slipEnd :: (gap ++ framed r.packet))).output =
      earlier ++ [r.report] := by
  rw [Machine.run_append, Outcome.andThen]
  rcases readerByte_end with hopen | ⟨_, hdone⟩
  · rw [run_byte hopen, Outcome.andThen, Machine.run_append, Outcome.andThen,
      run_framed (ended_gap hgap hfirst) r hfits]
    simp only [← append_assoc]
    exact ⟨_, rfl⟩
  · rw [run_byte hdone, Outcome.andThen, Machine.run_append, run_text hgap rfl, Outcome.andThen,
      run_framed rfl r hfits]
    simp only [← append_assoc]
    exact ⟨_, rfl⟩

/-- From any state the second of two answers is reported, with no text between them that begins as
an answer does, however they are cut. -/
theorem second_reported (reader : Reader) (first second : RomResponse)
    (hfits : second.packet.length ≤ frameMax) (gap : Bytes) (hgap : slipEnd ∉ gap)
    (hfirst : gap.head? ≠ some 0x01) (pieces : List Bytes)
    (hpieces : pieces.flatten = framed first.packet ++ gap ++ framed second.packet) :
    ∃ earlier, (feedPieces reader pieces).output = earlier ++ [second.report] := by
  have hsplit : framed first.packet ++ gap ++ framed second.packet =
      (slipEnd :: escape first.packet) ++ slipEnd :: (gap ++ framed second.packet) := by
    simp [framed]
  rw [feedPieces_eq_run, hpieces, hsplit]
  exact run_resynced hgap hfirst second hfits

/-- The reader was in the middle of a frame and of an escape. -/
theorem second_reported_sync :
    ∃ earlier, (feedPieces (escaping [0x01, 0x08])
      [framed syncResponse.packet, framed syncResponse.packet]).output =
        earlier ++ [syncResponse.report] :=
  second_reported (escaping [0x01, 0x08]) syncResponse syncResponse (by decide) [] (by decide)
    (by decide) _ (by decide)

def longResponse : RomResponse where
  op := 0x08
  value := 0
  data := List.replicate 121 0
  word := by decide
  status := by decide
  size := by decide

/-- An answer that does not fit the frame buffer is never reported, second or not. -/
theorem long_response_lost :
    (feedPieces {} [framed syncResponse.packet ++ framed longResponse.packet]).output =
      [syncResponse.report] := by
  decide +kernel

end Inkwell.EspRom
