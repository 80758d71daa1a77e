import Inkwell.Codec.Mqtt.Framing
import Inkwell.Net.Mqtt.Inbound

namespace Inkwell.Mqtt
open List

/-- The messages of a stream, how many packets were passed over, and what closed the connection. -/
structure Parsed where
  deliveries : List (Bytes × Bytes) := []
  skipped : Nat := 0
  closed : Option (Refusal × UInt8) := none
  deriving DecidableEq

def Parsed.andThen (p q : Parsed) : Parsed :=
  match p.closed with
  | some _ => p
  | none => ⟨p.deliveries ++ q.deliveries, p.skipped + q.skipped, q.closed⟩

def Parsed.refused (refusal : Refusal) (code : UInt8) : Parsed := { closed := some (refusal, code) }

/-- What one packet is, and whether the CONNACK is still to come after it. -/
def react (greeting : Bool) (header : Header) (body : Bytes) : Bool × Parsed :=
  match header.type with
  | .connack =>
    match greeting, decodeConnack body with
    | true, some code => if code = 0 then (false, {}) else (true, .refused (refusalOf code) code)
    | _, _ => (greeting, .refused .protocol 0)
  | .suback => (greeting, if (decodeSuback body).isSome then {} else .refused .protocol 0)
  | .publish =>
    match decodePublish header.flags body with
    | none => (greeting, .refused .protocol 0)
    | some message =>
      (greeting, if message.topic.length ≥ topicMax then { skipped := 1 }
        else { deliveries := [(message.topic, message.payload)] })
  | .pingresp | .puback | .pubrec | .pubrel | .pubcomp | .unsuback => (greeting, {})
  | .connect | .subscribe | .unsubscribe | .pingreq | .disconnect =>
    (greeting, .refused .protocol 0)

/-- The packets of a stream. One longer than the inbound buffer is passed over; one not all there
ends the parse. -/
@[grind =] def parsePackets : (fuel : Nat) → (greeting : Bool) → Bytes → Parsed
  | 0, _, _ => {}
  | fuel + 1, greeting, stream =>
    match decodeHeader stream with
    | .more => {}
    | .malformed => .refused .protocol 0
    | .ok header =>
      let total := header.headerLen + header.remaining
      if total > packetMax then
        Parsed.andThen { skipped := 1 } (parsePackets fuel greeting (stream.drop total))
      else if stream.length < total then {}
      else
        let (greeting, packet) :=
          react greeting header ((stream.drop header.headerLen).take header.remaining)
        packet.andThen (parsePackets fuel greeting (stream.drop total))

/-- The parse of a whole stream. A packet has two bytes at least. -/
def parse (greeting : Bool) (stream : Bytes) : Parsed :=
  parsePackets (stream.length + 1) greeting stream

@[simp] theorem Parsed.nil_andThen : Parsed.andThen {} p = p := by simp [Parsed.andThen]

@[simp] theorem Parsed.andThen_nil (p : Parsed) : p.andThen {} = p := by
  unfold Parsed.andThen
  split
  · rfl
  · cases p
    simp_all

theorem Parsed.andThen_of_open {p : Parsed} (h : p.closed = none) :
    p.andThen q = ⟨p.deliveries ++ q.deliveries, p.skipped + q.skipped, q.closed⟩ := by
  rw [Parsed.andThen, h]

theorem Parsed.andThen_of_closed {p : Parsed} (h : p.closed ≠ none) : p.andThen q = p := by
  unfold Parsed.andThen
  split
  · rfl
  · rename_i hnone
    exact absurd hnone h

theorem Parsed.andThen_assoc (p : Parsed) : (p.andThen q).andThen r = p.andThen (q.andThen r) := by
  by_cases hp : p.closed = none
  · by_cases hq : q.closed = none
    · simp [Parsed.andThen, hp, hq, add_assoc]
    · obtain ⟨_, hx⟩ := Option.ne_none_iff_exists'.mp hq
      simp [Parsed.andThen, hp, hx]
  · rw [andThen_of_closed hp, andThen_of_closed hp, andThen_of_closed hp]

theorem parsePackets_enough (h : stream.length < fuel) (h' : stream.length < fuel') :
    parsePackets fuel greeting stream = parsePackets fuel' greeting stream := by
  induction fuel generalizing fuel' greeting stream with
  | zero => exact absurd h (Nat.not_lt_zero _)
  | succ _ ih =>
    cases fuel' with
    | zero => exact absurd h' (Nat.not_lt_zero _)
    | succ =>
      rw [parsePackets, parsePackets]
      cases hheader : decodeHeader stream with
      | more | malformed => rfl
      | ok header =>
        obtain ⟨_, _, _⟩ := decodeHeader_bounds hheader
        have hshort : ∀ {n}, stream.length < n + 1 →
            (stream.drop (header.headerLen + header.remaining)).length < n := by
          rw [length_drop]
          omega
        simp only [ih (hshort h) (hshort h')]

theorem parse_drop (hn : 0 < n) (hne : stream ≠ []) :
    parsePackets stream.length greeting (stream.drop n) = parse greeting (stream.drop n) := by
  have hpos := length_pos_iff.mpr hne
  have hlen : (stream.drop n).length < stream.length := by
    rw [length_drop]
    omega
  exact parsePackets_enough hlen (lt_add_one _)

theorem parse_more (h : decodeHeader stream = .more) : parse greeting stream = {} := by
  rw [parse, parsePackets, h]

theorem parse_malformed (h : decodeHeader stream = .malformed) :
    parse greeting (stream ++ rest) = .refused .protocol 0 := by
  have happend : decodeHeader (stream ++ rest) = .malformed := by
    rw [decodeHeader_append _ (by rw [h]; exact nofun), h]
  rw [parse, parsePackets, happend]

theorem parse_oversized (h : decodeHeader stream = .ok header)
    (hbig : header.headerLen + header.remaining > packetMax) :
    parse greeting (stream ++ rest) = Parsed.andThen { skipped := 1 }
      (parse greeting ((stream ++ rest).drop (header.headerLen + header.remaining))) := by
  have happend : decodeHeader (stream ++ rest) = .ok header := by
    rw [decodeHeader_append _ (by rw [h]; exact nofun), h]
  obtain ⟨_, _, _⟩ := decodeHeader_bounds happend
  have hne : stream ++ rest ≠ [] := length_pos_iff.mp (by omega)
  rw [parse, parsePackets, happend]
  simp only [if_pos hbig]
  rw [parse_drop (by omega) hne]

theorem parse_short (h : decodeHeader stream = .ok header)
    (hfit : header.headerLen + header.remaining ≤ packetMax)
    (hshort : stream.length < header.headerLen + header.remaining) :
    parse greeting stream = {} := by
  rw [parse, parsePackets, h]
  simp only [if_neg (not_lt_of_ge hfit), if_pos hshort]

theorem parse_packet (h : decodeHeader stream = .ok header)
    (hfit : header.headerLen + header.remaining ≤ packetMax)
    (hall : header.headerLen + header.remaining ≤ stream.length) : parse greeting (stream ++ rest) =
      (react greeting header ((stream.drop header.headerLen).take header.remaining)).2.andThen
        (parse (react greeting header ((stream.drop header.headerLen).take header.remaining)).1
          ((stream ++ rest).drop (header.headerLen + header.remaining))) := by
  have happend : decodeHeader (stream ++ rest) = .ok header := by
    rw [decodeHeader_append _ (by rw [h]; exact nofun), h]
  obtain ⟨_, _, hle⟩ := decodeHeader_bounds h
  have hne : stream ++ rest ≠ [] := length_pos_iff.mp (by rw [length_append]; omega)
  have hbody : ((stream ++ rest).drop header.headerLen).take header.remaining =
      (stream.drop header.headerLen).take header.remaining := by
    rw [drop_append_of_le_length hle, take_append_of_le_length]
    rw [length_drop]
    omega
  have hlen : ¬ (stream ++ rest).length < header.headerLen + header.remaining := by
    rw [length_append]
    omega
  rw [parse, parsePackets, happend]
  simp only [if_neg (not_lt_of_ge hfit), if_neg hlen, hbody]
  rw [parse_drop (by omega) hne]

end Inkwell.Mqtt
