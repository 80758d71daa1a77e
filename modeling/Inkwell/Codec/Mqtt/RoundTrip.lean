import Inkwell.Codec.Mqtt.WellFormed

namespace Inkwell.Mqtt
open List

theorem wholePacket_ok_iff (cap : Nat) (type : PacketType) (flags : UInt8) (body : Bytes) :
    (∃ packet, wholePacket cap type flags body = .ok packet) ↔
      body.length ≤ remainingMax ∧ 1 + varintWidth body.length + body.length ≤ cap := by
  unfold wholePacket beginPacket
  by_cases hmax : body.length > remainingMax
  · rw [if_pos hmax]
    constructor
    · rintro ⟨_, hpacket⟩
      cases hpacket
    · rintro ⟨hle, _⟩
      exact absurd hle (not_le.mpr hmax)
  rw [if_neg hmax]
  by_cases hcap : cap < 1 + varintWidth body.length + body.length
  · rw [if_pos hcap]
    constructor
    · rintro ⟨_, hpacket⟩
      cases hpacket
    · rintro ⟨_, hle⟩
      exact absurd hle (not_le.mpr hcap)
  · rw [if_neg hcap]
    constructor
    · intro _
      exact ⟨Nat.le_of_not_gt hmax, Nat.le_of_not_gt hcap⟩
    · intro _
      exact ⟨_, rfl⟩

theorem decodeHeader_wholePacket (h : wholePacket cap type flags body = .ok packet)
    (hf : flags.toNat < 16) (hlegal : flagsAreLegal type flags) :
    ∃ header, decodeHeader (packet ++ rest) = .ok header ∧ header.type = type ∧
      header.flags = flags ∧ header.headerLen + header.remaining = packet.length ∧
      ((packet ++ rest).drop header.headerLen).take header.remaining = body := by
  unfold wholePacket at h
  split at h
  · cases h
  · rename_i front hbegin
    cases h
    refine ⟨⟨type, flags, body.length, front.length⟩, ?_, rfl, rfl, ?_, ?_⟩
    · rw [append_assoc]
      exact decodeHeader_beginPacket hbegin hf hlegal
    · exact length_append.symm
    · rw [append_assoc, drop_left, take_left]

theorem decodePublish_write (hne : topic ≠ []) (hlen : topic.length ≤ stringMax) :
    decodePublish (if retained then 0x01 else 0) (writeString topic ++ payload) =
      some ⟨topic, payload, 0, retained, false, 0⟩ := by
  have hpos : topic.length ≠ 0 := mt length_eq_zero_iff.mp hne
  have hfits : ¬ topic.length > (topic ++ payload).length := by
    rw [length_append]
    exact not_lt.mpr (Nat.le_add_right _ _)
  simp only [writeString, writeU16, cons_append, nil_append, decodePublish,
    readU16_write hlen, hpos, hfits, if_false, take_left, drop_left]
  cases retained <;> rfl

/-- A PUBLISH with room for it is encoded, and read back from the front of any stream: topic,
payload and retain flag, at QoS 0. -/
theorem decode_encodePublish (cap : Nat) (topic payload rest : Bytes) (retained : Bool)
    (hne : topic ≠ []) (hlen : topic.length ≤ 65535)
    (hfit : 2 + topic.length + payload.length ≤ remainingMax)
    (hcap : 1 + varintWidth (2 + topic.length + payload.length) +
      (2 + topic.length + payload.length) ≤ cap) :
    ∃ packet header, encodePublish cap topic payload retained = .ok packet ∧
      decodeHeader (packet ++ rest) = .ok header ∧
      header.type = .publish ∧ header.headerLen + header.remaining = packet.length ∧
      decodePublish header.flags (((packet ++ rest).drop header.headerLen).take header.remaining) =
        some { topic, payload, qos := 0, retained, duplicate := false, packetId := 0 } := by
  have hbody : (writeString topic ++ payload).length = 2 + topic.length + payload.length := by
    simp only [writeString, writeU16, length_append, length_cons, length_nil]
  have hguard : ¬ (decide (topic = []) || decide (topic.length > stringMax)) = true := by
    simp only [Bool.or_eq_true, decide_eq_true_eq, not_or, not_lt]
    exact ⟨hne, hlen⟩
  obtain ⟨packet, hpacket⟩ := (wholePacket_ok_iff cap .publish (if retained then 0x01 else 0)
    (writeString topic ++ payload)).mpr (by rw [hbody]; exact ⟨hfit, hcap⟩)
  obtain ⟨header, hheader, htype, hflags, htotal, hfound⟩ := decodeHeader_wholePacket hpacket
    (by cases retained <;> decide) rfl
  refine ⟨packet, header, ?_, hheader, htype, htotal, ?_⟩
  · rw [encodePublish, if_neg hguard]
    exact hpacket
  · rw [hfound, hflags]
    exact decodePublish_write hne hlen

/-- A one-byte topic, no payload, a buffer that just holds the packet, and a byte behind it. -/
theorem decode_encodePublish_smallest :
    ∃ packet header, encodePublish 5 [97] [] true = .ok packet ∧
      decodeHeader (packet ++ [0xFF]) = .ok header ∧
      header.type = .publish ∧ header.headerLen + header.remaining = packet.length ∧
      decodePublish header.flags
          (((packet ++ [0xFF]).drop header.headerLen).take header.remaining) =
        some { topic := [97], payload := [], qos := 0, retained := true, duplicate := false
               packetId := 0 } :=
  decode_encodePublish 5 [97] [] [0xFF] true (by decide) (by decide) (by decide) (by decide)

/-- The body of a CONNECT: the fixed part, the client id, and the strings that are there. -/
def Connect.bodyLength (p : Connect) : Nat :=
  12 + p.clientId.length + (if p.username = [] then 0 else 2 + p.username.length) +
    (if p.password = [] then 0 else 2 + p.password.length)

def Connect.packetLength (p : Connect) : Nat := 1 + varintWidth p.bodyLength + p.bodyLength

theorem writeOptional_length :
    (writeOptional text).length = if text = [] then 0 else 2 + text.length := by
  unfold writeOptional
  split
  · rfl
  · simp only [writeString, writeU16, length_append, length_cons, length_nil]

def Connect.Illegal (p : Connect) : Prop :=
  p.clientId.length > 65535 ∨ p.username.length > 65535 ∨ p.password.length > 65535 ∨
    (p.clientId = [] ∧ p.cleanSession = false) ∨ (p.password ≠ [] ∧ p.username = [])

theorem Connect.bodyLength_le {p : Connect} (h : ¬ p.Illegal) : p.bodyLength ≤ remainingMax := by
  simp only [Connect.Illegal, not_or, not_lt] at h
  simp only [Connect.bodyLength, remainingMax]
  split <;> split <;> omega

theorem encodeConnect_error_iff :
    (∃ e, encodeConnect cap p = .error e) ↔ p.Illegal ∨ cap < p.packetLength := by
  unfold encodeConnect
  by_cases hlong : p.clientId.length > stringMax ∨ p.username.length > stringMax ∨
      p.password.length > stringMax
  · have hguard : (decide (p.clientId.length > stringMax) ||
        decide (p.username.length > stringMax) || decide (p.password.length > stringMax)) =
          true := by
      simpa only [Bool.or_eq_true, decide_eq_true_eq, or_assoc] using hlong
    rw [if_pos hguard]
    refine ⟨fun _ => .inl ?_, fun _ => ⟨_, rfl⟩⟩
    rcases hlong with h | h | h
    · exact .inl h
    · exact .inr (.inl h)
    · exact .inr (.inr (.inl h))
  have hguard : ¬ (decide (p.clientId.length > stringMax) ||
      decide (p.username.length > stringMax) || decide (p.password.length > stringMax)) = true := by
    simpa only [Bool.or_eq_true, decide_eq_true_eq, or_assoc] using hlong
  rw [if_neg hguard]
  by_cases hanon : p.clientId = [] ∧ (!p.cleanSession)
  · rw [if_pos hanon]
    refine ⟨fun _ => .inl (.inr (.inr (.inr (.inl ⟨hanon.1, ?_⟩)))), fun _ => ⟨_, rfl⟩⟩
    exact (Bool.not_eq_true' _).mp hanon.2
  rw [if_neg hanon]
  by_cases hpass : p.password ≠ [] ∧ p.username = []
  · rw [if_pos hpass]
    exact ⟨fun _ => .inl (.inr (.inr (.inr (.inr hpass)))), fun _ => ⟨_, rfl⟩⟩
  rw [if_neg hpass]
  have hlegal : ¬ p.Illegal := by
    simp only [not_or] at hlong
    rintro (h | h | h | ⟨hempty, hclean⟩ | h)
    · exact hlong.1 h
    · exact hlong.2.1 h
    · exact hlong.2.2 h
    · exact hanon ⟨hempty, (Bool.not_eq_true' _).mpr hclean⟩
    · exact hpass h
  generalize hbody : protocolHeader ++ [p.flags] ++ writeU16 p.keepaliveS ++
      writeString p.clientId ++ writeOptional p.username ++ writeOptional p.password = body
  have hlength : body.length = p.bodyLength := by
    rw [← hbody]
    simp only [length_append, writeOptional_length, writeString, writeU16, protocolHeader,
      length_cons, length_nil, Connect.bodyLength]
    omega
  have hfits := wholePacket_ok_iff cap .connect 0 body
  rw [hlength] at hfits
  cases hresult : wholePacket cap .connect 0 body with
  | ok packet =>
    obtain ⟨_, hroom⟩ := hfits.mp ⟨packet, hresult⟩
    refine ⟨fun h => ?_, fun h => ?_⟩
    · obtain ⟨e, he⟩ := h
      cases he
    · exact absurd h (not_or.mpr ⟨hlegal, not_lt.mpr hroom⟩)
  | error e =>
    refine ⟨fun _ => .inr (lt_of_not_ge ?_), fun _ => ⟨e, rfl⟩⟩
    intro hroom
    obtain ⟨_, hpacket⟩ := hfits.mpr ⟨Connect.bodyLength_le hlegal, hroom⟩
    rw [hresult] at hpacket
    cases hpacket

theorem optional_injective
    (h : (if a = [] then none else some a) = if b = [] then none else some b) : a = b := by
  by_cases ha : a = []
  · by_cases hb : b = []
    · rw [ha, hb]
    · rw [if_pos ha, if_neg hb] at h
      cases h
  · by_cases hb : b = []
    · rw [if_neg ha, if_pos hb] at h
      cases h
    · rw [if_neg ha, if_neg hb] at h
      exact Option.some.inj h

theorem readPacket_encodeConnect_params (hk : p.keepaliveS ≤ 65535)
    (h : encodeConnect cap p = .ok packet) :
    readPacket packet = some (.connect p.clientId
      (if p.username = [] then none else some p.username)
      (if p.password = [] then none else some p.password) p.keepaliveS p.cleanSession) := by
  rw [readPacket_encodeConnect_word h, readU16_write hk]

/-- Whoever reads an encoded CONNECT gets its parameters back; and it is refused exactly when a
string is too long for its prefix, the client id is empty without a clean session, a password
comes without a name, or the packet does not fit. -/
theorem encodeConnect_recovered (cap : Nat) (p : Connect) (hk : p.keepaliveS ≤ 65535) :
    (∀ packet, encodeConnect cap p = .ok packet →
      readPacket packet = some (.connect p.clientId
        (if p.username = [] then none else some p.username)
        (if p.password = [] then none else some p.password) p.keepaliveS p.cleanSession) ∧
      ∀ cap' q, q.keepaliveS ≤ 65535 → encodeConnect cap' q = .ok packet → q = p) ∧
    ((∃ e, encodeConnect cap p = .error e) ↔
      (p.clientId.length > 65535 ∨ p.username.length > 65535 ∨ p.password.length > 65535 ∨
        (p.clientId = [] ∧ p.cleanSession = false) ∨ (p.password ≠ [] ∧ p.username = [])) ∨
      cap < p.packetLength) := by
  refine ⟨?_, encodeConnect_error_iff⟩
  intro _ hpacket
  have hread := readPacket_encodeConnect_params hk hpacket
  refine ⟨hread, ?_⟩
  intro _ q hq hpacket'
  have hread' := readPacket_encodeConnect_params hq hpacket'
  rw [hread] at hread'
  injection hread' with hsame
  injection hsame with hid huser hpass hkeep hclean
  obtain ⟨_, _, _, _, _⟩ := p
  simp only at hid huser hpass hkeep hclean
  rw [hid, optional_injective huser, optional_injective hpass, hkeep, hclean]

/-- A client id and a name, in a buffer that just holds their packet and in one that does not. -/
theorem encodeConnect_recovered_named :
    (∀ packet, encodeConnect 18 ⟨[99], [117], [], 60, true⟩ = .ok packet →
      readPacket packet = some (.connect [99] (some [117]) none 60 true)) ∧
    ∃ e, encodeConnect 17 ⟨[99], [117], [], 60, true⟩ = .error e :=
  ⟨fun packet h =>
    ((encodeConnect_recovered 18 ⟨[99], [117], [], 60, true⟩ (by decide)).1 packet h).1,
    (encodeConnect_recovered 17 ⟨[99], [117], [], 60, true⟩ (by decide)).2.mpr (by decide)⟩

end Inkwell.Mqtt
