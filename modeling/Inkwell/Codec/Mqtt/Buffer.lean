import Inkwell.Codec.Mqtt.RoundTrip
import Inkwell.Library.Memory

namespace Inkwell.Mqtt
open Library List

/-! ### The encoders as they write

Each encoder works out the length of its packet first and then stores it piece by piece into the
caller's buffer. A length is a `size_t`. -/

def sizeT (n : Nat) : Nat := n % 2 ^ 64

/-- `mqtt_write_varint`: the bytes it has written, a `size_t` taking ten at most. -/
def storeVarint : (groups : Nat) → Stored UInt8 → (at_ value : Nat) → Nat × Stored UInt8
  | 0, out, _, _ => (0, out)
  | groups + 1, out, at_, value =>
    if value / 128 > 0 then
      let (written, out) := storeVarint groups
        (out.put at_ [UInt8.ofNat (value % 128) ||| 0x80]) (at_ + 1) (value / 128)
      (written + 1, out)
    else (1, out.put at_ [UInt8.ofNat (value % 128)])

section
variable (out : Stored UInt8)

def storeU16 (at_ value : Nat) : Stored UInt8 :=
  (out.put at_ [UInt8.ofNat (value / 256)]).put (at_ + 1) [UInt8.ofNat (value % 256)]

def storeString (at_ : Nat) (text : Bytes) : Nat × Stored UInt8 :=
  let out := storeU16 out at_ text.length
  let out := if text.length > 0 then out.put (at_ + 2) text else out
  (2 + text.length, out)

def storeOptional (at_ : Nat) (text : Bytes) : Nat × Stored UInt8 :=
  if text.length > 0 then storeString out at_ text else (0, out)

/-- `mqtt_begin_packet`: where the body goes, the length of the whole, and the header stored. -/
def storeHeader (cap : Nat) (type : PacketType) (flags : UInt8) (bodyLen : Nat) :
    Option (Nat × Nat × Stored UInt8) :=
  if bodyLen > remainingMax then none
  else
    let headerLen := 1 + varintWidth bodyLen
    if cap < sizeT (headerLen + bodyLen) then none
    else
      let out := out.put 0 [type.code <<< 4 ||| flags &&& 0x0F]
      let out := (storeVarint 10 out 1 bodyLen).2
      some (headerLen, sizeT (headerLen + bodyLen), out)

def Connect.announced (p : Connect) : Nat :=
  sizeT (protocolHeader.length + 1 + 2 + (2 + p.clientId.length) +
    (if p.username.length > 0 then 2 + p.username.length else 0) +
    (if p.password.length > 0 then 2 + p.password.length else 0))

def storeConnect (cap : Nat) (p : Connect) : Except Errno Nat × Stored UInt8 :=
  if p.clientId.length > stringMax || p.username.length > stringMax
      || p.password.length > stringMax then (.error .einval, out)
  else if p.clientId.length = 0 ∧ !p.cleanSession then (.error .einval, out)
  else if p.password.length > 0 ∧ p.username.length = 0 then (.error .einval, out)
  else
    match storeHeader out cap .connect 0 p.announced with
    | none => (.error .enospc, out)
    | some (body, total, out) =>
      let out := out.put body protocolHeader
      let at_ := protocolHeader.length
      let out := out.put (body + at_) [p.flags]
      let at_ := at_ + 1
      let out := storeU16 out (body + at_) p.keepaliveS
      let at_ := at_ + 2
      let (n, out) := storeString out (body + at_) p.clientId
      let at_ := at_ + n
      let (n, out) := storeOptional out (body + at_) p.username
      let at_ := at_ + n
      let (_, out) := storeOptional out (body + at_) p.password
      (.ok total, out)

def storePublish (cap : Nat) (topic payload : Bytes) (retained : Bool) :
    Except Errno Nat × Stored UInt8 :=
  if topic.length = 0 || topic.length > stringMax then (.error .einval, out)
  else
    match storeHeader out cap .publish (if retained then 0x01 else 0)
        (sizeT (2 + topic.length + payload.length)) with
    | none => (.error .enospc, out)
    | some (body, total, out) =>
      let (at_, out) := storeString out body topic
      let out := if payload.length > 0 then out.put (body + at_) payload else out
      (.ok total, out)

def storeSubscribe (cap packetId : Nat) (filter : Bytes) : Except Errno Nat × Stored UInt8 :=
  if packetId = 0 then (.error .einval, out)
  else if filter.length = 0 || filter.length > stringMax then (.error .einval, out)
  else
    match storeHeader out cap .subscribe flagsQos1 (sizeT (2 + 2 + filter.length + 1)) with
    | none => (.error .enospc, out)
    | some (body, total, out) =>
      let out := storeU16 out body packetId
      let (n, out) := storeString out (body + 2) filter
      (.ok total, out.put (body + (2 + n)) [0])

def storeEmpty (cap : Nat) (type : PacketType) : Except Errno Nat × Stored UInt8 :=
  if type ≠ .pingreq ∧ type ≠ .disconnect then (.error .einval, out)
  else
    match storeHeader out cap type 0 0 with
    | none => (.error .enospc, out)
    | some (_, total, out) => (.ok total, out)

end

inductive Request
  | connect (p : Connect)
  | publish (topic payload : Bytes) (retained : Bool)
  | subscribe (packetId : Nat) (filter : Bytes)
  | empty (type : PacketType)

def Request.store (cap : Nat) : Request → Except Errno Nat × Stored UInt8
  | .connect p => storeConnect .nothing cap p
  | .publish topic payload retained => storePublish .nothing cap topic payload retained
  | .subscribe packetId filter => storeSubscribe .nothing cap packetId filter
  | .empty type => storeEmpty .nothing cap type

def Request.encode (cap : Nat) : Request → Except Errno Bytes
  | .connect p => encodeConnect cap p
  | .publish topic payload retained => encodePublish cap topic payload retained
  | .subscribe packetId filter => encodeSubscribe cap packetId filter
  | .empty type => encodeEmpty cap type

def Request.payload : Request → Bytes
  | .publish _ payload _ => payload
  | _ => []

def storedPacket : Except Errno Bytes → Except Errno Nat × Stored UInt8
  | .ok packet => (.ok packet.length, .holding packet)
  | .error e => (.error e, .nothing)

section Pieces

variable {held : Bytes} {at_ : Nat} (h : at_ = held.length)
include h

theorem storeVarint_holding : storeVarint groups (.holding held) at_ value =
      ((writeVarintGroups groups value).length,
        .holding (held ++ writeVarintGroups groups value)) := by
  induction groups generalizing held at_ value with
  | zero => rw [writeVarintGroups, append_nil]; rfl
  | succ _ ih =>
    rw [storeVarint, writeVarintGroups]
    split
    · rw [Stored.put_holding h, ih (by rw [length_append, h]; rfl), append_assoc]
      rfl
    · rw [Stored.put_holding h]
      rfl

theorem storeU16_holding (value : Nat) :
    storeU16 (.holding held) at_ value = .holding (held ++ writeU16 value) := by
  rw [storeU16, Stored.put_holding h, Stored.put_holding (by rw [length_append, h]; rfl),
    append_assoc]
  rfl

theorem storeString_holding (text : Bytes) :
    storeString (.holding held) at_ text =
      ((writeString text).length, .holding (held ++ writeString text)) := by
  have hlength : (writeString text).length = 2 + text.length := by
    simp only [writeString, writeU16, length_append, length_cons, length_nil]
  have hbehind : at_ + 2 = (held ++ writeU16 text.length).length := by
    rw [length_append, h]
    rfl
  simp only [storeString, storeU16_holding h, hlength]
  split
  · rw [Stored.put_holding hbehind, append_assoc]
    rfl
  · rename_i hnone
    have hempty : text = [] := length_eq_zero_iff.mp (Nat.eq_zero_of_not_pos hnone)
    rw [writeString, hempty, append_nil]

theorem storeOptional_holding : storeOptional (.holding held) at_ text =
      ((writeOptional text).length, .holding (held ++ writeOptional text)) := by
  unfold storeOptional writeOptional
  by_cases hempty : text = []
  · rw [if_pos hempty, hempty, append_nil]
    rfl
  · rw [if_neg hempty, if_pos (length_pos_iff.mpr hempty)]
    exact storeString_holding h text

end Pieces

theorem writeVarintGroups_length_le (groups value : Nat) :
    (writeVarintGroups groups value).length ≤ groups := by
  induction groups generalizing value with
  | zero => exact Nat.le_refl _
  | succ _ ih =>
    rw [writeVarintGroups]
    split
    · exact Nat.succ_le_succ (ih (value / 128))
    · exact Nat.succ_le_succ (Nat.zero_le _)

theorem storeHeader_nothing : storeHeader .nothing cap type flags bodyLen =
      (beginPacket cap type flags bodyLen).map fun header =>
        (header.length, header.length + bodyLen, .holding header) := by
  unfold storeHeader beginPacket
  by_cases hmax : bodyLen > remainingMax
  · rw [if_pos hmax, if_pos hmax]
    rfl
  rw [if_neg hmax, if_neg hmax]
  have hwidth : (writeVarint bodyLen).length = varintWidth bodyLen := writeVarint_length bodyLen
  have hten : varintWidth bodyLen ≤ 10 := by
    rw [← hwidth]
    exact writeVarintGroups_length_le 10 bodyLen
  have hword : sizeT (1 + varintWidth bodyLen + bodyLen) = 1 + varintWidth bodyLen + bodyLen := by
    apply Nat.mod_eq_of_lt
    simp only [remainingMax] at hmax
    omega
  simp only [hword]
  split
  · rfl
  · generalize type.code <<< 4 ||| flags &&& 0x0F = first
    have hstart : 0 = ([] : Bytes).length := rfl
    have hfirst : Stored.nothing.put 0 [first] = .holding ([] ++ [first]) :=
      Stored.put_holding hstart
    have hone : 1 = ([] ++ [first]).length := rfl
    rw [hfirst, storeVarint_holding hone]
    have hlength : (first :: writeVarint bodyLen).length = 1 + varintWidth bodyLen := by
      rw [length_cons, hwidth, add_comm]
    rw [Option.map_some, hlength]
    rfl

theorem storedPacket_whole (cap : Nat) (type : PacketType) (flags : UInt8) (body : Bytes)
    (store : Nat → Nat → Stored UInt8 → Except Errno Nat × Stored UInt8)
    (hstore : ∀ header : Bytes, store header.length (header.length + body.length)
      (.holding header) = (.ok (header.length + body.length), .holding (header ++ body))) :
    (match storeHeader .nothing cap type flags body.length with
      | none => (.error .enospc, .nothing)
      | some (at_, total, out) => store at_ total out) =
      storedPacket (wholePacket cap type flags body) := by
  rw [storeHeader_nothing, wholePacket]
  cases beginPacket cap type flags body.length with
  | none => rfl
  | some header =>
    simp only [Option.map_some, storedPacket, length_append]
    exact hstore header

theorem storeConnect_nothing (cap : Nat) (p : Connect) :
    storeConnect .nothing cap p = storedPacket (encodeConnect cap p) := by
  unfold storeConnect encodeConnect
  split
  · rfl
  rename_i hlens
  simp only [Bool.or_eq_true, decide_eq_true_eq, not_or, not_lt] at hlens
  obtain ⟨⟨hid, huser⟩, hpass⟩ := hlens
  simp only [length_eq_zero_iff, gt_iff_lt, length_pos_iff]
  split
  · rfl
  split
  · rfl
  generalize hbody : protocolHeader ++ [p.flags] ++ writeU16 p.keepaliveS ++
      writeString p.clientId ++ writeOptional p.username ++ writeOptional p.password = body
  have hannounced : p.announced = body.length := by
    rw [← hbody]
    simp only [length_append, writeOptional_length, writeString, writeU16, protocolHeader,
      length_cons, length_nil, Connect.announced, sizeT, length_pos_iff, ne_eq, ite_not]
    simp only [stringMax] at hid huser hpass
    rw [Nat.mod_eq_of_lt (by split <;> split <;> omega)]
  rw [hannounced]
  apply storedPacket_whole
  intro header
  -- every piece goes right behind the ones before it
  have hflags : header.length + protocolHeader.length = (header ++ protocolHeader).length :=
    length_append.symm
  have hkeep : header.length + (protocolHeader.length + 1) =
      (header ++ protocolHeader ++ [p.flags]).length := by
    rw [length_append, ← hflags]
    rfl
  have hclient : header.length + (protocolHeader.length + 1 + 2) =
      (header ++ protocolHeader ++ [p.flags] ++ writeU16 p.keepaliveS).length := by
    rw [length_append, ← hkeep]
    rfl
  have hname : header.length + (protocolHeader.length + 1 + 2 + (writeString p.clientId).length) =
      (header ++ protocolHeader ++ [p.flags] ++ writeU16 p.keepaliveS ++
        writeString p.clientId).length := by
    rw [length_append, ← hclient]
    omega
  have hword : header.length + (protocolHeader.length + 1 + 2 + (writeString p.clientId).length +
      (writeOptional p.username).length) =
      (header ++ protocolHeader ++ [p.flags] ++ writeU16 p.keepaliveS ++
        writeString p.clientId ++ writeOptional p.username).length := by
    rw [length_append, ← hname]
    omega
  rw [Stored.put_holding rfl, Stored.put_holding hflags, storeU16_holding hkeep,
    storeString_holding hclient]
  rw [storeOptional_holding hname]
  rw [storeOptional_holding hword]
  simp only [← hbody, append_assoc]

theorem storePublish_nothing (cap : Nat) (topic payload : Bytes) (retained : Bool)
    (h : payload.length < 2 ^ 63) :
    storePublish .nothing cap topic payload retained =
      storedPacket (encodePublish cap topic payload retained) := by
  unfold storePublish encodePublish
  simp only [length_eq_zero_iff]
  split
  · rfl
  rename_i htopic
  simp only [Bool.or_eq_true, decide_eq_true_eq, not_or, not_lt] at htopic
  have hlength : sizeT (2 + topic.length + payload.length) =
      (writeString topic ++ payload).length := by
    simp only [writeString, writeU16, length_append, length_cons, length_nil]
    apply Nat.mod_eq_of_lt
    have hlen := htopic.2
    simp only [stringMax] at hlen
    omega
  rw [hlength]
  apply storedPacket_whole
  intro _
  rw [storeString_holding rfl]
  split
  · rw [Stored.put_holding length_append.symm, append_assoc]
  · rename_i hnone
    have hempty : payload = [] := length_eq_zero_iff.mp (Nat.eq_zero_of_not_pos hnone)
    rw [hempty, append_nil]

theorem storeSubscribe_nothing (cap packetId : Nat) (filter : Bytes) :
    storeSubscribe .nothing cap packetId filter =
      storedPacket (encodeSubscribe cap packetId filter) := by
  unfold storeSubscribe encodeSubscribe
  simp only [length_eq_zero_iff]
  split
  · rfl
  split
  · rfl
  rename_i hfilter
  simp only [Bool.or_eq_true, decide_eq_true_eq, not_or, not_lt] at hfilter
  have hlength : sizeT (2 + 2 + filter.length + 1) =
      (writeU16 packetId ++ writeString filter ++ [0]).length := by
    simp only [writeString, writeU16, length_append, length_cons, length_nil]
    have hlen := hfilter.2
    simp only [stringMax] at hlen
    rw [sizeT, Nat.mod_eq_of_lt (by omega)]
    omega
  rw [hlength]
  apply storedPacket_whole
  intro header
  have hfilterAt : header.length + 2 = (header ++ writeU16 packetId).length := by
    rw [length_append]
    rfl
  have hqos : header.length + (2 + (writeString filter).length) =
      (header ++ writeU16 packetId ++ writeString filter).length := by
    rw [length_append, ← hfilterAt, add_assoc]
  rw [storeU16_holding rfl, storeString_holding hfilterAt]
  rw [Stored.put_holding hqos, append_assoc, append_assoc, append_assoc]

theorem storeEmpty_nothing (cap : Nat) (type : PacketType) :
    storeEmpty .nothing cap type = storedPacket (encodeEmpty cap type) := by
  unfold storeEmpty encodeEmpty
  split
  · rfl
  · apply storedPacket_whole cap type 0 []
    intro _
    rw [append_nil, length_nil, add_zero]

theorem Request.store_eq (cap : Nat) (r : Request) (h : r.payload.length < 2 ^ 63) :
    r.store cap = storedPacket (r.encode cap) := by
  cases r with
  | connect p => exact storeConnect_nothing cap p
  | publish topic payload retained => exact storePublish_nothing cap topic payload retained h
  | subscribe packetId filter => exact storeSubscribe_nothing cap packetId filter
  | empty type => exact storeEmpty_nothing cap type

theorem wholePacket_length_le (h : wholePacket cap type flags body = .ok packet) :
    packet.length ≤ cap ∧ packet.length < 2 ^ 31 := by
  obtain ⟨hmax, hcap⟩ := (wholePacket_ok_iff cap type flags body).mp ⟨packet, h⟩
  unfold wholePacket beginPacket at h
  rw [if_neg (not_lt.mpr hmax), if_neg (not_lt.mpr hcap)] at h
  cases h
  have hwidth := writeVarint_length body.length
  have hten : (writeVarint body.length).length ≤ 10 := writeVarintGroups_length_le 10 body.length
  simp only [remainingMax] at hmax
  simp only [length_append, length_cons]
  omega

theorem Request.encode_length_le {r : Request} (h : r.encode cap = .ok packet) :
    packet.length ≤ cap ∧ packet.length < 2 ^ 31 := by
  cases r with
  | connect =>
    rw [Request.encode, encodeConnect] at h
    iterate 3
      split at h
      · cases h
    · exact wholePacket_length_le h
  | publish =>
    rw [Request.encode, encodePublish] at h
    split at h
    · cases h
    · exact wholePacket_length_le h
  | subscribe =>
    rw [Request.encode, encodeSubscribe] at h
    split at h
    · cases h
    split at h
    · cases h
    · exact wholePacket_length_le h
  | empty =>
    rw [Request.encode, encodeEmpty] at h
    split at h
    · cases h
    · exact wholePacket_length_le h

/-- An encoder answers with a length within the buffer and has stored the bytes up to there, or
with an error and has stored none. -/
theorem store_exact (cap : Nat) (r : Request) (h : r.payload.length < 2 ^ 63) :
    (∃ n, (r.store cap).1 = .ok n ∧ n ≤ cap ∧ n < 2 ^ 31 ∧
      ∀ i, ((r.store cap).2 i).isSome ↔ i < n) ∨
    ∃ e, (r.store cap).1 = .error e ∧ ∀ i, (r.store cap).2 i = none := by
  rw [r.store_eq cap h]
  cases hpacket : r.encode cap with
  | ok packet =>
    obtain ⟨hcap, hint⟩ := Request.encode_length_le hpacket
    exact .inl ⟨packet.length, rfl, hcap, hint, Stored.isSome_holding packet⟩
  | error e => exact .inr ⟨e, rfl, fun _ => rfl⟩

/-- A PUBLISH that fills its buffer. -/
theorem store_exact_full :
    (∃ n, ((Request.publish [97] [1, 2] false).store 7).1 = .ok n ∧ n ≤ 7 ∧ n < 2 ^ 31 ∧
      ∀ i, (((Request.publish [97] [1, 2] false).store 7).2 i).isSome ↔ i < n) ∨
    ∃ e, ((Request.publish [97] [1, 2] false).store 7).1 = .error e ∧
      ∀ i, ((Request.publish [97] [1, 2] false).store 7).2 i = none :=
  store_exact 7 (.publish [97] [1, 2] false) (by decide)

end Inkwell.Mqtt
