import Mathlib.Tactic.Ring
import Inkwell.Codec.Mqtt.Packet

namespace Inkwell.Mqtt
open Library
open List hiding filter

/-- The packets a client sends, as MQTT 3.1.1 reads them. -/
inductive ClientPacket
  | connect (clientId : Bytes) (username password : Option Bytes) (keepaliveS : Nat)
      (cleanSession : Bool)
  | publish (topic payload : Bytes) (retained : Bool)
  | subscribe (id : Nat) (filter : Bytes) (qos : UInt8)
  | pingreq
  | disconnect
  deriving DecidableEq

def readString : Bytes → Option (Bytes × Bytes)
  | a :: b :: rest =>
    if readU16 a b ≤ rest.length then some (rest.splitAt (readU16 a b)) else none
  | _ => none

def readOptional (flag : Bool) (data : Bytes) : Option (Option Bytes × Bytes) :=
  if flag then (readString data).map fun (text, rest) => (some text, rest) else some (none, data)

/-- The flags of a CONNECT without a will: nothing reserved, and a password only with a name. -/
def connectFlagsOk (flags : UInt8) : Bool :=
  flags &&& 0x3D == 0 && (flags &&& 0x40 == 0 || flags &&& 0x80 != 0)

def readConnect (body : Bytes) : Option ClientPacket :=
  if body.take 7 ≠ protocolHeader then none
  else match body.drop 7 with
    | flags :: k₁ :: k₂ :: data =>
      if !connectFlagsOk flags then none
      else do
        let (clientId, data) ← readString data
        let (username, data) ← readOptional (flags &&& 0x80 != 0) data
        let (password, data) ← readOptional (flags &&& 0x40 != 0) data
        if data ≠ [] ∨ (clientId = [] ∧ flags &&& 0x02 = 0) then none
        else some (.connect clientId username password (readU16 k₁ k₂) (flags &&& 0x02 != 0))
    | _ => none

def readPublish (flags : UInt8) (body : Bytes) : Option ClientPacket :=
  if flags &&& 0x0E ≠ 0 then none
  else match readString body with
    | some (topic, payload) =>
      if topicIsPublishable topic then some (.publish topic payload (flags &&& 0x01 != 0)) else none
    | none => none

def readSubscribe : Bytes → Option ClientPacket
  | a :: b :: data =>
    match readString data with
    | some (filter, [qos]) =>
      if readU16 a b = 0 ∨ filter = [] ∨ qos > 2 then none
      else some (.subscribe (readU16 a b) filter qos)
    | _ => none
  | _ => none

def readBody (type : PacketType) (flags : UInt8) (body : Bytes) : Option ClientPacket :=
  match type with
  | .connect => readConnect body
  | .publish => readPublish flags body
  | .subscribe => readSubscribe body
  | .pingreq => if body = [] then some .pingreq else none
  | .disconnect => if body = [] then some .disconnect else none
  | _ => none

def readPacket (packet : Bytes) : Option ClientPacket :=
  match decodeHeader packet with
  | .ok h =>
    if packet.length = h.headerLen + h.remaining then
      readBody h.type h.flags (packet.drop h.headerLen)
    else none
  | _ => none

def WellFormed (packet : Bytes) : Prop := (readPacket packet).isSome

instance (packet : Bytes) : Decidable (WellFormed packet) := inferInstanceAs (Decidable (_ = _))

theorem last_group (h : n < 128) :
    UInt8.ofNat n &&& 0x80 = 0 ∧ (UInt8.ofNat n &&& 0x7F).toNat = n := by
  have hall : ∀ m : Fin 128, UInt8.ofNat m &&& 0x80 = 0 ∧ (UInt8.ofNat m &&& 0x7F).toNat = m := by
    decide
  exact hall ⟨n, h⟩

theorem inner_group (n : Nat) (h : n < 128) :
    (UInt8.ofNat n ||| 0x80) &&& 0x80 ≠ 0 ∧ ((UInt8.ofNat n ||| 0x80) &&& 0x7F).toNat = n := by
  have hall : ∀ m : Fin 128, (UInt8.ofNat m ||| 0x80) &&& 0x80 ≠ 0 ∧
      ((UInt8.ofNat m ||| 0x80) &&& 0x7F).toNat = m := by
    decide
  exact hall ⟨n, h⟩

theorem writeVarintGroups_length :
    (writeVarintGroups (groups + 1) value).length = varintWidthGroups groups value := by
  induction groups generalizing value with
  | zero =>
    unfold writeVarintGroups varintWidthGroups
    split <;> simp [writeVarintGroups]
  | succ _ ih =>
    rw [writeVarintGroups, varintWidthGroups]
    have hiff : value / 128 > 0 ↔ value ≥ 128 := by omega
    by_cases h : value ≥ 128
    · rw [if_pos (hiff.mpr h), if_pos h, length_cons, ih]
    · rw [if_neg (mt hiff.mp h), if_neg h, length_singleton]

theorem writeVarint_length (value : Nat) : (writeVarint value).length = varintWidth value :=
  writeVarintGroups_length

theorem readVarintFrom_small (hn : n < 128) :
    readVarintFrom (left + 1) value multiplier used (writeVarintGroups (groups + 1) n ++ rest) =
      .ok (value + n * multiplier, used + (writeVarintGroups (groups + 1) n).length) := by
  have hdiv : ¬ n / 128 > 0 := by omega
  have hmod : n % 128 = n := Nat.mod_eq_of_lt hn
  obtain ⟨hlast, hval⟩ := last_group hn
  simp only [writeVarintGroups, hdiv, if_false, hmod, cons_append, nil_append,
    readVarintFrom, hlast, hval, if_true, length_singleton]

theorem readVarintFrom_write (groups value multiplier used n : Nat) (rest : Bytes)
    (hn : n < 128 ^ (left + 1)) (hl : left ≤ groups) :
    readVarintFrom (left + 1) value multiplier used (writeVarintGroups (groups + 1) n ++ rest) =
      .ok (value + n * multiplier, used + (writeVarintGroups (groups + 1) n).length) := by
  induction left generalizing groups value multiplier used n with
  | zero => exact readVarintFrom_small (by simpa using hn)
  | succ left ih =>
    by_cases hsmall : n < 128
    · exact readVarintFrom_small hsmall
    · obtain ⟨groups, rfl⟩ : ∃ g, groups = g + 1 := ⟨groups - 1, by omega⟩
      obtain ⟨hmore, hval⟩ := inner_group (n % 128) (Nat.mod_lt _ (by omega))
      have hdiv : n / 128 < 128 ^ (left + 1) := by
        rw [Nat.div_lt_iff_lt_mul (by omega)]
        rwa [Nat.pow_succ] at hn
      have hpos : n / 128 > 0 := by omega
      have hsum : value + n % 128 * multiplier + n / 128 * (multiplier * 128) =
          value + n * multiplier := by
        calc value + n % 128 * multiplier + n / 128 * (multiplier * 128)
            = value + (n % 128 + 128 * (n / 128)) * multiplier := by ring
          _ = value + n * multiplier := by rw [Nat.mod_add_div]
      rw [writeVarintGroups, if_pos hpos, cons_append, readVarintFrom]
      simp only [hmore, hval, if_false]
      rw [ih groups _ _ _ _ hdiv (by omega), hsum, length_cons]
      congr 2
      omega

theorem readVarint_write (hn : n ≤ remainingMax) :
    readVarint (writeVarint n ++ rest) = .ok (n, (writeVarint n).length) := by
  have hlt : n < 128 ^ remainingBytesMax := by
    simp only [remainingMax] at hn
    simp only [remainingBytesMax]
    omega
  have h := readVarintFrom_write 9 0 1 0 n rest hlt (by decide)
  simpa [readVarint, writeVarint, remainingBytesMax] using h

theorem firstByte_split (type : PacketType) (hf : flags.toNat < 16) :
    PacketType.ofCode ((type.code <<< 4 ||| flags &&& 0x0F) >>> 4) = some type ∧
      (type.code <<< 4 ||| flags &&& 0x0F) &&& 0x0F = flags := by
  have hall : ∀ n : Fin 16,
      PacketType.ofCode ((type.code <<< 4 ||| UInt8.ofNat n &&& 0x0F) >>> 4) = some type ∧
        (type.code <<< 4 ||| UInt8.ofNat n &&& 0x0F) &&& 0x0F = UInt8.ofNat n := by
    cases type <;> decide
  have h := hall ⟨flags.toNat, hf⟩
  rwa [UInt8.ofNat_toNat] at h

theorem decodeHeader_beginPacket (h : beginPacket cap type flags len = some header)
    (hf : flags.toNat < 16) (hlegal : flagsAreLegal type flags) :
    decodeHeader (header ++ rest) = .ok ⟨type, flags, len, header.length⟩ := by
  unfold beginPacket at h
  split at h
  · cases h
  · split at h
    · cases h
    · cases h
      obtain ⟨htype, hflags⟩ := firstByte_split type hf
      rw [cons_append, decodeHeader, htype]
      simp only [hflags, hlegal, Bool.not_true, Bool.false_eq_true, if_false]
      rw [readVarint_write (by omega)]
      simp [add_comm]

theorem readU16_write (hn : n ≤ stringMax) :
    readU16 (UInt8.ofNat (n / 256)) (UInt8.ofNat (n % 256)) = n := by
  simp only [stringMax] at hn
  have hhigh : n / 256 % 256 = n / 256 := Nat.mod_eq_of_lt (by omega)
  simp only [readU16, UInt8.toNat_ofNat', Nat.reducePow, hhigh, Nat.mod_mod]
  omega

theorem readString_write (h : text.length ≤ stringMax) :
    readString (writeString text ++ rest) = some (text, rest) := by
  simp only [writeString, writeU16, cons_append, nil_append, readString, readU16_write h,
    length_append, Nat.le_add_right, if_true, splitAt_eq, take_left, drop_left]

theorem readPacket_wholePacket (h : wholePacket cap type flags body = .ok packet)
    (hf : flags.toNat < 16) (hlegal : flagsAreLegal type flags) :
    readPacket packet = readBody type flags body := by
  unfold wholePacket at h
  split at h
  · cases h
  · rename_i hb
    cases h
    simp only [readPacket, decodeHeader_beginPacket hb hf hlegal, length_append, if_true, drop_left]

theorem readPacket_encodeSubscribe (h : encodeSubscribe cap n filter = .ok packet)
    (hn : n ≤ stringMax) : readPacket packet = some (.subscribe n filter 0) := by
  unfold encodeSubscribe at h
  split at h
  · cases h
  · rename_i hne
    split at h
    · cases h
    · rename_i hfilter
      simp only [Bool.or_eq_true, decide_eq_true_eq, not_or, not_lt] at hfilter
      obtain ⟨hfne, hflen⟩ := hfilter
      rw [readPacket_wholePacket h (by decide) (by decide), readBody]
      simp only [writeU16, cons_append, nil_append, readSubscribe]
      rw [readString_write hflen]
      simp [readU16_write hn, hne, hfne]

theorem readPacket_encodePublish (h : encodePublish cap topic payload retained = .ok packet)
    (ht : topicIsPublishable topic) :
    readPacket packet = some (.publish topic payload retained) := by
  unfold encodePublish at h
  split at h
  · cases h
  · rename_i htopic
    simp only [Bool.or_eq_true, decide_eq_true_eq, not_or, not_lt] at htopic
    rw [readPacket_wholePacket h (by cases retained <;> decide) (by cases retained <;> decide),
      readBody, readPublish, readString_write htopic.2]
    cases retained with
    | true | false => simp only [ht]; rfl

theorem readOptional_write (rest : Bytes) (h : text.length ≤ stringMax) :
    readOptional (text ≠ []) (writeOptional text ++ rest) =
      some (if text = [] then none else some text, rest) := by
  by_cases ht : text = []
  · simp [readOptional, writeOptional, ht]
  · simp [readOptional, writeOptional, ht, readString_write h]

theorem connectFlags_bits : ∀ clean user pass : Bool, (pass → user) →
    connectFlagsOk (connectFlags clean user pass) ∧
      (connectFlags clean user pass &&& 0x80 != 0) = user ∧
      (connectFlags clean user pass &&& 0x40 != 0) = pass ∧
      (connectFlags clean user pass &&& 0x02 != 0) = clean := by
  decide

theorem readPacket_encodeConnect_word (h : encodeConnect cap p = .ok packet) :
    readPacket packet = some (.connect p.clientId
      (if p.username = [] then none else some p.username)
      (if p.password = [] then none else some p.password)
      (readU16 (UInt8.ofNat (p.keepaliveS / 256)) (UInt8.ofNat (p.keepaliveS % 256)))
      p.cleanSession) := by
  unfold encodeConnect at h
  split at h
  · cases h
  · rename_i hlens
    simp only [Bool.or_eq_true, decide_eq_true_eq, not_or, not_lt] at hlens
    obtain ⟨⟨hid, huser⟩, hpass⟩ := hlens
    split at h
    · cases h
    · rename_i hclean
      split at h
      · cases h
      · rename_i hpw
        have hneed : decide (p.password ≠ []) = true → decide (p.username ≠ []) = true := by
          simp only [decide_eq_true_eq]
          intro h₁ h₂
          exact hpw ⟨h₁, h₂⟩
        obtain ⟨hok, hu, hw, hc⟩ := connectFlags_bits p.cleanSession _ _ hneed
        rw [← Connect.flags] at hok hu hw hc
        have hempty : ¬ (p.clientId = [] ∧ p.flags &&& 0x02 = 0) := by
          rintro ⟨h₁, h₂⟩
          refine hclean ⟨h₁, ?_⟩
          simpa [h₂] using hc
        have hlast := readOptional_write [] hpass
        rw [append_nil] at hlast
        rw [readPacket_wholePacket h (by decide) (by decide), readBody]
        simp only [readConnect, protocolHeader, writeU16, cons_append, nil_append, append_assoc,
          take_succ_cons, take_zero, drop_succ_cons, drop_zero, ne_eq, not_true_eq_false, if_false,
          hok, Bool.not_true, Bool.false_eq_true, hu, hw, readString_write hid, Option.bind_eq_bind,
          Option.bind_some, readOptional_write _ huser, hlast, false_or, hempty, hc]

theorem readPacket_encodeConnect (h : encodeConnect cap p = .ok packet) :
    ∃ keepalive, readPacket packet = some (.connect p.clientId
      (if p.username = [] then none else some p.username)
      (if p.password = [] then none else some p.password) keepalive p.cleanSession) :=
  ⟨_, readPacket_encodeConnect_word h⟩

end Inkwell.Mqtt
