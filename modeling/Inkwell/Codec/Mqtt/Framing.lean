import Inkwell.Codec.Mqtt.WellFormed

namespace Inkwell.Mqtt
open List

theorem readVarintFrom_append (value multiplier used : Nat) (data : Bytes)
    (h : readVarintFrom left value multiplier used data ≠ .more) :
    readVarintFrom left value multiplier used (data ++ rest) =
      readVarintFrom left value multiplier used data := by
  induction left generalizing value multiplier used data with
  | zero => rfl
  | succ _ ih =>
    cases data with
    | nil => exact absurd rfl h
    | cons _ data =>
      simp only [cons_append, readVarintFrom] at h ⊢
      split
      · rfl
      · rename_i hmore
        rw [if_neg hmore] at h
        exact ih _ _ _ data h

theorem readVarintFrom_bounds
    (h : readVarintFrom left value multiplier used data = .ok (n, width)) :
    value ≤ n ∧ used < width ∧ width ≤ used + data.length ∧ width ≤ used + left := by
  induction left generalizing value multiplier used data with
  | zero => cases h
  | succ _ ih =>
    cases data with
    | nil => cases h
    | cons =>
      rw [readVarintFrom] at h
      rw [length_cons]
      split at h
      · cases h
        omega
      · obtain ⟨_, _, _, _⟩ := ih h
        exact ⟨by omega, by omega, by omega, by omega⟩

theorem decodeHeader_append (rest : Bytes) (h : decodeHeader data ≠ .more) :
    decodeHeader (data ++ rest) = decodeHeader data := by
  cases data with
  | nil => exact absurd rfl h
  | cons first data =>
    rw [cons_append, decodeHeader, decodeHeader]
    rw [decodeHeader] at h
    cases htype : PacketType.ofCode (first >>> 4) with
    | none => rfl
    | some =>
      rw [htype] at h
      simp only at h ⊢
      split
      · rfl
      · rename_i hlegal
        rw [if_neg hlegal] at h
        have hvarint : readVarint data ≠ .more := by
          intro hmore
          rw [hmore] at h
          exact h rfl
        rw [readVarint, readVarintFrom_append _ _ _ _ hvarint]
        rfl

theorem decodeHeader_bounds (h : decodeHeader data = .ok header) :
    2 ≤ header.headerLen ∧ header.headerLen ≤ 5 ∧ header.headerLen ≤ data.length := by
  cases data with
  | nil => cases h
  | cons =>
    rw [decodeHeader] at h
    iterate 3
      split at h
      · cases h
    · cases h
    · rename_i hvarint
      cases h
      obtain ⟨_, _, _, hleft⟩ := readVarintFrom_bounds hvarint
      simp only [remainingBytesMax, length_cons] at hleft ⊢
      omega

theorem readVarintFrom_ne_more (value multiplier used : Nat) (data : Bytes)
    (h : left ≤ data.length) : readVarintFrom left value multiplier used data ≠ .more := by
  induction left generalizing value multiplier used data with
  | zero => exact nofun
  | succ _ ih =>
    cases data with
    | nil => cases h
    | cons _ data =>
      rw [readVarintFrom]
      split
      · exact nofun
      · exact ih _ _ _ data (Nat.le_of_succ_le_succ h)

theorem decodeHeader_ne_more (h : 5 ≤ data.length) : decodeHeader data ≠ .more := by
  cases data with
  | nil => cases h
  | cons _ data =>
    have hvarint : readVarint data ≠ .more :=
      readVarintFrom_ne_more 0 1 0 data (Nat.le_of_succ_le_succ h)
    rw [decodeHeader]
    split
    · simp
    split
    · simp
    split
    · rename_i hmore
      exact absurd hmore hvarint
    · simp
    · simp

theorem decodeHeader_take : decodeHeader (data.take 5) = decodeHeader data := by
  rcases Nat.lt_or_ge data.length 5 with hshort | hlong
  · rw [take_of_length_le (le_of_lt hshort)]
  · have hlen : 5 ≤ (data.take 5).length := by rw [length_take, min_eq_left hlong]
    have happend := decodeHeader_append (data.drop 5) (decodeHeader_ne_more hlen)
    rw [take_append_drop] at happend
    exact happend.symm

/-- A prefix is answered with "not yet" or as the whole stream is, an answer stands whatever comes
behind, and five bytes always bring one. -/
theorem decodeHeader_prefix_stable (data rest : Bytes) :
    (decodeHeader data = .more ∨ decodeHeader data = decodeHeader (data ++ rest)) ∧
    (decodeHeader data ≠ .more → ∀ more, decodeHeader (data ++ more) = decodeHeader data) ∧
    (5 ≤ data.length → decodeHeader data ≠ .more) ∧
    decodeHeader (data.take 5) = decodeHeader data ∧
    ∀ header, decodeHeader data = .ok header → header.headerLen ≤ 5 := by
  refine ⟨?_, ?_, decodeHeader_ne_more, decodeHeader_take, ?_⟩
  · by_cases hmore : decodeHeader data = .more
    · exact .inl hmore
    · exact .inr (decodeHeader_append rest hmore).symm
  · intro hdecided more
    exact decodeHeader_append more hdecided
  · intro _ hheader
    exact (decodeHeader_bounds hheader).2.1

theorem readVarintFrom_take (h : readVarintFrom left value multiplier used data = .ok (n, width))
    (hk : width ≤ used + k) :
    readVarintFrom left value multiplier used (data.take k) = .ok (n, width) := by
  induction left generalizing value multiplier used data k with
  | zero => cases h
  | succ _ ih =>
    have hused := (readVarintFrom_bounds h).2.1
    cases data with
    | nil => cases h
    | cons =>
      cases k with
      | zero => omega
      | succ =>
        rw [take_succ_cons, readVarintFrom]
        rw [readVarintFrom] at h
        split at h
        · rename_i hlast
          rw [if_pos hlast]
          exact h
        · rename_i hmore
          rw [if_neg hmore]
          exact ih h (by omega)

theorem decodeHeader_take_of_ok (h : decodeHeader data = .ok header) (hk : header.headerLen ≤ k) :
    decodeHeader (data.take k) = .ok header := by
  have htwo := (decodeHeader_bounds h).1
  cases data with
  | nil => cases h
  | cons =>
    cases k with
    | zero => omega
    | succ k =>
      rw [take_succ_cons, decodeHeader]
      rw [decodeHeader] at h
      split at h
      · cases h
      split at h
      · cases h
      rename_i hlegal
      rw [if_neg hlegal]
      split at h
      · cases h
      · cases h
      · rename_i width hvarint
        cases h
        have hwidth : width ≤ 0 + k := by
          simp only at hk
          omega
        rw [readVarint, readVarintFrom_take hvarint hwidth]

def OnePacket (packet : Bytes) : Prop :=
  ∃ header, decodeHeader packet = .ok header ∧ packet.length = header.headerLen + header.remaining

theorem OnePacket.unique (hp : OnePacket p) (hq : OnePacket q) (h : p ++ x = q ++ y) :
    p = q ∧ x = y := by
  obtain ⟨_, hheader, hlength⟩ := hp
  obtain ⟨_, hheader', hlength'⟩ := hq
  have hsame : decodeHeader (p ++ x) = decodeHeader (q ++ y) := by rw [h]
  rw [decodeHeader_append x (by rw [hheader]; exact nofun),
    decodeHeader_append y (by rw [hheader']; exact nofun), hheader, hheader'] at hsame
  cases hsame
  exact append_inj h (hlength.trans hlength'.symm)

theorem WellFormed.header (h : WellFormed packet) :
    ∃ header, decodeHeader packet = .ok header ∧
      packet.length = header.headerLen + header.remaining ∧
      (readBody header.type header.flags (packet.drop header.headerLen)).isSome := by
  unfold WellFormed readPacket at h
  split at h
  · rename_i header hheader
    split at h
    · rename_i hlength
      exact ⟨header, hheader, hlength, h⟩
    · cases h
  · cases h

theorem WellFormed.onePacket (h : WellFormed packet) : OnePacket packet := by
  obtain ⟨header, hheader, hlength, _⟩ := h.header
  exact ⟨header, hheader, hlength⟩

theorem WellFormed.two_le (h : WellFormed packet) : 2 ≤ packet.length := by
  obtain ⟨header, hheader, _⟩ := h.header
  obtain ⟨htwo, _, hle⟩ := decodeHeader_bounds hheader
  exact htwo.trans hle

/-- Bytes that are whole packets so far, the last one perhaps not all there. -/
def PacketPrefix (bytes : Bytes) : Prop :=
  ∃ packets : List Bytes, (∀ p ∈ packets, WellFormed p) ∧ bytes <+: packets.flatten

theorem PacketPrefix.drop_packet (hp : WellFormed p) (h : PacketPrefix (p ++ rest)) :
    PacketPrefix rest := by
  obtain ⟨packets, hall, tail, htail⟩ := h
  cases packets with
  | nil =>
    have hlen := congrArg List.length htail
    have htwo := hp.two_le
    simp only [length_append, flatten_nil, length_nil] at hlen
    omega
  | cons q packets =>
    obtain ⟨hq, hpackets⟩ := forall_mem_cons.mp hall
    rw [flatten_cons, append_assoc] at htail
    obtain ⟨_, hrest⟩ := hp.onePacket.unique hq.onePacket htail
    exact ⟨packets, hpackets, tail, hrest⟩

theorem PacketPrefix.drop_packets {packets : List Bytes} (hall : ∀ p ∈ packets, WellFormed p)
    (h : PacketPrefix (packets.flatten ++ rest)) : PacketPrefix rest := by
  induction packets with
  | nil => exact h
  | cons p _ ih =>
    obtain ⟨hp, hpackets⟩ := forall_mem_cons.mp hall
    rw [flatten_cons, append_assoc] at h
    exact ih hpackets (h.drop_packet hp)

theorem readVarint_first_le (h : readVarint (byte :: data) = .ok (n, width)) :
    (byte &&& 0x7F).toNat ≤ n := by
  rw [readVarint, remainingBytesMax, readVarintFrom] at h
  split at h
  · cases h
    omega
  · obtain ⟨_, _⟩ := readVarintFrom_bounds h
    omega

theorem WellFormed.pingreq (h : WellFormed (0xC0 :: byte :: rest)) : (byte &&& 0x7F).toNat = 0 := by
  obtain ⟨header, hheader, hlength, hbody⟩ := h.header
  have htype : PacketType.ofCode ((0xC0 : UInt8) >>> 4) = some .pingreq := by decide
  have hlegal : (!flagsAreLegal .pingreq (0xC0 &&& 0x0F)) = false := by decide
  rw [decodeHeader, htype] at hheader
  simp only [hlegal] at hheader
  split at hheader
  · cases hheader
  split at hheader
  · cases hheader
  · cases hheader
  · rename_i width hvarint
    cases hheader
    have hempty : (0xC0 :: byte :: rest).drop (1 + width) = [] := by
      by_contra hne
      simp only [readBody, if_neg hne] at hbody
      cases hbody
    have hfirst := readVarint_first_le hvarint
    have hdrop := drop_eq_nil_iff.mp hempty
    simp only at hlength
    omega

theorem not_packetPrefix_pingreq (h : (byte &&& 0x7F).toNat ≠ 0) :
    ¬ PacketPrefix (0xC0 :: byte :: rest) := by
  rintro ⟨packets, hall, _, htail⟩
  cases packets with
  | nil => cases htail
  | cons q =>
    obtain ⟨hq, _⟩ := forall_mem_cons.mp hall
    match q, hq, hq.two_le with
    | a :: b :: q, hq, _ =>
      simp only [cons_append, flatten_cons, List.cons.injEq] at htail
      obtain ⟨ha, hb, _⟩ := htail
      subst ha hb
      exact h hq.pingreq

end Inkwell.Mqtt
