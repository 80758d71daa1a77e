import Inkwell.Net.Mqtt.History
import Inkwell.Net.Mqtt.Refine

namespace Inkwell.Mqtt
open List

def wire : List Event → Bytes
  | [] => []
  | .opened _ :: _ => []
  | .offered _ bytes (.accepted n) :: t => wire t ++ bytes.take n
  | _ :: t => wire t

def packetsQueued : List Event → List Bytes
  | [] => []
  | .opened _ :: _ => []
  | .queued packet :: t => packetsQueued t ++ [packet]
  | _ :: t => packetsQueued t

def lastOffer : List Event → Option (Bool × Bytes × Offer)
  | [] => none
  | .opened _ :: _ => none
  | .offered secure bytes answer :: _ => some (secure, bytes, answer)
  | _ :: t => lastOffer t

def Event.offWire : Event → Bool
  | .opened _ | .offered .. | .queued _ => false
  | _ => true

theorem wire_offWire (h : e.offWire) : wire (e :: t) = wire t := by
  cases e <;> first | rfl | cases h

theorem packetsQueued_offWire (h : e.offWire) : packetsQueued (e :: t) = packetsQueued t := by
  cases e <;> first | rfl | cases h

theorem lastOffer_offWire (h : e.offWire) : lastOffer (e :: t) = lastOffer t := by
  cases e <;> first | rfl | cases h

/-- What is still to go of the packets queued, and a blocked write on a transport that `pins` it
is held to its bytes. -/
structure Carried (pins : Bool → Prop) (o : Outbound) (t : List Event) : Prop where
  stream : wire t ++ o.bytes.drop o.sent = (packetsQueued t).flatten
  sent_le : o.sent ≤ o.bytes.length
  pinned : o.pending ≤ o.bytes.length - o.sent
  blocked : ∀ secure b, pins secure → lastOffer t = some (secure, b, .blocked) →
    0 < o.pending ∧ o.offer = b

theorem Carried.offWire (h : Carried pins o t) (he : e.offWire) : Carried pins o (e :: t) where
  stream := by rw [packetsQueued_offWire he, wire_offWire he]; exact h.stream
  sent_le := h.sent_le
  pinned := h.pinned
  blocked := by rw [lastOffer_offWire he]; exact h.blocked

theorem chunk_pinned {o : Outbound} (h : 0 < o.pending) : o.chunk = o.pending := if_pos h

theorem chunk_le {o : Outbound} (h : o.pending ≤ o.bytes.length - o.sent) :
    o.chunk ≤ o.bytes.length - o.sent := by
  unfold Outbound.chunk
  split
  · exact h
  · exact le_rfl

theorem offer_length {o : Outbound} (h : o.pending ≤ o.bytes.length - o.sent) :
    o.offer.length = o.chunk := by
  rw [Outbound.offer, length_take, length_drop]
  exact min_eq_left (chunk_le h)

theorem Carried.accepted (h : Carried pins o t) (hn : n ≤ o.offer.length) :
    Carried pins { o with pending := 0, sent := o.sent + n }
      (.offered secure o.offer (.accepted n) :: t) where
  stream := by
    rw [offer_length h.pinned] at hn
    have hbytes : o.offer.take n = (o.bytes.drop o.sent).take n := by
      rw [Outbound.offer, take_take, Nat.min_eq_left hn]
    simp only [wire, packetsQueued, hbytes]
    rw [← drop_drop, append_assoc, take_append_drop]
    exact h.stream
  sent_le := by
    have hle := chunk_le h.pinned
    have hsent := h.sent_le
    rw [offer_length h.pinned] at hn
    simp only
    omega
  pinned := Nat.zero_le _
  blocked := by
    intro _ b _ hb
    cases hb

theorem Carried.heldBack (h : Carried pins o t) (hlt : o.sent < o.bytes.length) :
    Carried pins { o with pending := o.chunk } (.offered secure o.offer .blocked :: t) where
  stream := h.stream
  sent_le := h.sent_le
  pinned := chunk_le h.pinned
  blocked := by
    intro _ b _ hb
    have hpos : 0 < o.chunk := by
      unfold Outbound.chunk
      split <;> omega
    have hchunk : ({ o with pending := o.chunk } : Outbound).chunk = o.chunk := chunk_pinned hpos
    have hoffer : ({ o with pending := o.chunk } : Outbound).offer = o.offer := by
      rw [Outbound.offer, hchunk]
      rfl
    cases hb
    exact ⟨hpos, hoffer⟩

theorem Carried.refused (h : Carried pins o t) :
    Carried pins o (.offered secure o.offer (.refused e) :: t) where
  stream := h.stream
  sent_le := h.sent_le
  pinned := h.pinned
  blocked := by
    intro _ b _ hb
    cases hb

theorem Carried.drained (h : Carried pins o t) (hall : o.sent ≥ o.bytes.length) :
    Carried pins {} t where
  stream := by
    have hstream := h.stream
    rw [drop_eq_nil_of_le hall] at hstream
    exact hstream
  sent_le := le_rfl
  pinned := le_rfl
  blocked := by
    intro secure b hs hb
    obtain ⟨_, _⟩ := h.blocked secure b hs hb
    have hpinned := h.pinned
    omega

theorem compactOut_pinned {o : Outbound} (h : 0 < o.pending) : compactOut o = o := by
  unfold compactOut
  split
  · rfl
  · rfl

theorem Carried.compacted (h : Carried pins o t) : Carried pins (compactOut o) t := by
  by_cases hpending : 0 < o.pending
  · rw [compactOut_pinned hpending]
    exact h
  have hnone : o.pending = 0 := Nat.eq_zero_of_not_pos hpending
  unfold compactOut
  split
  · exact h
  · refine ⟨?_, Nat.zero_le _, ?_, ?_⟩
    · exact h.stream
    · rw [hnone]
      exact Nat.zero_le _
    · intro secure b hs hb
      exact absurd (h.blocked secure b hs hb).1 hpending

theorem Carried.append (h : Carried pins o t) :
    Carried pins (o.append packet) (.queued packet :: t) where
  stream := by
    simp only [wire, packetsQueued, Outbound.append]
    rw [drop_append_of_le_length h.sent_le, ← append_assoc, h.stream,
      flatten_append, flatten_singleton]
  sent_le := by
    have hsent := h.sent_le
    simp only [Outbound.append, length_append]
    omega
  pinned := by
    have hpinned := h.pinned
    simp only [Outbound.append, length_append]
    omega
  blocked := by
    intro secure b hs hb
    obtain ⟨hpos, hoffer⟩ := h.blocked secure b hs hb
    refine ⟨hpos, ?_⟩
    have hchunk : (o.append packet).chunk = o.pending := chunk_pinned hpos
    have hdrop : (o.append packet).bytes.drop (o.append packet).sent =
        o.bytes.drop o.sent ++ packet := drop_append_of_le_length h.sent_le
    rw [← hoffer, Outbound.offer, Outbound.offer, hchunk, hdrop, chunk_pinned hpos]
    apply take_append_of_le_length
    rw [length_drop]
    exact h.pinned

def Outbound.unsent (o : Outbound) : Bytes := o.bytes.drop o.sent

theorem compactOut_spec : (compactOut o).unsent = o.unsent ∧ (compactOut o).pending = o.pending ∧
      (compactOut o).bytes.length ≤ o.bytes.length := by
  unfold compactOut
  split
  · exact ⟨rfl, rfl, le_rfl⟩
  · split
    · exact ⟨rfl, rfl, le_rfl⟩
    · refine ⟨rfl, rfl, ?_⟩
      rw [length_drop]
      exact Nat.sub_le _ _

/-- An offer after one that would block is of the same bytes, whatever the transport. -/
def Repeated : List Event → Prop
  | .offered _ bytes _ :: t => ∀ secure b, lastOffer t = some (secure, b, .blocked) → bytes = b
  | _ => True

/-- The queue within its buffer, every blocked write pinned and every offer a repetition of the
one it was held to. -/
structure InBuffer (o : Outbound) (t : List Event) : Prop where
  room : o.bytes.length ≤ outboundMax
  carried : Carried (fun _ => True) o t
  repeats : ∀ u ∈ t.tails, Repeated u

theorem InBuffer.compacted (h : InBuffer o t) : InBuffer (compactOut o) t :=
  ⟨compactOut_spec.2.2.trans h.room, h.carried.compacted, h.repeats⟩

theorem InBuffer.append (h : InBuffer o t) (hroom : o.bytes.length + packet.length ≤ outboundMax) :
    InBuffer (o.append packet) (.queued packet :: t) where
  room := by
    rw [Outbound.append, length_append]
    exact hroom
  carried := h.carried.append
  repeats := tails_cons_forall h.repeats trivial

theorem Send.inBuffer (h : Send o t o' t') (hb : InBuffer o t) : InBuffer o' t' := by
  have hrepeated : ∀ secure answer, Repeated (.offered secure o.offer answer :: t) := by
    intro _ _ secure' b hlast
    exact (hb.carried.blocked secure' b trivial hlast).2
  cases h with
  | accepted _ n hn =>
    exact ⟨hb.room, hb.carried.accepted hn, tails_cons_forall hb.repeats (hrepeated _ _)⟩
  | blocked _ h =>
    exact ⟨hb.room, hb.carried.heldBack h, tails_cons_forall hb.repeats (hrepeated _ _)⟩
  | refused => exact ⟨hb.room, hb.carried.refused, tails_cons_forall hb.repeats (hrepeated _ _)⟩
  | drained h => exact ⟨Nat.zero_le _, hb.carried.drained h, hb.repeats⟩
  | compacted => exact hb.compacted

theorem Sends.inBuffer (h : Sends o t o' t') (hb : InBuffer o t) : InBuffer o' t' := by
  induction h with
  | refl => exact hb
  | tail _ hs ih => exact hs.inBuffer ih

theorem mqttFlush_inBuffer (h : InBuffer s.client.out s.trace) :
    InBuffer (mqttFlush s).2.client.out (mqttFlush s).2.trace := by
  obtain ⟨_, o, t, hsends, hcore, _⟩ := mqttFlush_core s
  have hout : (mqttFlush s).2.client.out = o := congrArg Core.out hcore
  have htrace : (mqttFlush s).2.trace = t := congrArg Core.trace hcore
  rw [hout, htrace]
  exact hsends.inBuffer h

theorem mqttQueue_inBuffer (h : InBuffer s.client.out s.trace) :
    InBuffer (mqttQueue s packet).2.client.out (mqttQueue s packet).2.trace := by
  unfold mqttQueue
  simp only
  split
  · split
    · exact h.compacted
    · rename_i hroom
      apply mqttFlush_inBuffer
      exact h.compacted.append (Nat.le_of_not_gt hroom)
  · rename_i hroom
    apply mqttFlush_inBuffer
    exact h.append (Nat.le_of_not_gt hroom)

theorem Sends.packetsQueued (h : Sends o t o' t') : packetsQueued t' = Mqtt.packetsQueued t := by
  induction h with
  | refl => rfl
  | tail _ hs ih => cases hs <;> exact ih

theorem mqttFlush_ledger : packetsQueued (mqttFlush s).2.trace = packetsQueued s.trace := by
  obtain ⟨_, _, t, hsends, hcore, _⟩ := mqttFlush_core s
  have htrace : (mqttFlush s).2.trace = t := congrArg Core.trace hcore
  rw [htrace, hsends.packetsQueued]

theorem mqttQueue_ledger : packetsQueued (mqttQueue s packet).2.trace =
    packetsQueued s.trace ++ if (mqttQueue s packet).1 = some .enospc then [] else [packet] := by
  obtain ⟨_, _, ⟨hfull, hcore⟩ | ⟨htaken, _, t, hsends, hcore, _⟩⟩ := mqttQueue_core
  · have htrace : (mqttQueue s packet).2.trace = s.trace := congrArg Core.trace hcore
    rw [htrace, if_pos hfull, append_nil]
  · have htrace : (mqttQueue s packet).2.trace = t := congrArg Core.trace hcore
    rw [htrace, hsends.packetsQueued, if_neg htaken]
    rfl

inductive QueueCall
  | queue (packet : Bytes)
  | flush

def QueueCall.run (s : Sys) : QueueCall → Sys
  | .queue packet => (mqttQueue s packet).2
  | .flush => (mqttFlush s).2

def freshConnection (s : Sys) (stats : Stats) : Sys :=
  ({ s with trace := [] } : Sys).setOut {} |>.log (.opened stats)

theorem queueCalls_inBuffer (calls : List QueueCall) (h : InBuffer s.client.out s.trace) :
    InBuffer (calls.foldl QueueCall.run s).client.out (calls.foldl QueueCall.run s).trace := by
  induction calls generalizing s with
  | nil => exact h
  | cons call _ ih =>
    apply ih
    cases call with
    | queue => exact mqttQueue_inBuffer h
    | flush => exact mqttFlush_inBuffer h

/-- Whatever its transport answers, the write queue is within its buffer, what was accepted and
what is left are the packets put in, which are those it did not answer ENOSPC to, and a write that
would block is offered again with the same bytes. -/
theorem queueCalls_conserve (s : Sys) (stats : Stats) (calls : List QueueCall) :
    let s' := calls.foldl QueueCall.run (freshConnection s stats)
    let out := s'.client.out
    out.sent ≤ out.bytes.length ∧ out.bytes.length ≤ 4096 ∧
    out.pending ≤ out.bytes.length - out.sent ∧
    wire s'.trace ++ out.bytes.drop out.sent = (packetsQueued s'.trace).flatten ∧
    (∀ packet, packetsQueued (mqttQueue s' packet).2.trace = packetsQueued s'.trace ++
      if (mqttQueue s' packet).1 = some .enospc then [] else [packet]) ∧
    packetsQueued (mqttFlush s').2.trace = packetsQueued s'.trace ∧
    (∀ u ∈ s'.trace.tails, Repeated u) ∧
    ∀ secure b, lastOffer s'.trace = some (secure, b, .blocked) →
      compactOut out = out ∧ (out.bytes.drop out.sent).take out.pending = b ∧
        out.pending = b.length := by
  intro s' out
  have hfresh : InBuffer (freshConnection s stats).client.out (freshConnection s stats).trace := by
    refine ⟨Nat.zero_le _, ⟨rfl, Nat.le_refl _, Nat.le_refl _, nofun⟩, ?_⟩
    exact tails_cons_forall (fun u hu => by rw [mem_singleton.mp hu]; trivial) trivial
  have hb : InBuffer out s'.trace := queueCalls_inBuffer calls hfresh
  refine ⟨hb.carried.sent_le, hb.room, hb.carried.pinned, hb.carried.stream,
    fun _ => mqttQueue_ledger, mqttFlush_ledger, hb.repeats, ?_⟩
  intro secure b hlast
  obtain ⟨hpos, hoffer⟩ := hb.carried.blocked secure b trivial hlast
  have hlength := offer_length hb.carried.pinned
  rw [hoffer, chunk_pinned hpos] at hlength
  rw [Outbound.offer, chunk_pinned hpos] at hoffer
  exact ⟨compactOut_pinned hpos, hoffer, hlength.symm⟩

/-- A PINGREQ that would block is held to its two bytes. -/
theorem queueCalls_conserve_blocked :
    let s := boot true { sends := [.error ⟨.eagain, by decide⟩] }
    let s' := [QueueCall.queue [0xC0, 0]].foldl QueueCall.run (freshConnection s {})
    lastOffer s'.trace = some (false, [0xC0, 0], .blocked) ∧
      (s'.client.out.bytes.drop s'.client.out.sent).take s'.client.out.pending = [0xC0, 0] := by
  intro s s'
  have hblocked : lastOffer s'.trace = some (false, [0xC0, 0], .blocked) := by decide
  obtain ⟨_, _, _, _, _, _, _, hheld⟩ := queueCalls_conserve s {} [.queue [0xC0, 0]]
  exact ⟨hblocked, (hheld false _ hblocked).2.1⟩

end Inkwell.Mqtt
