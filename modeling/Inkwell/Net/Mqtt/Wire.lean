import Inkwell.Codec.Mqtt.Framing
import Inkwell.Net.Mqtt.Queue
import Inkwell.Net.Mqtt.Run

namespace Inkwell.Mqtt
open List Inkwell.Runtime

def Retried : List Event → Prop
  | .offered _ bytes _ :: t => ∀ b, lastOffer t = some (true, b, .blocked) → bytes = b
  | _ => True

def Framed (t : List Event) : Prop := ∀ u ∈ t.tails, PacketPrefix (wire u) ∧ Retried u

/-- A DISCONNECT around the queue goes out between two packets, and not after a TLS write that
would block. -/
def cleanGoodbye : List Event → Bool
  | .disconnecting :: t =>
    (List.range ((packetsQueued t).length + 1)).any
        (fun k => wire t == ((packetsQueued t).take k).flatten) &&
      (lastOffer t).all (fun offer => !offer.1 || offer.2.2 != .blocked)
  | _ => true

theorem retried_offWire (h : e.offWire) : Retried (e :: t) := by
  cases e with
  | offered => cases h
  | _ => trivial

theorem Framed.here (h : Framed t) : PacketPrefix (wire t) :=
  (h t ((mem_tails _ _).mpr suffix_rfl)).1

theorem Framed.cons (h : Framed t) (hp : PacketPrefix (wire (e :: t))) (hr : Retried (e :: t)) :
    Framed (e :: t) :=
  tails_cons_forall h ⟨hp, hr⟩

theorem Framed.offWire (h : Framed t) (he : e.offWire) : Framed (e :: t) :=
  h.cons (by rw [wire_offWire he]; exact h.here) (retried_offWire he)

/-- The queue carries well-formed packets over a transport that pins a blocked write with TLS. -/
structure Sending (o : Outbound) (t : List Event) : Prop where
  carried : Carried (·) o t
  whole : ∀ p ∈ packetsQueued t, WellFormed p

theorem Sending.prefix (h : Sending o t) : PacketPrefix (wire t) :=
  ⟨packetsQueued t, h.whole, _, h.carried.stream⟩

theorem Sending.offWire (h : Sending o t) (he : e.offWire) : Sending o (e :: t) := by
  refine ⟨h.carried.offWire he, ?_⟩
  rw [packetsQueued_offWire he]
  exact h.whole

theorem Sending.compacted (h : Sending o t) : Sending (compactOut o) t :=
  ⟨h.carried.compacted, h.whole⟩

theorem Sending.append (h : Sending o t) (hp : WellFormed packet) :
    Sending (o.append packet) (.queued packet :: t) := by
  refine ⟨h.carried.append, ?_⟩
  intro p hmem
  rcases mem_append.mp hmem with hmem | hmem
  · exact h.whole p hmem
  · rw [mem_singleton.mp hmem]
    exact hp

theorem Send.framed (h : Send o t o' t') (hs : Sending o t) (hf : Framed t) :
    Sending o' t' ∧ Framed t' := by
  have hoffered : ∀ {secure answer o'}, Carried (·) o' (.offered secure o.offer answer :: t) →
      Sending o' (.offered secure o.offer answer :: t) ∧
        Framed (.offered secure o.offer answer :: t) := by
    intro secure answer o' hcarried
    have hs' : Sending o' (.offered secure o.offer answer :: t) := ⟨hcarried, hs.whole⟩
    exact ⟨hs', hf.cons hs'.prefix fun b hb => (hs.carried.blocked true b rfl hb).2⟩
  cases h with
  | accepted _ n hn => exact hoffered (hs.carried.accepted hn)
  | blocked _ h => exact hoffered (hs.carried.heldBack h)
  | refused => exact hoffered hs.carried.refused
  | drained h => exact ⟨⟨hs.carried.drained h, hs.whole⟩, hf⟩
  | compacted => exact ⟨hs.compacted, hf⟩

structure Wired (c : Core) : Prop where
  framed : Framed c.trace
  sending : c.socket → Sending c.out c.trace
  idle : c.socket = false → c.out = {}

theorem wired_closed (hf : Framed c.trace) (hs : c.socket = false) (ho : c.out = {}) : Wired c where
  framed := hf
  sending h := by
    rw [hs] at h
    cases h
  idle _ := ho

theorem wired_open (hf : Framed c.trace) (hs : c.socket) (ho : Sending c.out c.trace) :
    Wired c where
  framed := hf
  sending _ := ho
  idle h := by
    rw [hs] at h
    cases h

theorem Wired.along (h : Wired c) (hs : c'.socket = c.socket) (ho : c'.out = c.out)
    (ht : c'.trace = c.trace) : Wired c' where
  framed := ht ▸ h.framed
  sending hopen := by
    rw [ho, ht]
    exact h.sending (hs ▸ hopen)
  idle hclosed := ho ▸ h.idle (hs ▸ hclosed)

theorem Wired.offWire (h : Wired c) (he : e.offWire) : Wired (c.log e) :=
  ⟨h.framed.offWire he, fun hs => (h.sending hs).offWire he, h.idle⟩

theorem Wired.enter (h : Wired c) : Wired (c.enter st) := by
  unfold Core.enter
  split
  · exact h
  · exact (h.offWire (e := .entered st) rfl).along rfl rfl rfl

theorem Wired.failed {c : Core} (hf : Framed c.trace) : Wired (c.failed f) :=
  Wired.enter (wired_closed ((hf.offWire rfl).offWire rfl) rfl rfl)

theorem framed_opened (hf : Framed t) :
    Framed (.opened stats :: t) ∧ Sending {} (.opened stats :: t) := by
  refine ⟨hf.cons ⟨[], forall_mem_nil _, prefix_rfl⟩ trivial, ?_⟩
  exact ⟨⟨rfl, le_rfl, le_rfl, nofun⟩, forall_mem_nil _⟩

theorem Prelude.wired (h : Prelude who c b) (hq : Quiet c) (hw : Wired c) : Wired b := by
  obtain ⟨_, hs, _, _⟩ := h.clean hq
  cases h with
  | start => exact wired_closed ((hw.framed.offWire rfl).offWire rfl) rfl rfl
  | retry => exact wired_closed ((hw.framed.offWire rfl).offWire rfl) hs (hw.idle hs)
  | resolved => exact wired_closed hw.framed hs (hw.idle hs)

theorem Pump.wired (h : Pump c c') (hq : Quiet c) (hw : Wired c) : Wired c' := by
  cases h with
  | idle => exact hw
  | subscribe hr _ _ packet hp o ho =>
    have hs : c.socket := (hq.ready_live hr .reader).1
    have hread := (hw.sending hs).offWire (e := .filterRead c.filterSent c.filters.length) rfl
    have hpacked : Sending o (.filterRead c.filterSent c.filters.length :: c.trace) := by
      rcases ho with rfl | rfl
      · exact hread
      · exact hread.compacted
    have hpacket : WellFormed packet := by rw [WellFormed, hp]; rfl
    have hsending := hpacked.append hpacket
    exact wired_open ((hw.framed.offWire rfl).cons hsending.prefix trivial) hs hsending
  | noRoom hr _ _ o ho =>
    have hs : c.socket := (hq.ready_live hr .reader).1
    have hpacked : Sending o c.trace := by
      rcases ho with rfl | rfl
      · exact hw.sending hs
      · exact (hw.sending hs).compacted
    exact wired_open ((hw.framed.offWire rfl).offWire rfl) hs ((hpacked.offWire rfl).offWire rfl)

theorem cleanGoodbye_disconnecting (h : cleanGoodbye (.disconnecting :: t)) :
    (∃ k, wire t = ((packetsQueued t).take k).flatten) ∧
      ∀ b, lastOffer t ≠ some (true, b, .blocked) := by
  obtain ⟨hwire, hoffer⟩ := Bool.and_eq_true_iff.mp h
  obtain ⟨k, _, hk⟩ := any_eq_true.mp hwire
  refine ⟨⟨k, beq_iff_eq.mp hk⟩, ?_⟩
  intro b hb
  rw [hb] at hoffer
  cases hoffer

theorem Goodbye.framed (h : Goodbye c t) (hq : Quiet c) (hw : Wired c)
    (hok : ∀ u ∈ t.tails, cleanGoodbye u) : Framed t := by
  cases h with
  | silent => exact hw.framed
  | said h _ answer =>
    obtain ⟨⟨k, hwire⟩, hblocked⟩ := cleanGoodbye_disconnecting
      (hok (.disconnecting :: c.trace) ((mem_tails _ _).mpr (suffix_cons _ _)))
    have hall := (hw.sending (hq.ready_live h .reader).1).whole
    have hbye : WellFormed disconnectPacket := by decide
    have hwhole : ∀ p ∈ (packetsQueued c.trace).take k ++ [disconnectPacket], WellFormed p := by
      intro p hp
      rcases mem_append.mp hp with hp | hp
      · exact hall p (mem_of_mem_take hp)
      · rw [mem_singleton.mp hp]
        exact hbye
    refine (hw.framed.offWire rfl).cons ?_ ?_
    · cases answer with
      | accepted =>
        refine ⟨_, hwhole, ?_⟩
        simp only [wire, hwire, flatten_append, flatten_singleton]
        exact (prefix_append_right_inj _).mpr ⟨_, take_append_drop _ _⟩
      | blocked | refused => exact hw.framed.here
    · intro b hb
      exact absurd hb (hblocked b)

theorem wired_answered (hw : Wired c) : Wired (c.answered n code) := by
  have hsuback : Wired (c.log (.suback n c.subscribeId code)) := hw.offWire rfl
  unfold Core.answered
  split
  · have hread := hsuback.offWire (e := .filterRead c.filterSent c.filters.length) rfl
    exact (hread.offWire rfl).along rfl rfl rfl
  · exact (hsuback.offWire rfl).along rfl rfl rfl

theorem cleanGoodbyes_lasting : Lasting (fun t => ∀ u ∈ t.tails, cleanGoodbye u) := lasting_tails _

theorem wired_kept : Kept .reader (fun t => ∀ u ∈ t.tails, cleanGoodbye u) Wired := by
  intro c _ hq hw ha hok
  cases ha with
  | clock | moved => exact hw.along rfl rfl rfl
  | called | ignored => exact hw.offWire rfl
  | received | skipped | delivered => exact (hw.offWire rfl).along rfl rfl rfl
  | send hv h =>
    obtain ⟨hsending, hframed⟩ := h.framed (hw.sending hv.1) hw.framed
    exact wired_open hframed hv.1 hsending
  | queued hv packet p hp =>
    have hpacket : WellFormed packet := by rw [WellFormed, hp]; rfl
    have hsending := (hw.sending hv.1).append hpacket
    exact wired_open (hw.framed.cons hsending.prefix trivial) hv.1 hsending
  | failed => exact Wired.failed hw.framed
  | connect h =>
    have hb := h.wired hq hw
    have hout : _ = _ := hb.idle (h.clean hq).2.1
    obtain ⟨hframed, hsending⟩ := framed_opened hb.framed
    rw [← hout] at hsending
    exact Wired.enter (wired_open hframed rfl hsending)
  | lookUp h =>
    have hb := h.wired hq hw
    exact Wired.enter (hb.along rfl rfl rfl)
  | missed h => exact Wired.failed (h.wired hq hw).framed
  | refused h => exact Wired.failed (framed_opened (h.wired hq hw).framed).1
  | secure | greet => exact Wired.enter (hw.along rfl rfl rfl)
  | answered _ _ _ h => exact h.wired (quiet_answered hq) (wired_answered hw)
  | addFilter _ hne hlen hnew hroom h =>
    refine h.wired ?_ (hw.along rfl rfl rfl)
    exact hq.frame rfl rfl rfl rfl rfl rfl (.refl) (fun _ => ⟨rfl, rfl, rfl⟩)
      (hq.filters.add hne hlen hnew hroom)
  | cleared => exact (hw.offWire (e := .cleared c.subscribeId) rfl).along rfl rfl rfl
  | stopped h hg =>
    have hframed := hg.framed hq hw (cleanGoodbyes_lasting (enter_grows (suffix_cons _ _)) hok)
    exact Wired.enter (wired_closed (hframed.offWire rfl) rfl rfl)
  | shutdown => exact wired_closed (hw.framed.offWire rfl) rfl rfl

theorem Moves.wired (h : Moves c c') (hq : Quiet c) (hw : Wired c)
    (hok : ∀ u ∈ c'.trace.tails, cleanGoodbye u) : Wired c' := by
  have haccepted : ∀ {c : Core}, Wired c → Wired c.accepted := by
    intro c hw
    exact Wired.enter (hw.along rfl rfl rfl)
  refine h.keeps cleanGoodbyes_lasting wired_kept ?_ ?_ hq hw hok
  · intro c c₁ _ hq hw hs _ hcalls _ hp hok
    have hq₁ := hcalls.quiet (quiet_accepted hq hs)
    have hc₁ : Wired c₁ := hcalls.steps.keeps cleanGoodbyes_lasting wired_kept
      (quiet_accepted hq hs) (haccepted hw)
      (cleanGoodbyes_lasting ((suffix_cons _ _).trans hp.grows) hok)
    have hlog : Wired (c₁.log (.resubscribed c₁.subscribeId)) := hc₁.offWire rfl
    exact hp.wired (quiet_resubscribed hq₁) (hlog.along rfl rfl rfl)
  · intro c _ hq hw hs _ hcalls _ hok
    exact hcalls.steps.keeps cleanGoodbyes_lasting wired_kept (quiet_accepted hq hs) (haccepted hw)
      hok

/-- If every DISCONNECT goes out between packets and not after a TLS write that would block, what
the transport has accepted is a prefix of whole well-formed packets, and such a write is offered
again with its bytes. -/
theorem run_wire_framed (depth : Nat) (hasLoop : Bool) (world : World) (ops : List Op)
    (hok : ∀ u ∈ (run (callback depth) (boot hasLoop world) ops).trace.tails, cleanGoodbye u) :
    ∀ u ∈ (run (callback depth) (boot hasLoop world) ops).trace.tails,
      PacketPrefix (wire u) ∧ Retried u := by
  have hmoves := run_boot_moves depth hasLoop world ops
  generalize run (callback depth) (boot hasLoop world) ops = s at hmoves hok ⊢
  have hempty : Framed [] := by
    intro u hu
    rw [mem_singleton.mp hu]
    exact ⟨⟨[], forall_mem_nil _, prefix_rfl⟩, trivial⟩
  have hw : Wired s.core :=
    hmoves.wired (boot_quiet hasLoop world) (wired_closed hempty rfl rfl) hok
  exact hw.framed

/-- A client that sends all it has and then stops. -/
theorem run_wire_framed_stopped :
    let s := run (callback 0)
      (boot true { reached with recvs := [.ok [0x20, 2, 0, 0]], sends := [.ok 100, .ok 1] })
      (opening false ++ [.call .stop])
    wire s.trace = [0x10, 13, 0, 4, 77, 81, 84, 84, 4, 2, 0, 60, 0, 1, 99, 0xE0, 0] ∧
      ∀ u ∈ s.trace.tails, PacketPrefix (wire u) ∧ Retried u :=
  ⟨by decide, run_wire_framed 0 true _ _ (by decide)⟩

/-- A DISCONNECT lands in the middle of a PINGREQ of which the socket took half, and in the place
of one that would block. -/
theorem goodbye_splits_packet :
    (let s := run (callback 0)
      (boot true { reached with
        recvs := [.ok [0x20, 2, 0, 0]]
        sends := [.ok 100, .ok 0, .error ⟨.eagain, by decide⟩, .ok 1] })
      (opening false ++ [.tick 30000, .call .stop])
    ¬ PacketPrefix (wire s.trace)) ∧
    (let s := run (callback 0)
      (boot true { reached with
        handshakes := [.ok ()]
        sslReads := [{ answer := .ok [0x20, 2, 0, 0] }]
        sslWrites := [.ok 100, .error .wantWrite, .ok 1] })
      [.call (.start { address := [104], clientId := [99], tlsEnabled := true } false false 0),
        .socketEvent OUT, .socketEvent IN, .tick 30000, .call .stop]
    ∃ u ∈ s.trace.tails, ¬ Retried u) := by
  constructor
  · intro s h
    have hwire : wire s.trace =
        [[0x10, 13, 0, 4, 77, 81, 84, 84, 4, 2, 0, 60, 0, 1, 99]].flatten ++ [0xC0, 0xE0, 0] := by
      decide
    rw [hwire] at h
    exact not_packetPrefix_pingreq (by decide) (h.drop_packets (by decide))
  · intro s
    have hblocked : lastOffer (s.trace.drop 3) = some (true, [0xC0, 0], .blocked) := by decide
    refine ⟨s.trace.drop 2, (mem_tails _ _).mpr (drop_suffix _ _), ?_⟩
    intro h
    cases h [0xC0, 0] hblocked

end Inkwell.Mqtt
