import Inkwell.Net.Mqtt.Callback
import Inkwell.Net.Mqtt.Consume

namespace Inkwell.Mqtt
open Net List

def messageIn (packet : Bytes) : Option (Bytes × Bytes) :=
  match decodeHeader packet with
  | .ok header =>
    if header.headerLen + header.remaining ≤ packetMax then
      messageOf header (packet.drop header.headerLen)
    else none
  | _ => none

def messages (packets : List Bytes) : List (Bytes × Bytes) := packets.filterMap messageIn

/-- The packet stands in what has been read behind whole packets with as many messages as have
been delivered. -/
structure NextMessage (u : List Event) (packet : Bytes) (topic payload : Bytes) : Prop where
  place : ∃ packets rest, (∀ p ∈ packets, OnePacket p) ∧
    readBytes u = packets.flatten ++ (packet ++ rest) ∧
    (messages packets).length = (heard u).deliveries.length
  whole : OnePacket packet
  message : messageIn packet = some (topic, payload)

theorem messages_cons_some (h : messageIn p = some m) :
    messages (p :: packets) = m :: messages packets := filterMap_cons_some h

theorem packet_after_unique (hall : ∀ p ∈ packets, OnePacket p)
    (hall' : ∀ p ∈ packets', OnePacket p) (hp : OnePacket p) (hp' : OnePacket p')
    (hm : messageIn p = some m) (hm' : messageIn p' = some m')
    (hstream : packets.flatten ++ (p ++ rest) = packets'.flatten ++ (p' ++ rest'))
    (hcount : (messages packets).length = (messages packets').length) : p = p' := by
  induction packets generalizing packets' with
  | nil =>
    cases packets' with
    | nil => exact (hp.unique hp' hstream).1
    | cons =>
      rw [flatten_cons, append_assoc] at hstream
      obtain ⟨hsame, _⟩ := hp.unique (forall_mem_cons.mp hall').1 hstream
      rw [← hsame, messages_cons_some hm] at hcount
      cases hcount
  | cons q _ ih =>
    obtain ⟨hq, hpackets⟩ := forall_mem_cons.mp hall
    rw [flatten_cons, append_assoc] at hstream
    cases packets' with
    | nil =>
      obtain ⟨hsame, _⟩ := hq.unique hp' hstream
      rw [hsame, messages_cons_some hm'] at hcount
      cases hcount
    | cons =>
      obtain ⟨hq', hpackets'⟩ := forall_mem_cons.mp hall'
      rw [flatten_cons, append_assoc] at hstream
      obtain ⟨hsame, hrest⟩ := hq.unique hq' hstream
      apply ih hpackets hpackets' hrest
      rw [← hsame] at hcount
      unfold messages at hcount ⊢
      cases hmq : messageIn q with
      | none =>
        rw [filterMap_cons_none hmq, filterMap_cons_none hmq] at hcount
        exact hcount
      | some =>
        rw [filterMap_cons_some hmq, filterMap_cons_some hmq] at hcount
        exact Nat.succ_inj.mp hcount

theorem NextMessage.unique (h : NextMessage u packet topic payload)
    (h' : NextMessage u packet' topic' payload') :
    packet = packet' ∧ topic = topic' ∧ payload = payload' := by
  obtain ⟨_, _, hall, hstream, hcount⟩ := h.place
  obtain ⟨_, _, hall', hstream', hcount'⟩ := h'.place
  have hsame : packet = packet' := packet_after_unique hall hall' h.whole h'.whole h.message
    h'.message (hstream.symm.trans hstream') (hcount.trans hcount'.symm)
  have hmessage := h.message
  rw [hsame, h'.message] at hmessage
  cases hmessage
  exact ⟨hsame, rfl, rfl⟩

def Sound (t : List Event) : Prop :=
  ∀ topic payload u, .delivered topic payload :: u <:+ t →
    ∃ packet wire, NextMessage u packet wire payload ∧ topic = cString wire

theorem Sound.cons (h : Sound t) (he : ∀ topic payload, e ≠ .delivered topic payload) :
    Sound (e :: t) := by
  intro topic payload u hsuffix
  rcases suffix_cons_iff.mp hsuffix with heq | hbefore
  · cases heq
    exact absurd rfl (he topic payload)
  · exact h topic payload u hbefore

theorem Sound.undelivered (h : Sound t) (hu : Undelivered t t') : Sound t' := by
  induction hu with
  | refl => exact h
  | cons _ he ih => exact ih.cons he

theorem Sound.delivered (h : Sound t) (hnext : NextMessage t packet topic payload) :
    Sound (.delivered (cString topic) payload :: t) := by
  intro topic' payload' u hsuffix
  rcases suffix_cons_iff.mp hsuffix with heq | hbefore
  · cases heq
    exact ⟨packet, topic, hnext, rfl⟩
  · exact h topic' payload' u hbefore

/-- The part that was passed over of a packet too large for the buffer, with `n` bytes to go. -/
inductive Passing : Bytes → Nat → Prop
  | none : Passing [] 0
  | part (header : Header) (h : decodeHeader part = .ok header)
      (hbig : packetMax < header.headerLen + header.remaining)
      (hlen : part.length + n = header.headerLen + header.remaining) : Passing part n

/-- What was read: whole packets, their messages delivered, a part that is passed over, and the
buffer behind `at_`. -/
def Placed (c : Core) (at_ : Nat) : Prop :=
  ∃ packets part, (∀ p ∈ packets, OnePacket p) ∧
    readBytes c.trace = packets.flatten ++ (part ++ c.input.drop at_) ∧
    Passing part c.skipRemaining ∧
    (c.onMessage → (messages packets).length = (heard c.trace).deliveries.length)

theorem Placed.aside (h : Placed c at_) (hi : c'.input = c.input)
    (hk : c'.skipRemaining = c.skipRemaining) (hm : c'.onMessage = c.onMessage)
    (ht : Aside c.trace c'.trace) : Placed c' at_ := by
  obtain ⟨packets, part, hall, hbytes, hpassing, hcount⟩ := h
  obtain ⟨hread, hdelivered⟩ := Prod.mk.injEq .. ▸ ht.taken
  refine ⟨packets, part, hall, ?_, ?_, ?_⟩
  · rw [hread, hi]
    exact hbytes
  · rw [hk]
    exact hpassing
  · rw [hm, hdelivered]
    exact hcount

theorem placed_anew (hi : c.input = []) (hk : c.skipRemaining = 0)
    (ht : taken c.trace = ([], [])) : Placed c 0 := by
  obtain ⟨hread, hdelivered⟩ := Prod.mk.injEq .. ▸ ht
  refine ⟨[], [], nofun, ?_, ?_, ?_⟩
  · rw [hread, hi]
    rfl
  · rw [hk]
    exact .none
  · intro _
    rw [hdelivered]
    rfl

theorem Passing.skip (h : Passing passed left) (hpos : 0 < left) (hn : bytes.length ≤ left) :
    Passing (passed ++ bytes) (left - bytes.length) := by
  cases h with
  | none => exact absurd hpos (lt_irrefl 0)
  | part header hheader hbig =>
    apply Passing.part header ?_ hbig
    · rw [length_append]
      omega
    · rw [decodeHeader_append _ (by rw [hheader]; exact nofun)]
      exact hheader

theorem Placed.skip (h : Placed c at_) (hskip : 0 < c.skipRemaining)
    (hn : n ≤ c.skipRemaining) (hlen : n ≤ c.input.length - at_) :
    Placed { c with skipRemaining := c.skipRemaining - n } (at_ + n) := by
  obtain ⟨packets, part, hall, hbytes, hpassing, hcount⟩ := h
  have htake : ((c.input.drop at_).take n).length = n := by
    rw [length_take, length_drop, min_eq_left hlen]
  have hpassed := hpassing.skip hskip (by rw [htake]; exact hn)
  rw [htake] at hpassed
  refine ⟨packets, part ++ (c.input.drop at_).take n, hall, ?_, hpassed, hcount⟩
  rw [hbytes, append_assoc, ← drop_drop, take_append_drop]

theorem Placed.settled (h : Placed c at_) (hskip : c.skipRemaining = 0) :
    ∃ packets, (∀ p ∈ packets, OnePacket p) ∧
      readBytes c.trace = packets.flatten ++ c.input.drop at_ ∧
      (c.onMessage → (messages packets).length = (heard c.trace).deliveries.length) := by
  obtain ⟨packets, part, hall, hbytes, hpassing, hcount⟩ := h
  rw [hskip] at hpassing
  cases hpassing with
  | none => exact ⟨packets, hall, hbytes, hcount⟩
  | part header hheader hbig hpart =>
    have hone : OnePacket part := ⟨header, hheader, hpart⟩
    have hnone : messageIn part = none := by
      rw [messageIn, hheader]
      exact if_neg (not_le_of_gt hbig)
    refine ⟨packets ++ [part], ?_, ?_, ?_⟩
    · intro p hp
      rcases mem_append.mp hp with hp | hp
      · exact hall p hp
      · rw [mem_singleton.mp hp]
        exact hone
    · rw [hbytes, flatten_append, flatten_singleton, append_assoc]
    · intro hon
      rw [messages, filterMap_append, filterMap_cons_none hnone, filterMap_nil, append_nil]
      exact hcount hon

theorem Placed.oversized (h : Placed c at_) (hskip : c.skipRemaining = 0)
    (hheader : decodeHeader (c.input.drop at_) = .ok header)
    (hbig : packetMax < header.headerLen + header.remaining) :
    Placed { c with skipRemaining := header.remaining } (at_ + header.headerLen) := by
  obtain ⟨packets, hall, hbytes, hcount⟩ := h.settled hskip
  obtain ⟨_, _, hlen⟩ := decodeHeader_bounds hheader
  refine ⟨packets, (c.input.drop at_).take header.headerLen, hall, ?_, ?_, hcount⟩
  · rw [hbytes, ← drop_drop, take_append_drop]
  · apply Passing.part header (decodeHeader_take_of_ok hheader (le_rfl)) hbig
    rw [length_take, min_eq_left hlen]

theorem Placed.handed (h : Placed c at_) (hsound : Sound c.trace) (hskip : c.skipRemaining = 0)
    (hheader : decodeHeader (c.input.drop at_) = .ok header)
    (hfit : header.headerLen + header.remaining ≤ packetMax)
    (hwhole : header.headerLen + header.remaining ≤ (c.input.drop at_).length)
    (hhanded : Handed c
      (messageOf header ((c.input.drop (at_ + header.headerLen)).take header.remaining)) c₁) :
    Sound c₁.trace ∧ Placed c₁ (at_ + (header.headerLen + header.remaining)) := by
  obtain ⟨packets, hall, hbytes, hcount⟩ := h.settled hskip
  let packet := (c.input.drop at_).take (header.headerLen + header.remaining)
  have hdecoded : decodeHeader packet = .ok header :=
    decodeHeader_take_of_ok hheader (Nat.le_add_right _ _)
  have hone : OnePacket packet := by
    refine ⟨header, hdecoded, ?_⟩
    rw [length_take, min_eq_left hwhole]
  have hmessage : messageIn packet =
      messageOf header ((c.input.drop (at_ + header.headerLen)).take header.remaining) := by
    rw [messageIn, hdecoded]
    simp only [if_pos hfit]
    rw [drop_take, drop_drop, Nat.add_sub_cancel_left]
  have hstream : readBytes c.trace = packets.flatten ++
      (packet ++ c.input.drop (at_ + (header.headerLen + header.remaining))) := by
    rw [hbytes, ← drop_drop, take_append_drop]
  have hall' : ∀ p ∈ packets ++ [packet], OnePacket p := by
    intro p hp
    rcases mem_append.mp hp with hp | hp
    · exact hall p hp
    · rw [mem_singleton.mp hp]
      exact hone
  have hflatten : readBytes c.trace = (packets ++ [packet]).flatten ++
      ([] ++ c.input.drop (at_ + (header.headerLen + header.remaining))) := by
    rw [hstream, flatten_append, flatten_singleton, append_assoc, nil_append]
  rw [← hmessage] at hhanded
  generalize hmsg : messageIn packet = message at hhanded
  cases hhanded with
  | silent hnone =>
    refine ⟨hsound, packets ++ [packet], [], hall', hflatten, ?_, ?_⟩
    · rw [hskip]
      exact .none
    · intro hon
      rw [hnone hon] at hmsg
      rw [messages, filterMap_append, filterMap_cons_none hmsg, filterMap_nil, append_nil]
      exact hcount hon
  | delivered hon topic payload =>
    have hnext : NextMessage c.trace packet topic payload :=
      ⟨⟨packets, _, hall, hstream, hcount hon⟩, hone, hmsg⟩
    refine ⟨hsound.delivered hnext, packets ++ [packet], [], hall', hflatten, ?_, ?_⟩
    · simp only [hskip]
      exact .none
    · intro _
      rw [messages, filterMap_append, filterMap_cons_some hmsg, filterMap_nil, length_append, heard]
      rw [length_append]
      exact congrArg (· + 1) (hcount hon)

/-- Whatever was delivered was the next message of what was read, which ends with the buffer. -/
structure Told (c : Core) : Prop where
  sound : Sound c.trace
  place : c.socket → Placed c 0
  idle : c.socket = false → c.input = [] ∧ c.skipRemaining = 0

theorem told_emptied (hsound : Sound c.trace) (h : Emptied c) : Told c :=
  ⟨hsound, fun hs => placed_anew h.1 h.2.1 (h.2.2 hs), fun _ => ⟨h.1, h.2.1⟩⟩

theorem told_compact (hsound : Sound s.core.trace) (hs : s.core.socket)
    (h : Placed s.core at_) : Told (compactIn s at_).core where
  sound := hsound
  place _ := h
  idle hclosed := by
    have hclosed : s.core.socket = false := hclosed
    rw [hs] at hclosed
    cases hclosed

theorem sound_nil : Sound [] := by
  intro _ _ u h
  cases suffix_nil.mp h

theorem handled_told (hcb : Reenters cb) (hq : Quiet s.core) (hs : s.core.socket)
    (hsound : Sound s.core.trace) (hplaced : Placed s.core at_)
    (hskip : ¬ s.client.skipRemaining > 0)
    (hheader : decodeHeader (s.client.input.drop at_) = .ok header)
    (hfit : ¬ header.remaining > packetMax - header.headerLen)
    (hall : ¬ s.client.input.length - at_ < header.headerLen + header.remaining)
    (hhandle : mqttHandle cb s header
      ((s.client.input.drop (at_ + header.headerLen)).take header.remaining) = (r, s')) :
    Sound s'.core.trace ∧
      HandledBuffer s.core (messageOf header
        ((s.client.input.drop (at_ + header.headerLen)).take header.remaining)) (r, s') ∧
      (s'.core.generation = s.core.generation → s'.core.socket →
        Placed s'.core (at_ + (header.headerLen + header.remaining))) := by
  have hbuffer := handled_buffer hcb hq hs hhandle
  obtain ⟨_, hhanded, hbuffered⟩ := hbuffer.handed
  have hroom : header.headerLen + header.remaining ≤ packetMax := header_fits hheader hfit
  have hwhole : header.headerLen + header.remaining ≤ (s.core.input.drop at_).length := by
    rw [length_drop]
    exact le_of_not_gt hall
  obtain ⟨hsound', hplaced'⟩ := hplaced.handed hsound (Nat.eq_zero_of_not_pos hskip) hheader hroom
    hwhole hhanded
  refine ⟨hsound'.undelivered hbuffered.undelivered, hbuffer, ?_⟩
  intro hg hsocket
  obtain ⟨_, _, _, hgen, _⟩ := hhanded.buffer
  obtain ⟨hi, hk, hm, haside⟩ := hbuffered.same (hg.trans hgen.symm) hsocket
  exact hplaced'.aside hi hk hm haside

theorem consumeFrom_told (hcb : Reenters cb) (hq : Quiet s.core) (hs : s.core.socket)
    (hsound : Sound s.core.trace) (hplaced : Placed s.core at_) :
    Told (consumeFrom cb fuel at_ s).2.core := by
  fun_induction consumeFrom cb fuel at_ s with
  | case1 | case4 | case7 => exact told_compact hsound hs hplaced
  | case2 _ at_ s c hskip chunk s' =>
    have hchunk : Placed s'.core (at_ + chunk) :=
      hplaced.skip hskip (min_le_right _ _) (min_le_left _ _)
    exact told_compact hsound hs hchunk
  | case3 _ at_ s c hskip chunk s' _ ih =>
    have hchunk : Placed s'.core (at_ + chunk) :=
      hplaced.skip hskip (min_le_right _ _) (min_le_left _ _)
    exact ih (quiet_skip hq hs) hs hsound hchunk
  | case5 _ _ s =>
    have hfailed : Buffered .app s.core (failOwn cb s .protocol 0).core ∧
        Emptied (failOwn cb s .protocol 0).core := failOwn_buffered hcb hq hs (by simp)
    exact told_emptied (hsound.undelivered hfailed.1.undelivered) hfailed.2
  | case6 _ at_ s c hskip header hheader _ s' ih =>
    have hzero : s.core.skipRemaining = 0 := Nat.eq_zero_of_not_pos hskip
    have hlarge : packetMax < header.headerLen + header.remaining := by omega
    have hbegun : Placed s'.core (at_ + header.headerLen) := hplaced.oversized hzero hheader hlarge
    exact ih (quiet_countSkipped (quiet_skip hq hs) hs) hs (hsound.cons (by simp))
      (hbegun.aside rfl rfl rfl (.one rfl _))
  | case8 _ _ s c hskip _ hheader hfit hall _ _ hhandle =>
    obtain ⟨hsound', hbuffer, _⟩ :=
      handled_told hcb hq hs hsound hplaced hskip hheader hfit hall hhandle
    exact told_emptied hsound' (hbuffer.gone rfl)
  | case9 _ _ s c hskip _ hheader hfit hall _ _ hhandle hnew =>
    obtain ⟨hsound', hbuffer, _⟩ :=
      handled_told hcb hq hs hsound hplaced hskip hheader hfit hall hhandle
    exact told_emptied hsound' (hbuffer.ended hs (.inl hnew))
  | case10 _ _ s c hskip _ hheader hfit hall _ _ hhandle _ hgone =>
    obtain ⟨hsound', hbuffer, _⟩ :=
      handled_told hcb hq hs hsound hplaced hskip hheader hfit hall hhandle
    exact told_emptied hsound' (hbuffer.ended hs (.inr (socket_gone hgone)))
  | case11 _ _ s c hskip _ hheader hfit hall _ _ hhandle hsame hsome ih =>
    obtain ⟨hsound', _, hplaced'⟩ :=
      handled_told hcb hq hs hsound hplaced hskip hheader hfit hall hhandle
    have hsocket := socket_held hsome
    exact ih ((handled_moves hcb hq hs hhandle).quiet hq) hsocket hsound'
      (hplaced' (not_not.mp hsame) hsocket)

theorem Told.buffered (ht : Told c) (h : Buffered who c c') : Told c' := by
  have hidle := h.idle ht.idle
  have hsound := ht.sound.undelivered h.undelivered
  cases h with
  | kept hi hk hs _ hm haside =>
    exact ⟨hsound, fun hopen => (ht.place (hs.symm.trans hopen)).aside hi hk hm haside, hidle⟩
  | emptied hi hk _ hafter => exact told_emptied hsound (emptied_of hi hk hafter)

theorem Placed.receive (h : Placed c 0) (bytes : Bytes) :
    Placed { c with input := c.input ++ bytes, trace := .read bytes :: c.trace } 0 := by
  obtain ⟨packets, part, hall, hbytes, hpassing, hcount⟩ := h
  refine ⟨packets, part, hall, ?_, hpassing, hcount⟩
  rw [readBytes, hbytes]
  simp only [drop_zero, append_assoc]

theorem told_survives (hcb : Reenters cb) : Survives cb Told where
  steps hq ht hsteps := hsteps.keeps_buffered hq (·.idle) ht (fun ht hb => ht.buffered hb)
  read bytes hq ht hs _ :=
    consumeFrom_told hcb (quiet_receive hq hs) hs (ht.sound.cons nofun)
      ((ht.place hs).receive bytes)

/-- Whatever the callbacks do, a message is delivered under the very topic of its packet if that
has no zero byte, so no two such topics are mixed up. -/
theorem run_delivers_topics (depth : Nat) (hasLoop : Bool) (world : World) (ops : List Op)
    (topic payload : Bytes) (u : List Event)
    (hdelivered : .delivered topic payload :: u <:+
      (run (callback depth) (boot hasLoop world) ops).trace)
    (hzero : ∀ packet wire, NextMessage u packet wire payload → 0 ∉ wire) :
    (∃ packet, NextMessage u packet topic payload) ∧
    ∀ topic' payload' u' packet' wire',
      .delivered topic' payload' :: u' <:+ (run (callback depth) (boot hasLoop world) ops).trace →
      NextMessage u' packet' wire' payload' → 0 ∉ wire' → wire' ≠ topic → topic' ≠ topic := by
  have hcb := callback_reenters depth
  have hboot : Told (boot hasLoop world).core := ⟨sound_nil, nofun, fun _ => ⟨rfl, rfl⟩⟩
  have hsound := ((told_survives hcb).run hcb ops (boot_quiet hasLoop world) hboot).sound
  obtain ⟨packet, wire, hnext, htopic⟩ := hsound topic payload u hdelivered
  rw [cString_eq (hzero packet wire hnext)] at htopic
  refine ⟨⟨packet, htopic ▸ hnext⟩, ?_⟩
  intro topic' payload' u' _ _ hdelivered' hnext' hzero' hdiffer
  obtain ⟨_, _, hfound, htopic'⟩ := hsound topic' payload' u' hdelivered'
  obtain ⟨_, hwire, _⟩ := hnext'.unique hfound
  rw [← hwire, cString_eq hzero'] at htopic'
  rw [htopic']
  exact hdiffer

/-- What a client hears that is connected, told that it is welcome, and then sent the packets. -/
def hearing (packets : List Bytes) : Sys :=
  run (callback 0)
    (boot true { reached with recvs := .ok [0x20, 2, 0, 0] :: packets.map .ok })
    (opening true)

def undeliver (t : List Event) : List Event :=
  (t.dropWhile fun e => e matches .delivered .. |> not).tail

theorem run_delivers_topics_plain :
    .delivered [97] [49] :: undeliver (hearing [[0x30, 4, 0, 1, 97, 49]]).trace <:+
      (hearing [[0x30, 4, 0, 1, 97, 49]]).trace ∧
    ∃ packet,
      NextMessage (undeliver (hearing [[0x30, 4, 0, 1, 97, 49]]).trace) packet [97] [49] := by
  have hdelivered : .delivered [97] [49] :: undeliver (hearing [[0x30, 4, 0, 1, 97, 49]]).trace <:+
      (hearing [[0x30, 4, 0, 1, 97, 49]]).trace := by decide
  have hnext : NextMessage (undeliver (hearing [[0x30, 4, 0, 1, 97, 49]]).trace)
      [0x30, 4, 0, 1, 97, 49] [97] [49] := by
    refine ⟨⟨[[0x20, 2, 0, 0]], [], ?_, by decide, by decide⟩, ⟨_, rfl, rfl⟩, by decide⟩
    exact forall_mem_singleton.mpr ⟨_, rfl, rfl⟩
  refine ⟨hdelivered, (run_delivers_topics 0 true _ _ [97] [49] _ hdelivered ?_).1⟩
  intro _ _ h
  obtain ⟨_, hwire, _⟩ := hnext.unique h
  rw [← hwire]
  decide

/-- A zero byte ends a topic for the application: two that differ are delivered as one. -/
theorem zero_byte_cuts_topic :
    let first := [0x30, 6, 0, 3, 97, 0, 98, 49]
    let second := [0x30, 6, 0, 3, 97, 0, 99, 50]
    readBytes (hearing [first, second]).trace = [0x20, 2, 0, 0] ++ first ++ second ∧
    messageIn first = some ([97, 0, 98], [49]) ∧ messageIn second = some ([97, 0, 99], [50]) ∧
    (heard (hearing [first, second]).trace).deliveries = [([97], [49]), ([97], [50])] := by
  refine ⟨?_, ?_, ?_, ?_⟩ <;> decide

end Inkwell.Mqtt
