import Inkwell.Net.Mqtt.History
import Inkwell.Net.Mqtt.Reference
import Inkwell.Net.Mqtt.Run

namespace Inkwell.Mqtt

def readBytes : List Event → Bytes
  | [] => []
  | .opened _ :: _ => []
  | .read bytes :: t => readBytes t ++ bytes
  | _ :: t => readBytes t

@[grind =] def heard : List Event → Parsed
  | [] => {}
  | .opened _ :: _ => {}
  | .delivered topic payload :: t =>
    { heard t with deliveries := (heard t).deliveries ++ [(topic, payload)] }
  | .skipped :: t => { heard t with skipped := (heard t).skipped + 1 }
  | .failed f :: t =>
    if f.byBroker then { heard t with closed := some (f.refusal, f.code) } else heard t
  | _ :: t => heard t

def openedStats : List Event → Stats
  | [] => {}
  | .opened stats :: _ => stats
  | _ :: t => openedStats t

/-- Nothing more is read once what has been read closes the connection. -/
def ReadOpen : List Event → Prop
  | .read _ :: t => (parse true (readBytes t)).closed = none
  | _ => True

def Event.unheard : Event → Bool
  | .opened _ | .read _ | .delivered .. | .skipped => false
  | .failed f => !f.byBroker
  | _ => true

structure SameStream (t t' : List Event) : Prop where
  bytes : readBytes t' = readBytes t
  heard : heard t' = heard t
  stats : openedStats t' = openedStats t
  reads : (∀ u ∈ t.tails, ReadOpen u) → ∀ u ∈ t'.tails, ReadOpen u

theorem SameStream.refl : SameStream t t := ⟨rfl, rfl, rfl, fun h => h⟩

theorem SameStream.cons (h : SameStream t t') (he : e.unheard) : SameStream t (e :: t') := by
  have hheard : Mqtt.heard (e :: t') = Mqtt.heard t' := by
    cases e with
    | failed f =>
      have hb : f.byBroker = false := by simpa [Event.unheard] using he
      simp [Mqtt.heard, hb]
    | opened | read | delivered | skipped => cases he
    | _ => rfl
  have hrest : readBytes (e :: t') = readBytes t' ∧ openedStats (e :: t') = openedStats t' ∧
      ReadOpen (e :: t') := by
    cases e with
    | opened | read | delivered | skipped => cases he
    | _ => exact ⟨rfl, rfl, trivial⟩
  refine ⟨hrest.1.trans h.bytes, hheard.trans h.heard, hrest.2.1.trans h.stats, ?_⟩
  intro hreads
  exact tails_cons_forall (h.reads hreads) hrest.2.2

theorem SameStream.one (he : e.unheard) : SameStream t (e :: t) := SameStream.refl.cons he

theorem Send.stream (h : Send o t o' t') : SameStream t t' := by
  cases h with
  | accepted | blocked | refused => exact .one rfl
  | drained | compacted => exact .refl

theorem SameStream.trans (h₁ : SameStream t₁ t₂) (h₂ : SameStream t₂ t₃) : SameStream t₁ t₃ :=
  ⟨h₂.bytes.trans h₁.bytes, h₂.heard.trans h₁.heard, h₂.stats.trans h₁.stats,
    fun h => h₂.reads (h₁.reads h)⟩

theorem Sends.stream (h : Sends o t o' t') : SameStream t t' := by
  induction h with
  | refl => exact .refl
  | tail _ hs ih => exact ih.trans hs.stream

theorem Pump.stream (h : Pump c c') : SameStream c.trace c'.trace := by
  cases h with
  | idle => exact .refl
  | subscribe | noRoom => exact (SameStream.one rfl).cons rfl

theorem Pump.inbound (h : Pump c c') :
    c'.input = c.input ∧ c'.skipRemaining = c.skipRemaining ∧
      (c'.received = c.received ∧ c'.skipped = c.skipped) ∧ c'.onMessage = c.onMessage := by
  cases h <;> exact ⟨rfl, rfl, ⟨rfl, rfl⟩, rfl⟩

theorem Goodbye.stream (h : Goodbye c t) : SameStream c.trace t := by
  cases h with
  | silent => exact .refl
  | said => exact (SameStream.one rfl).cons rfl

/-- The counters have gone up by what was heard on the connection. -/
structure Counted (received skipped : UInt32) (t : List Event) : Prop where
  messages : received = (openedStats t).received + UInt32.ofNat (heard t).deliveries.length
  passed : skipped = (openedStats t).skipped + UInt32.ofNat (heard t).skipped

theorem Counted.same (h : Counted n m t) (hs : SameStream t t') : Counted n m t' := by
  constructor
  · rw [hs.stats, hs.heard]
    exact h.messages
  · rw [hs.stats, hs.heard]
    exact h.passed

/-- What was read was made what the reference makes of it, and what is held back is no whole
packet yet. -/
structure Inbox (c : Core) : Prop where
  reads : ∀ u ∈ c.trace.tails, ReadOpen u
  parsed : parse true (readBytes c.trace) = heard c.trace
  opened : c.socket → (heard c.trace).closed = none ∧
    ∀ rest, parse true (readBytes c.trace ++ rest) = (heard c.trace).andThen
      (parse (c.state != .ready) ((c.input ++ rest).drop c.skipRemaining))
  closed : (heard c.trace).closed ≠ none →
    ∀ rest, parse true (readBytes c.trace ++ rest) = heard c.trace
  idle : c.socket = false → c.input = [] ∧ c.skipRemaining = 0
  counted : Counted c.received c.skipped c.trace
  message : c.state ≠ .off → c.onMessage

theorem Inbox.frame (hi : Inbox c) (hs : SameStream c.trace c'.trace)
    (hsocket : c'.socket = c.socket) (hinput : c'.input = c.input)
    (hskip : c'.skipRemaining = c.skipRemaining)
    (hready : (c'.state != .ready) = (c.state != .ready))
    (hcount : c'.received = c.received ∧ c'.skipped = c.skipped)
    (hmessage : c'.state ≠ .off → c'.onMessage) : Inbox c' where
  reads := hs.reads hi.reads
  parsed := by rw [hs.bytes, hs.heard]; exact hi.parsed
  opened := by rw [hsocket, hs.bytes, hs.heard, hinput, hskip, hready]; exact hi.opened
  closed := by rw [hs.bytes, hs.heard]; exact hi.closed
  idle := by rw [hsocket, hinput, hskip]; exact hi.idle
  counted := by rw [hcount.1, hcount.2]; exact hi.counted.same hs
  message := hmessage

theorem Inbox.shut (hi : Inbox c) (hs : SameStream c.trace c'.trace) (hsocket : c'.socket = false)
    (hempty : c'.input = [] ∧ c'.skipRemaining = 0)
    (hcount : c'.received = c.received ∧ c'.skipped = c.skipped)
    (hmessage : c'.state ≠ .off → c'.onMessage) : Inbox c' where
  reads := hs.reads hi.reads
  parsed := by rw [hs.bytes, hs.heard]; exact hi.parsed
  opened h := by
    rw [hsocket] at h
    cases h
  closed := by rw [hs.bytes, hs.heard]; exact hi.closed
  idle _ := hempty
  counted := by rw [hcount.1, hcount.2]; exact hi.counted.same hs
  message := hmessage

theorem inbox_opened {c : Core} (hreads : ∀ u ∈ t.tails, ReadOpen u)
    (htrace : c.trace = .opened stats :: t) (hready : c.state ≠ .ready)
    (hempty : c.input = [] ∧ c.skipRemaining = 0)
    (hcount : stats.received = c.received ∧ stats.skipped = c.skipped)
    (hmessage : c.onMessage) : Inbox c where
  reads := by
    rw [htrace]
    exact tails_cons_forall hreads trivial
  parsed := by rw [htrace]; rfl
  opened _ := by
    have hstate : (c.state != .ready) := bne_iff_ne.mpr hready
    rw [htrace, hempty.1, hempty.2, hstate]
    refine ⟨rfl, ?_⟩
    intro _
    exact Parsed.nil_andThen.symm
  closed h := by
    rw [htrace] at h
    exact absurd rfl h
  idle _ := hempty
  counted := by
    rw [htrace]
    refine ⟨?_, ?_⟩
    · rw [← hcount.1]
      exact (UInt32.add_zero _).symm
    · rw [← hcount.2]
      exact (UInt32.add_zero _).symm
  message _ := hmessage

/-- Runs in which every start gives a message callback, no write fails and no topic has a NUL. -/
structure Fair (t : List Event) : Prop where
  message : ∀ e ∈ t, e ≠ .started false
  writes : ∀ e ∈ t, e.writeFailed = false
  topics : ∀ u ∈ t.tails, ∀ d ∈ (parse true (readBytes u)).deliveries, 0 ∉ d.1

theorem fair_lasting : Lasting Fair := by
  intro t _ hs h
  exact ⟨lasting_mem (· ≠ .started false) hs h.message,
    lasting_mem (Event.writeFailed · = false) hs h.writes,
    lasting_tails (fun u => ∀ d ∈ (parse true (readBytes u)).deliveries, 0 ∉ d.1) hs h.topics⟩

theorem Prelude.inbox (h : Prelude who c b) (hq : Quiet c) (hi : Inbox c) (hok : Fair b.trace) :
    SameStream c.trace b.trace ∧ (b.input = [] ∧ b.skipRemaining = 0) ∧
      (b.received = c.received ∧ b.skipped = c.skipped) ∧ b.onMessage := by
  obtain ⟨_, hs, _, _⟩ := h.clean hq
  cases h with
  | start _ onMessage =>
    have hmessage : onMessage := by
      cases onMessage with
      | true => rfl
      | false =>
        exact absurd rfl (hok.message (.started false) (by simp [Core.attempting, Core.begun]))
    exact ⟨(SameStream.one rfl).cons rfl, ⟨rfl, rfl⟩, ⟨rfl, rfl⟩, hmessage⟩
  | retry _ h =>
    exact ⟨(SameStream.one rfl).cons rfl, hi.idle hs, ⟨rfl, rfl⟩, hi.message (by rw [h]; decide)⟩
  | resolved _ h => exact ⟨.refl, hi.idle hs, ⟨rfl, rfl⟩, hi.message (by rw [h]; decide)⟩

theorem Inbox.enter {c : Core} (h : Inbox { c with state := st }) : Inbox (c.enter st) :=
  enter_induction h (h.frame (.one rfl) rfl rfl rfl rfl ⟨rfl, rfl⟩ h.message)

theorem Inbox.failed {c b : Core} (hi : Inbox c) (hs : SameStream c.trace b.trace)
    (hcount : b.received = c.received ∧ b.skipped = c.skipped) (hmessage : b.onMessage)
    (hb : f.byBroker = false) : Inbox (b.failed f) := by
  have hunheard : (Event.failed f).unheard = true := by simp [Event.unheard, hb]
  exact Inbox.enter
    (hi.shut ((hs.cons hunheard).cons rfl) rfl ⟨rfl, rfl⟩ hcount (fun _ => hmessage))

theorem Quiet.not_off (hq : Quiet c) (hs : c.socket) : c.state ≠ .off := by
  intro h
  have hc := hq.socket.mp hs
  rw [h] at hc
  cases hc

theorem inbox_kept : Kept .loop Fair Inbox := by
  intro c _ hq hi ha hok
  cases ha with
  | clock => exact hi.frame (.refl) rfl rfl rfl rfl ⟨rfl, rfl⟩ hi.message
  | called | queued | cleared => exact hi.frame (.one rfl) rfl rfl rfl rfl ⟨rfl, rfl⟩ hi.message
  | moved hl => cases hl
  | received hl => cases hl
  | skipped hl => cases hl
  | delivered hl => cases hl
  | send _ h => exact hi.frame h.stream rfl rfl rfl rfl ⟨rfl, rfl⟩ hi.message
  | failed hv f _ hb =>
    rcases hb with hb | hl
    · exact hi.failed (.refl) ⟨rfl, rfl⟩ (hi.message (hq.not_off hv.1)) hb
    · cases hl
  | @connect b h _ hstats =>
    have hok' : Fair b.trace := by
      refine fair_lasting ?_ hok
      exact enter_grows (List.suffix_cons _ _)
    obtain ⟨hs, hempty, _, hmessage⟩ := h.inbox hq hi hok'
    exact Inbox.enter (inbox_opened (hs.reads hi.reads) rfl nofun hempty hstats hmessage)
  | @lookUp b h =>
    have hok' : Fair b.trace := by
      refine fair_lasting ?_ hok
      exact enter_grows List.suffix_rfl
    obtain ⟨_, hsocket, _, _⟩ := h.clean hq
    obtain ⟨hs, hempty, hcount, hmessage⟩ := h.inbox hq hi hok'
    exact Inbox.enter (hi.shut hs hsocket hempty hcount (fun _ => hmessage))
  | missed h f _ hb =>
    obtain ⟨hs, _, hcount, hmessage⟩ :=
      h.inbox hq hi (fair_lasting (failed_grows List.suffix_rfl) hok)
    exact hi.failed hs hcount hmessage hb
  | @refused b h stats hstats f _ hb =>
    have hok' : Fair b.trace := by
      refine fair_lasting ?_ hok
      exact failed_grows (List.suffix_cons _ _)
    obtain ⟨hs, hempty, _, hmessage⟩ := h.inbox hq hi hok'
    have hopened := inbox_opened (c := { b.opened stats with state := .connecting })
      (hs.reads hi.reads) rfl nofun hempty hstats hmessage
    exact hopened.failed (.refl) ⟨rfl, rfl⟩ hmessage hb
  | secure _ hs hr =>
    have hready : (c.state != .ready) := bne_iff_ne.mpr hr
    exact Inbox.enter (hi.frame (.refl) rfl rfl rfl hready.symm ⟨rfl, rfl⟩
      (fun _ => hi.message (hq.not_off hs)))
  | greet _ hs hr =>
    have hready : (c.state != .ready) := bne_iff_ne.mpr hr
    exact Inbox.enter (hi.frame (.refl) rfl rfl rfl hready.symm ⟨rfl, rfl⟩
      (fun _ => hi.message (hq.not_off hs)))
  | ignored hl => cases hl
  | answered hl => cases hl
  | addFilter _ _ _ _ _ h =>
    obtain ⟨hstate, hsocket, _⟩ := h.kept
    obtain ⟨hinput, hskip, hcount, hmessage⟩ := h.inbound
    refine hi.frame h.stream hsocket hinput hskip (by rw [hstate]) hcount ?_
    rw [hstate, hmessage]
    exact hi.message
  | stopped h hg =>
    exact Inbox.enter
      (hi.shut (hg.stream.cons rfl) rfl ⟨rfl, rfl⟩ ⟨rfl, rfl⟩ (fun h => absurd rfl h))
  | shutdown => exact hi.shut (.one rfl) rfl ⟨rfl, rfl⟩ ⟨rfl, rfl⟩ (fun h => absurd rfl h)

end Inkwell.Mqtt
