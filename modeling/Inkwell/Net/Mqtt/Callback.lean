import Inkwell.Net.Mqtt.Stream

namespace Inkwell.Mqtt
open Net

/-- What has come in on the current connection and what the application was given of it. -/
def taken (t : List Event) : Bytes × List (Bytes × Bytes) := (readBytes t, (heard t).deliveries)

inductive Undelivered (t : List Event) : List Event → Prop
  | refl : Undelivered t t
  | cons (h : Undelivered t t') (he : ∀ topic payload, e ≠ .delivered topic payload) :
    Undelivered t (e :: t')

theorem Undelivered.trans (h₁ : Undelivered t₁ t₂) (h₂ : Undelivered t₂ t₃) :
    Undelivered t₁ t₃ := by
  induction h₂ with
  | refl => exact h₁
  | cons _ he ih => exact ih.cons he

def Event.elsewhere : Event → Bool
  | .opened _ | .read _ | .delivered .. => false
  | _ => true

structure Aside (t t' : List Event) : Prop where
  undelivered : Undelivered t t'
  taken : Mqtt.taken t' = Mqtt.taken t

structure Anew (t t' : List Event) : Prop where
  undelivered : Undelivered t t'
  taken : Mqtt.taken t' = ([], [])

theorem Aside.refl (t : List Event) : Aside t t := ⟨.refl, rfl⟩

theorem Aside.trans (h₁ : Aside t₁ t₂) (h₂ : Aside t₂ t₃) : Aside t₁ t₃ :=
  ⟨h₁.undelivered.trans h₂.undelivered, h₂.taken.trans h₁.taken⟩

theorem Anew.aside (h₁ : Anew t₁ t₂) (h₂ : Aside t₂ t₃) : Anew t₁ t₃ :=
  ⟨h₁.undelivered.trans h₂.undelivered, h₂.taken.trans h₁.taken⟩

theorem Anew.after (h₁ : Undelivered t₁ t₂) (h₂ : Anew t₂ t₃) : Anew t₁ t₃ :=
  ⟨h₁.trans h₂.undelivered, h₂.taken⟩

theorem Aside.cons (h : Aside t t') (he : e.elsewhere) : Aside t (e :: t') := by
  constructor
  · apply h.undelivered.cons
    intro _ _ heq
    rw [heq] at he
    cases he
  · rw [← h.taken]
    cases e with
    | opened | read | delivered => cases he
    | failed f =>
      have hsame : (heard (.failed f :: t')).deliveries = (heard t').deliveries := by
        rw [heard]
        split <;> rfl
      exact Prod.ext rfl hsame
    | _ => rfl

theorem Aside.one (he : e.elsewhere) (t : List Event) : Aside t (e :: t) := (Aside.refl t).cons he

theorem Aside.opened (h : Aside t t') : Anew t (.opened stats :: t') :=
  ⟨h.undelivered.cons nofun, rfl⟩

theorem Send.aside (h : Send o t o' t') : Aside t t' := by
  cases h with
  | accepted | blocked | refused => exact .one rfl _
  | drained | compacted => exact .refl _

theorem Pump.aside (h : Pump c c') : Aside c.trace c'.trace := by
  cases h with
  | idle => exact .refl _
  | subscribe | noRoom => exact (Aside.one rfl _).cons rfl

theorem Goodbye.aside (h : Goodbye c t) : Aside c.trace t := by
  cases h with
  | silent => exact .refl _
  | said => exact (Aside.one rfl _).cons rfl

theorem enter_aside (c : Core) (st : State) : Aside c.trace (c.enter st).trace := by
  unfold Core.enter
  split
  · exact .refl _
  · exact .one rfl _

theorem answered_aside (c : Core) (n : Nat) (code : UInt8) :
    Aside c.trace (c.answered n code).trace := by
  unfold Core.answered
  split
  · exact ((Aside.one rfl _).cons rfl).cons rfl
  · exact (Aside.one rfl _).cons rfl

theorem Prelude.aside (h : Prelude who c b) : Aside c.trace b.trace := by
  cases h with
  | start | retry => exact (Aside.one rfl _).cons rfl
  | resolved => exact .refl _

/-! ### The inbound buffer under a callback

`mqtt_consume` holds a position into a buffer that a callback may empty. -/

/-- Where nothing is read the inbound buffer is left alone or emptied; the application empties it
only with the connection or the session gone. -/
inductive Buffered (who : Role) (c c' : Core) : Prop
  | kept (hi : c'.input = c.input) (hk : c'.skipRemaining = c.skipRemaining)
      (hs : c'.socket = c.socket) (hg : c'.generation = c.generation)
      (hm : c'.onMessage = c.onMessage) (ht : Aside c.trace c'.trace)
  | emptied (hi : c'.input = []) (hk : c'.skipRemaining = 0)
      (hgone : who = .app →
        c'.generation = c.generation ∧ c'.socket = false ∨ c.generation < c'.generation)
      (ht : Aside c.trace c'.trace ∧ c'.socket = false ∨ Anew c.trace c'.trace)

theorem Buffered.undelivered (h : Buffered who c c') : Undelivered c.trace c'.trace := by
  cases h with
  | kept _ _ _ _ _ ht => exact ht.undelivered
  | emptied _ _ _ ht => exact ht.elim (·.1.undelivered) (·.undelivered)

theorem Buffered.refl (c : Core) : Buffered who c c := .kept rfl rfl rfl rfl rfl (.refl _)

theorem Buffered.trans (h₁ : Buffered who a b) (h₂ : Buffered who b c) : Buffered who a c := by
  cases h₁ with
  | kept hi hk hs hg hm ht =>
    cases h₂ with
    | kept hi' hk' hs' hg' hm' ht' =>
      exact .kept (hi'.trans hi) (hk'.trans hk) (hs'.trans hs) (hg'.trans hg) (hm'.trans hm)
        (ht.trans ht')
    | emptied hi' hk' hgone ht' =>
      rw [hg] at hgone
      refine .emptied hi' hk' hgone ?_
      exact ht'.imp (fun h => ⟨ht.trans h.1, h.2⟩) (fun h => .after ht.undelivered h)
  | emptied hi hk hgone ht =>
    cases h₂ with
    | kept hi' hk' hs' hg' _ ht' =>
      rw [← hg', ← hs'] at hgone
      refine .emptied (hi'.trans hi) (hk'.trans hk) hgone ?_
      exact ht.imp (fun h => ⟨h.1.trans ht', hs'.trans h.2⟩) (fun h => h.aside ht')
    | emptied hi' hk' hgone' ht' =>
      refine .emptied hi' hk' ?_ ?_
      · intro happ
        have hthen := hgone' happ
        rcases hgone happ with ⟨hg, _⟩ | hg
        · rw [hg] at hthen
          exact hthen
        · rcases hthen with ⟨hg', _⟩ | hg'
          · exact .inr (hg' ▸ hg)
          · exact .inr (hg.trans hg')
      · rcases ht' with ⟨haside, hs⟩ | hanew
        · exact ht.imp (fun h => ⟨h.1.trans haside, hs⟩) (fun h => h.aside haside)
        · exact .inr (.after (ht.elim (·.1.undelivered) (·.undelivered)) hanew)

/-- Nothing to read of the session that ended, and nothing come in where there is a connection
again. -/
def Emptied (c : Core) : Prop :=
  c.input = [] ∧ c.skipRemaining = 0 ∧ (c.socket → taken c.trace = ([], []))

theorem emptied_of {c c' : Core} (hi : c'.input = []) (hk : c'.skipRemaining = 0)
    (ht : Aside c.trace c'.trace ∧ c'.socket = false ∨ Anew c.trace c'.trace) : Emptied c' := by
  refine ⟨hi, hk, ?_⟩
  intro hopen
  rcases ht with ⟨_, hclosed⟩ | hanew
  · rw [hopen] at hclosed
    cases hclosed
  · exact hanew.taken

def Idle (c : Core) : Prop := c.socket = false → c.input = [] ∧ c.skipRemaining = 0

theorem Buffered.idle (h : Buffered who c c') (hidle : Idle c) : Idle c' := by
  intro hs
  cases h with
  | kept hi hk hsocket =>
    rw [hi, hk]
    exact hidle (hsocket.symm.trans hs)
  | emptied hi hk => exact ⟨hi, hk⟩

theorem Buffered.same (h : Buffered .app c c') (hg : c'.generation = c.generation)
    (hs : c'.socket) :
    c'.input = c.input ∧ c'.skipRemaining = c.skipRemaining ∧ c'.onMessage = c.onMessage ∧
      Aside c.trace c'.trace := by
  cases h with
  | kept hi hk _ _ hm ht => exact ⟨hi, hk, hm, ht⟩
  | emptied _ _ hgone =>
    rcases hgone rfl with ⟨_, hsocket⟩ | hnew
    · rw [hs] at hsocket
      cases hsocket
    · exact absurd hg (ne_of_gt hnew)

theorem Buffered.gone (h : Buffered who c c') (hs : c.socket)
    (hgone : c'.generation ≠ c.generation ∨ c'.socket = false) : Emptied c' := by
  cases h with
  | kept _ _ hsocket hg =>
    rcases hgone with hnew | hclosed
    · exact absurd hg hnew
    · rw [hsocket, hs] at hclosed
      cases hclosed
  | emptied hi hk _ ht => exact emptied_of hi hk ht

theorem Pump.buffered (h : Pump c c') : Buffered who c c' := by
  have ht := h.aside
  cases h with
  | idle => exact .refl c
  | subscribe | noRoom => exact .kept rfl rfl rfl rfl rfl ht

theorem enter_onMessage (c : Core) (st : State) : (c.enter st).onMessage = c.onMessage := by
  unfold Core.enter
  split <;> rfl

theorem buffered_enter (h : Buffered who c b) : Buffered who c (b.enter st) := by
  obtain ⟨_, hs, hg, hi, hk, _⟩ := enter_fields b
  exact h.trans (.kept hi hk hs hg (enter_onMessage b st) (enter_aside b st))

theorem buffered_failed (c : Core) (f : Failure) : Buffered who c (c.failed f) := by
  have hcons : Aside c.trace (.armed c.nowMs (c.nowMs + backoffDelay (countFailure c.failures)) ::
      .failed f :: c.trace) := (Aside.one rfl _).cons rfl
  refine buffered_enter ?_
  exact .emptied rfl rfl (fun _ => .inl ⟨rfl, rfl⟩) (.inl ⟨hcons, rfl⟩)

theorem Prelude.emptied (h : Prelude who c b) (hidle : who ≠ .app → Quiet c ∧ Idle c) :
    b.input = [] ∧ b.skipRemaining = 0 ∧ b.socket = false ∧
      (who = .app → c.generation < b.generation) := by
  cases h with
  | start => exact ⟨rfl, rfl, rfl, fun _ => lt_add_one _⟩
  | retry hw hst nowMs hdue =>
    obtain ⟨hq, hempty⟩ := hidle hw
    have hs := ((Prelude.retry hw hst nowMs hdue).clean hq).2.1
    obtain ⟨hi, hk⟩ := hempty hs
    exact ⟨hi, hk, hs, fun happ => absurd happ hw⟩
  | resolved hw hst =>
    obtain ⟨hq, hempty⟩ := hidle hw
    have hs := ((Prelude.resolved hw hst).clean hq).2.1
    obtain ⟨hi, hk⟩ := hempty hs
    exact ⟨hi, hk, hs, fun happ => absurd happ hw⟩

theorem Act.buffered (h : Act who c c') (hw : who ≠ .reader)
    (hidle : who ≠ .app → Quiet c ∧ Idle c) : Buffered who c c' := by
  cases h with
  | clock => exact .kept rfl rfl rfl rfl rfl (.refl _)
  | called | queued | cleared => exact .kept rfl rfl rfl rfl rfl (.one rfl _)
  | moved hl => exact absurd hl hw
  | received hl => exact absurd hl hw
  | skipped hl => exact absurd hl hw
  | delivered hl => exact absurd hl hw
  | send _ h => exact .kept rfl rfl rfl rfl rfl h.aside
  | failed _ f => exact buffered_failed c f
  | connect h =>
    obtain ⟨hi, hk, _, hnew⟩ := h.emptied hidle
    apply buffered_enter
    exact .emptied hi hk (fun happ => .inr (hnew happ)) (.inr h.aside.opened)
  | lookUp h =>
    obtain ⟨hi, hk, hs, hnew⟩ := h.emptied hidle
    apply buffered_enter
    exact .emptied hi hk (fun happ => .inr (hnew happ)) (.inl ⟨h.aside, hs⟩)
  | missed h f =>
    obtain ⟨hi, hk, hs, hnew⟩ := h.emptied hidle
    have hbegun : Buffered who c _ :=
      .emptied hi hk (fun happ => .inr (hnew happ)) (.inl ⟨h.aside, hs⟩)
    exact hbegun.trans (buffered_failed _ f)
  | @refused b h stats _ f =>
    obtain ⟨hi, hk, _, hnew⟩ := h.emptied hidle
    have hopened : Buffered who c (b.opened stats) :=
      .emptied hi hk (fun happ => .inr (hnew happ)) (.inr h.aside.opened)
    exact hopened.trans (buffered_failed _ f)
  | secure | greet =>
    apply buffered_enter
    exact .kept rfl rfl rfl rfl rfl (.refl _)
  | ignored hl => exact absurd hl hw
  | answered hl => exact absurd hl hw
  | addFilter filter _ _ _ _ h =>
    have hadded : Buffered who c { c with filters := c.filters ++ [filter] } :=
      .kept rfl rfl rfl rfl rfl (.refl _)
    exact hadded.trans h.buffered
  | stopped h hg =>
    apply buffered_enter
    exact .emptied rfl rfl (fun _ => .inr (lt_add_one _)) (.inl ⟨hg.aside.cons rfl, rfl⟩)
  | shutdown hl => exact .emptied rfl rfl (fun happ => absurd happ hl) (.inl ⟨.one rfl _, rfl⟩)

theorem Calls.buffered (h : Calls c c') : Buffered .app c c' := by
  induction h with
  | refl => exact .refl c
  | tail _ ha ih => exact ih.trans (ha.buffered nofun (fun happ => absurd rfl happ))

theorem Steps.keeps_buffered {p : Core → Prop} (h : Steps .loop c c') (hq : Quiet c)
    (hidle : ∀ {c}, p c → Idle c) (hp : p c)
    (hkept : ∀ {a b}, p a → Buffered .loop a b → p b) : p c' := by
  induction h with
  | refl => exact hp
  | tail hsteps ha ih =>
    have hquiet := Steps.quiet hsteps hq
    exact hkept ih (ha.buffered nofun (fun _ => ⟨hquiet, hidle ih⟩))

theorem failOwn_buffered (hcb : Reenters cb) (hq : Quiet s.core) (hs : s.core.socket)
    (h : refusal ≠ .none) : Buffered .app s.core (failOwn cb s refusal code).core ∧
      Emptied (failOwn cb s refusal code).core := by
  have hfailed : Buffered .app s.core _ := buffered_failed s.core { refusal, code }
  have hquiet : Quiet (s.core.failed { refusal, code }) :=
    quiet_failed (hq.fresh_of_socket hs) (own_oneHalf h) hq.filters
  have hcalls : Calls (s.core.failed { refusal, code }) (failOwn cb s refusal code).core :=
    fail_calls hcb hquiet
  have hall := hfailed.trans hcalls.buffered
  refine ⟨hall, hall.gone hs ?_⟩
  have hwaiting : (s.core.failed { refusal, code }).socket = false := (enter_fields _).2.1
  have hgen : (s.core.failed { refusal, code }).generation = s.core.generation :=
    failed_generation _
  cases hcalls.buffered with
  | kept _ _ hsocket => exact .inr (hsocket.trans hwaiting)
  | emptied _ _ hgone =>
    rw [hgen] at hgone
    rcases hgone rfl with ⟨_, hclosed⟩ | hnew
    · exact .inr hclosed
    · exact .inl (ne_of_gt hnew)

theorem pump_buffered (hcb : Reenters cb) (hq : Quiet s.core) :
    Buffered .app s.core (mqttPumpSubscribes cb s).core := by
  obtain ⟨_, hpump, hsteps⟩ := mqttPumpSubscribes_steps hcb hq .app
  exact hpump.buffered.trans (Calls.buffered hsteps)

/-- The client once a packet's message, if it has one and somebody listens, has been handed over. -/
inductive Handed (c : Core) : Option (Bytes × Bytes) → Core → Prop
  | silent (h : c.onMessage → message = none) : Handed c message c
  | delivered (h : c.onMessage) (topic payload : Bytes) :
    Handed c (some (topic, payload)) { c with
      received := c.received + 1, trace := .delivered (cString topic) payload :: c.trace }

/-- A handler hands over the message and leaves the buffer alone or empties it; it has if it says
that the connection is gone. -/
structure HandledBuffer (c : Core) (message : Option (Bytes × Bytes)) (w : Bool × Sys) : Prop where
  handed : ∃ c₁, Handed c message c₁ ∧ Buffered .app c₁ w.2.core
  gone : w.1 = false → Emptied w.2.core

theorem Handed.buffer (h : Handed c message c₁) :
    c₁.input = c.input ∧ c₁.skipRemaining = c.skipRemaining ∧ c₁.socket = c.socket ∧
      c₁.generation = c.generation ∧ c₁.onMessage = c.onMessage := by
  cases h with
  | silent | delivered => exact ⟨rfl, rfl, rfl, rfl, rfl⟩

theorem HandledBuffer.same (h : HandledBuffer c message (r, s))
    (hg : s.core.generation = c.generation) (hs : s.core.socket) : s.core.input = c.input := by
  obtain ⟨_, hhanded, hbuffered⟩ := h.handed
  obtain ⟨hi, _, _, hgen, _⟩ := hhanded.buffer
  exact (hbuffered.same (hg.trans hgen.symm) hs).1.trans hi

theorem HandledBuffer.ended (h : HandledBuffer c message (r, s)) (hs : c.socket)
    (hgone : s.core.generation ≠ c.generation ∨ s.core.socket = false) : Emptied s.core := by
  obtain ⟨_, hhanded, hbuffered⟩ := h.handed
  obtain ⟨_, _, hsocket, hgen, _⟩ := hhanded.buffer
  rw [← hgen] at hgone
  exact hbuffered.gone (hsocket.trans hs) hgone

theorem handledBuffer_fail (hcb : Reenters cb) (hq : Quiet s.core) (hs : s.core.socket)
    (h : refusal ≠ .none) : HandledBuffer s.core none (false, failOwn cb s refusal code) := by
  obtain ⟨hb, hgone⟩ := failOwn_buffered hcb hq hs h
  exact ⟨⟨_, .silent (fun _ => rfl), hb⟩, fun _ => hgone⟩

theorem handledBuffer_true (h : Buffered .app c s.core) : HandledBuffer c none (true, s) :=
  ⟨⟨_, .silent (fun _ => rfl), h⟩, nofun⟩

theorem handled_buffer (hcb : Reenters cb) (hq : Quiet s.core) (hs : s.core.socket)
    (hw : mqttHandle cb s header body = w) : HandledBuffer s.core (messageOf header body) w := by
  have haccepted : Buffered .app s.core s.core.accepted := by
    apply buffered_enter
    exact .kept rfl rfl rfl rfl rfl (.refl _)
  have hhandles := mqttHandle_handles hcb hq hs hw
  generalize messageOf header body = message at hhandles ⊢
  cases hhandles with
  | refused h => exact handledBuffer_fail hcb hq hs h
  | replaced _ _ hcalls hnew =>
    have hall := haccepted.trans hcalls.buffered
    exact ⟨⟨_, .silent (fun _ => rfl), hall⟩, fun _ => hall.gone hs (.inl hnew)⟩
  | @accepted s' _ _ hcalls =>
    have hagain : Buffered .app s'.core (resubscribe s').core :=
      .kept rfl rfl rfl rfl rfl (.one rfl _)
    have hquiet : Quiet (resubscribe s').core :=
      quiet_resubscribed (hcalls.quiet (quiet_accepted hq hs))
    have hall := haccepted.trans hcalls.buffered
    exact handledBuffer_true (hall.trans (hagain.trans (pump_buffered hcb hquiet)))
  | strayed | skipped => exact handledBuffer_true (.kept rfl rfl rfl rfl rfl (.one rfl _))
  | @answered s' _ _ hcore =>
    have hanswered : Buffered .app s.core s'.core := by
      rw [hcore]
      exact .kept rfl rfl rfl rfl rfl (answered_aside _ _ _)
    exact handledBuffer_true (hanswered.trans (pump_buffered hcb (hcore ▸ quiet_answered hq)))
  | ignored _ h => exact ⟨⟨_, .silent h, .refl _⟩, nofun⟩
  | delivered _ h topic payload =>
    exact ⟨⟨_, .delivered h _ _, Calls.buffered (hcb.called _ (quiet_deliver hq hs) .app)⟩, nofun⟩

end Inkwell.Mqtt
