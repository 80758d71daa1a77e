import Inkwell.Net.Mqtt.Filters

namespace Inkwell.Mqtt
open List Inkwell.Runtime

def subscribeOf (packet : Bytes) : Option (Nat × Bytes) :=
  match readPacket packet with
  | some (.subscribe n filter _) => some (n, filter)
  | _ => none

/-- The SUBSCRIBEs queued on the current connection, oldest first. -/
def subscribes : List Event → List (Nat × Bytes)
  | [] => []
  | .opened _ :: _ => []
  | .queued packet :: t => subscribes t ++ (subscribeOf packet).toList
  | _ :: t => subscribes t

def subacks : List Event → Bytes
  | [] => []
  | .opened _ :: _ => []
  | .suback _ _ code :: t => subacks t ++ [code]
  | _ :: t => subacks t

def verdicts : List Event → List (Bytes × UInt8)
  | [] => []
  | .opened _ :: _ => []
  | .verdict filter code :: t => verdicts t ++ [(filter, code)]
  | _ :: t => verdicts t

def sentFilters : List Event → List Bytes
  | [] => []
  | .opened _ :: _ => []
  | .cleared _ :: _ => []
  | .queued packet :: t => sentFilters t ++ ((subscribeOf packet).map Prod.snd).toList
  | _ :: t => sentFilters t

/-- A SUBACK answers the first SUBSCRIBE of the connection that has no answer yet. -/
def answersNext : List Event → Bool
  | .suback n _ _ :: t => ((subscribes t)[(subacks t).length]?).map Prod.fst == some n
  | _ => true

/-- Nothing but an answer ends a SUBSCRIBE in flight, and none is put off for want of room. -/
def Event.undisturbed : Event → Bool
  | .resubscribed inFlight | .cleared inFlight => inFlight == 0
  | .noRoom => false
  | _ => true

/-- A broker that answers in order, a client that leaves a SUBSCRIBE in flight alone. -/
structure Calm (t : List Event) : Prop where
  honest : ∀ u ∈ t.tails, answersNext u
  undisturbed : ∀ e ∈ t, e.undisturbed

theorem calm_lasting : Lasting Calm := by
  intro t _ hs h
  exact ⟨lasting_tails (answersNext ·) hs h.honest,
    lasting_mem (Event.undisturbed ·) hs h.undisturbed⟩

structure InStep (t : List Event) : Prop where
  outstanding : (subscribes t).length ≤ (subacks t).length + 1
  once : (sentFilters t).Nodup
  attributed : verdicts t <+: ((subscribes t).map Prod.snd).zip (subacks t)

def Event.aside : Event → Bool
  | .opened _ | .queued _ | .suback .. | .verdict .. | .cleared _ => false
  | _ => true

structure SameExchange (t t' : List Event) : Prop where
  subscribes : subscribes t' = subscribes t
  subacks : subacks t' = subacks t
  verdicts : verdicts t' = verdicts t
  sent : sentFilters t' = sentFilters t

theorem SameExchange.aside (h : e.aside) (t : List Event) : SameExchange t (e :: t) := by
  cases e <;> first | exact ⟨rfl, rfl, rfl, rfl⟩ | cases h

theorem SameExchange.queued (h : subscribeOf packet = none) (t : List Event) :
    SameExchange t (.queued packet :: t) := by
  refine ⟨?_, rfl, rfl, ?_⟩
  · rw [Mqtt.subscribes, h, Option.toList_none, append_nil]
  · rw [sentFilters, h, Option.map_none, Option.toList_none, append_nil]

theorem InStep.same (h : InStep t) (hsame : SameExchange t t') : InStep t' := by
  constructor
  · rw [hsame.subscribes, hsame.subacks]
    exact h.outstanding
  · rw [hsame.sent]
    exact h.once
  · rw [hsame.subscribes, hsame.subacks, hsame.verdicts]
    exact h.attributed

/-- `place` filters are dealt with, and `flight` is the id of the SUBSCRIBE that awaits its
answer, or 0. -/
structure Account (filters : List Bytes) (place flight : Nat) (t : List Event) : Prop where
  settled : flight = 0 → (subscribes t).length = (subacks t).length
  awaited : flight ≠ 0 → ∃ before, subscribes t = before ++ [(flight, filters.getD place [])] ∧
    before.length = (subacks t).length
  sent : sentFilters t = filters.take (if flight = 0 then place else place + 1)
  taken : verdicts t = ((subscribes t).map Prod.snd).zip (subacks t)

theorem Account.same (h : Account filters place flight t) (hsame : SameExchange t t') :
    Account filters place flight t' := by
  constructor
  · rw [hsame.subscribes, hsame.subacks]
    exact h.settled
  · rw [hsame.subscribes, hsame.subacks]
    exact h.awaited
  · rw [hsame.sent]
    exact h.sent
  · rw [hsame.subscribes, hsame.subacks, hsame.verdicts]
    exact h.taken

theorem Account.inStep (h : Account filters place flight t) (hnodup : filters.Nodup) :
    InStep t where
  outstanding := by
    by_cases hflight : flight = 0
    · rw [h.settled hflight]
      exact Nat.le_succ _
    · obtain ⟨_, hsubs, hlen⟩ := h.awaited hflight
      rw [hsubs, length_append, hlen]
      exact le_rfl
  once := by
    rw [h.sent]
    exact hnodup.sublist (take_sublist _ _)
  attributed := by rw [h.taken]

theorem account_opened : Account filters 0 0 (.opened stats :: t) :=
  ⟨fun _ => rfl, fun h => absurd rfl h, rfl, rfl⟩

theorem inStep_opened : InStep (.opened stats :: t) := account_opened.inStep nodup_nil

theorem zip_unanswered (h : xs.length = ys.length) : (xs ++ [x]).zip ys = xs.zip ys := by
  have hzip : (xs ++ [x]).zip (ys ++ []) = xs.zip ys ++ [x].zip [] := zip_append h
  simpa using hzip

theorem Account.subscribe (h : Account filters place 0 t) (hlt : place < filters.length)
    (hpacket : subscribeOf packet = some (place + 1, filters.getD place [])) :
    Account filters place (place + 1) (.queued packet :: t) := by
  have hlen := h.settled rfl
  constructor
  · exact nofun
  · intro _
    refine ⟨subscribes t, ?_, hlen⟩
    rw [subscribes, hpacket, Option.toList_some]
  · have hsent := h.sent
    rw [if_pos rfl] at hsent
    rw [sentFilters, hpacket, Option.map_some, Option.toList_some, hsent,
      if_neg (Nat.succ_ne_zero _), take_add_one, getD_eq_getElem _ _ hlt,
      getElem?_eq_getElem hlt, Option.toList_some]
  · have hsubs : subscribes (.queued packet :: t) =
        subscribes t ++ [(place + 1, filters.getD place [])] := by
      rw [subscribes, hpacket, Option.toList_some]
    rw [hsubs, map_append]
    exact h.taken.trans (zip_unanswered (by rw [length_map]; exact hlen)).symm

theorem Account.suback (h : Account filters place flight t) (hflight : flight ≠ 0)
    (hstep : InStep t) : InStep (.suback flight flight code :: t) := by
  obtain ⟨before, hsubs, hlen⟩ := h.awaited hflight
  have hlen' : (before.map Prod.snd).length = (subacks t).length := by rw [length_map, hlen]
  refine ⟨hstep.outstanding.trans ?_, hstep.once, ?_⟩
  · rw [subacks, length_append]
    omega
  · have htaken := h.taken
    rw [hsubs, map_append, map_singleton, zip_unanswered hlen'] at htaken
    rw [verdicts, subscribes, subacks, htaken, hsubs, map_append, map_singleton, zip_append hlen']
    · exact prefix_append _ _
    all_goals exact nofun

theorem Account.answered (h : Account filters place flight t) (hflight : flight ≠ 0) (code : UInt8)
    (hsame : SameExchange (.suback flight flight code :: t) t') :
    Account filters (place + 1) 0 (.verdict (filters.getD place []) code :: t') := by
  obtain ⟨before, hsubs, hlen⟩ := h.awaited hflight
  have hlen' : (before.map Prod.snd).length = (subacks t).length := by rw [length_map, hlen]
  have hsubs' : subscribes t' = before ++ [(flight, filters.getD place [])] :=
    hsame.subscribes.trans hsubs
  have hacks' : subacks t' = subacks t ++ [code] := hsame.subacks
  constructor
  · intro _
    rw [subscribes, subacks, hsubs', hacks', length_append, length_append, hlen]
    · rfl
    all_goals exact nofun
  · exact fun h => absurd rfl h
  · have hsent := h.sent
    rw [if_neg hflight] at hsent
    exact hsame.sent.trans hsent
  · have htaken := h.taken
    rw [hsubs, map_append, map_singleton, zip_unanswered hlen'] at htaken
    have hverdicts : verdicts t' = verdicts t := hsame.verdicts
    rw [verdicts, subscribes, subacks, hverdicts, htaken, hsubs', hacks', map_append,
      map_singleton, zip_append hlen']
    · rfl
    all_goals exact nofun

theorem Account.add (h : Account filters place flight t) (ha : Aligned filters place flight)
    (filter : Bytes) : Account (filters ++ [filter]) place flight t where
  settled := h.settled
  awaited := by
    intro hflight
    obtain ⟨_, hlt⟩ := ha.in_flight hflight
    rw [getD_append _ _ _ _ hlt]
    exact h.awaited hflight
  sent := by
    rw [h.sent, take_append_of_le_length]
    split
    · exact ha.sent_le
    · rename_i hflight
      exact (ha.in_flight hflight).2
  taken := h.taken

theorem Account.cleared (h : Account filters place 0 t) : Account [] 0 0 (.cleared 0 :: t) where
  settled := h.settled
  awaited := fun h => absurd rfl h
  sent := rfl
  taken := h.taken

def Seen (t : List Event) : Prop := ∀ u ∈ t.tails, InStep u

theorem Seen.here (h : Seen t) : InStep t := h t ((mem_tails _ _).mpr suffix_rfl)

theorem Seen.cons (h : Seen t) (he : InStep (e :: t)) : Seen (e :: t) := tails_cons_forall h he

theorem Seen.aside (h : Seen t) (he : e.aside) : Seen (e :: t) := h.cons (h.here.same (.aside he t))

structure Exchange (c : Core) : Prop where
  seen : Seen c.trace
  account : c.socket = true → Account c.filters c.filterSent c.subscribeId c.trace
  before : c.state ≠ .ready → c.filterSent = 0 ∧ c.subscribeId = 0

theorem Exchange.aside (h : Exchange c) (he : e.aside) : Exchange (c.log e) :=
  ⟨h.seen.aside he, fun hs => (h.account hs).same (.aside he _), h.before⟩

theorem exchange_enter {c : Core} (hseen : Seen c.trace)
    (haccount : c.socket = true → Account c.filters c.filterSent c.subscribeId c.trace)
    (hstart : c.filterSent = 0 ∧ c.subscribeId = 0) : Exchange (c.enter st) := by
  unfold Core.enter
  split
  · exact ⟨hseen, haccount, fun _ => hstart⟩
  · exact ⟨hseen.aside rfl, fun hs => (haccount hs).same (.aside rfl _), fun _ => hstart⟩

theorem exchange_closed {c : Core} (hseen : Seen c.trace) (hs : c.socket = false)
    (hstart : c.filterSent = 0 ∧ c.subscribeId = 0) : Exchange c := by
  refine ⟨hseen, ?_, fun _ => hstart⟩
  intro h
  rw [hs] at h
  cases h

theorem exchange_failed {c : Core} (hseen : Seen c.trace) : Exchange (c.failed f) :=
  exchange_enter ((hseen.aside rfl).aside rfl) nofun ⟨rfl, rfl⟩

theorem Prelude.exchange (h : Prelude who c b) (hx : Exchange c) :
    Seen b.trace ∧ b.filterSent = 0 ∧ b.subscribeId = 0 := by
  cases h with
  | start => exact ⟨(hx.seen.aside rfl).aside rfl, rfl, rfl⟩
  | retry _ h => exact ⟨(hx.seen.aside rfl).aside rfl, hx.before (by rw [h]; decide)⟩
  | resolved _ h => exact ⟨hx.seen, hx.before (by rw [h]; decide)⟩

theorem Pump.exchange (h : Pump c c') (hq : Quiet c) (hx : Exchange c) (hok : Calm c'.trace) :
    Exchange c' := by
  cases h with
  | idle => exact hx
  | subscribe hr hi hf packet hp =>
    have hpacket : subscribeOf packet =
        some (c.filterSent + 1, c.filters.getD c.filterSent []) := by rw [subscribeOf, hp]
    have haccount := (hx.account (hq.ready_live hr .reader).1).same
      (.aside (e := .filterRead c.filterSent c.filters.length) rfl _)
    rw [hi] at haccount
    have haccount' := haccount.subscribe hf hpacket
    refine ⟨(hx.seen.aside rfl).cons (haccount'.inStep hq.filters.nodup), fun _ => haccount', ?_⟩
    intro h
    exact absurd hr h
  | noRoom => cases hok.undisturbed .noRoom mem_cons_self

theorem Goodbye.seen (h : Goodbye c t) (hs : Seen c.trace) : Seen t := by
  cases h with
  | silent => exact hs
  | said => exact (hs.aside rfl).aside rfl

theorem Send.seen (h : Send o t o' t') (hs : Seen t) : Seen t' ∧ SameExchange t t' := by
  cases h with
  | accepted | blocked | refused => exact ⟨hs.aside rfl, .aside rfl _⟩
  | drained | compacted => exact ⟨hs, ⟨rfl, rfl, rfl, rfl⟩⟩

theorem Exchange.suback_awaited (hx : Exchange c) (hs : c.socket)
    (h : answersNext (.suback n c.subscribeId code :: c.trace)) :
    c.subscribeId ≠ 0 ∧ n = c.subscribeId := by
  have hnext : ((subscribes c.trace)[(subacks c.trace).length]?).map Prod.fst = some n :=
    beq_iff_eq.mp h
  have haccount := hx.account hs
  by_cases hflight : c.subscribeId = 0
  · rw [getElem?_eq_none (le_of_eq (haccount.settled hflight))] at hnext
    cases hnext
  · obtain ⟨_, hsubs, hlen⟩ := haccount.awaited hflight
    rw [hsubs, ← hlen, getElem?_concat_length] at hnext
    cases hnext
    exact ⟨hflight, rfl⟩

theorem Exchange.answered (hx : Exchange c) (hs : c.socket) (hflight : c.subscribeId ≠ 0)
    (hnodup : c.filters.Nodup) (code : UInt8) : Exchange (c.answered c.subscribeId code) := by
  have haccount := hx.account hs
  have hready : c.state = .ready := by
    by_contra h
    exact hflight (hx.before h).2
  have hsuback : Seen (.suback c.subscribeId c.subscribeId code :: c.trace) :=
    hx.seen.cons (haccount.suback hflight hx.seen.here)
  unfold Core.answered
  split
  · have hanswered := haccount.answered hflight code
      (.aside (e := .filterRead c.filterSent c.filters.length) rfl _)
    exact ⟨(hsuback.aside rfl).cons (hanswered.inStep hnodup), fun _ => hanswered,
      fun h => absurd hready h⟩
  · have hanswered := haccount.answered hflight code ⟨rfl, rfl, rfl, rfl⟩
    exact ⟨hsuback.cons (hanswered.inStep hnodup), fun _ => hanswered, fun h => absurd hready h⟩

theorem Exchange.act (hx : Exchange c) (hq : Quiet c) (ht : Table c) (ha : Act .reader c c')
    (hok : Calm c'.trace) : Exchange c' := by
  cases ha with
  | clock | moved => exact ⟨hx.seen, hx.account, hx.before⟩
  | called => exact hx.aside rfl
  | received _ _ bytes =>
    have hlog : Exchange (c.log (.read bytes)) := hx.aside rfl
    exact ⟨hlog.seen, hlog.account, hlog.before⟩
  | skipped =>
    have hlog : Exchange (c.log .skipped) := hx.aside rfl
    exact ⟨hlog.seen, hlog.account, hlog.before⟩
  | delivered _ _ topic payload =>
    have hlog : Exchange (c.log (.delivered topic payload)) := hx.aside rfl
    exact ⟨hlog.seen, hlog.account, hlog.before⟩
  | send _ h =>
    obtain ⟨hseen, hsame⟩ := h.seen hx.seen
    exact ⟨hseen, fun hs => (hx.account hs).same hsame, hx.before⟩
  | queued _ packet p hp hn =>
    have hpacket : subscribeOf packet = none := by
      rw [subscribeOf, hp]
      cases p with
      | subscribe n f q => exact absurd rfl (hn n f q)
      | _ => rfl
    have hsame := SameExchange.queued hpacket c.trace
    exact ⟨hx.seen.cons (hx.seen.here.same hsame), fun hs => (hx.account hs).same hsame, hx.before⟩
  | failed => exact exchange_failed hx.seen
  | @connect b h stats =>
    obtain ⟨hseen, hplace, hflight⟩ := h.exchange hx
    have hopened : Account b.filters b.filterSent b.subscribeId (.opened stats :: b.trace) := by
      rw [hplace, hflight]
      exact account_opened
    exact exchange_enter (hseen.cons inStep_opened) (fun _ => hopened) ⟨hplace, hflight⟩
  | lookUp h =>
    obtain ⟨hseen, hstart⟩ := h.exchange hx
    obtain ⟨_, hs, _⟩ := h.clean hq
    refine exchange_enter hseen ?_ hstart
    intro hs'
    rw [hs] at hs'
    cases hs'
  | missed h => exact exchange_failed (h.exchange hx).1
  | refused h => exact exchange_failed ((h.exchange hx).1.cons inStep_opened)
  | secure _ _ hr => exact exchange_enter hx.seen hx.account (hx.before hr)
  | greet _ _ hr => exact exchange_enter hx.seen hx.account (hx.before hr)
  | ignored _ hs n _ hn =>
    have hnext := hok.honest _ ((mem_tails _ _).mpr suffix_rfl)
    exact absurd (hx.suback_awaited hs hnext).2 hn
  | answered _ hs code h =>
    obtain ⟨hflight, _⟩ :=
      hx.suback_awaited hs (hok.honest _ ((mem_tails _ _).mpr (answered_suback h)))
    exact h.exchange (quiet_answered hq) (hx.answered hs hflight hq.filters.nodup code) hok
  | addFilter filter hne hlen hnew hroom h =>
    refine h.exchange ?_ ⟨hx.seen, fun hs => (hx.account hs).add ht.aligned filter, hx.before⟩ hok
    exact hq.frame rfl rfl rfl rfl rfl rfl (.refl) (fun _ => ⟨rfl, rfl, rfl⟩)
      (hq.filters.add hne hlen hnew hroom)
  | cleared =>
    have hflight : c.subscribeId = 0 :=
      beq_iff_eq.mp (hok.undisturbed (.cleared c.subscribeId) mem_cons_self)
    have hhere := hx.seen.here
    refine ⟨hx.seen.cons ⟨hhere.outstanding, nodup_nil, hhere.attributed⟩, ?_, fun _ => ⟨rfl, rfl⟩⟩
    intro hs
    have haccount := hx.account hs
    rw [hflight] at haccount
    simp only [hflight]
    exact haccount.cleared
  | stopped h hg => exact exchange_enter ((hg.seen hx.seen).aside rfl) nofun ⟨rfl, rfl⟩
  | shutdown => exact exchange_closed (hx.seen.aside rfl) rfl ⟨rfl, rfl⟩

theorem exchange_kept : Kept .reader Calm (fun c => Table c ∧ Exchange c) := by
  rintro c _ hq ⟨ht, hx⟩ ha hok
  refine ⟨ht.act ha ?_, hx.act hq ht ha hok⟩
  intro _ hs h
  exact (hx.suback_awaited hs (hok.honest _ ((mem_tails _ _).mpr (answered_suback h)))).1

theorem Prelude.unanswered (h : Prelude .app c b) : b.filterSent = 0 := by
  cases h with
  | start => rfl
  | retry hl
  | resolved hl => exact absurd rfl hl

theorem Act.unanswered (h : Act .app c c') (h₀ : c.filterSent = 0) : c'.filterSent = 0 := by
  have henter : ∀ {c : Core} {st : State}, c.filterSent = 0 → (c.enter st).filterSent = 0 := by
    intro c _ h
    unfold Core.enter
    split <;> exact h
  have hpump : ∀ {c c' : Core}, Pump c c' → c'.filterSent = c.filterSent := by
    intro c _ h
    cases h <;> rfl
  cases h with
  | clock hl
  | secure hl
  | greet hl
  | shutdown hl => exact absurd rfl hl
  | called | send | queued => exact h₀
  | moved hl => cases hl
  | received hl => cases hl
  | skipped hl => cases hl
  | delivered hl => cases hl
  | failed | missed | refused | stopped => exact henter rfl
  | connect h => exact henter h.unanswered
  | lookUp h => exact henter h.unanswered
  | ignored hl => cases hl
  | answered hl => cases hl
  | addFilter _ _ _ _ _ h => exact (hpump h).trans h₀
  | cleared => rfl

theorem Calls.unanswered (h : Calls c c') (h₀ : c.filterSent = 0) : c'.filterSent = 0 := by
  induction h with
  | refl => exact h₀
  | tail _ ha ih => exact ha.unanswered ih

theorem Exchange.accepted (hx : Exchange c) (hg : c.state = .greeting) : Exchange c.accepted :=
  exchange_enter hx.seen hx.account (hx.before (by rw [hg]; decide))

theorem accepted_filterSent (c : Core) : c.accepted.filterSent = c.filterSent := by
  unfold Core.accepted Core.enter
  split <;> rfl

theorem Exchange.resubscribed (hx : Exchange c) (hplace : c.filterSent = 0)
    (hflight : c.subscribeId = 0) : Exchange c.resubscribed := by
  refine ⟨hx.seen.aside rfl, ?_, fun _ => ⟨rfl, rfl⟩⟩
  intro hs
  have haccount := (hx.account hs).same (.aside (e := .resubscribed c.subscribeId) rfl _)
  rw [hplace, hflight] at haccount
  unfold Core.resubscribed
  rw [hflight]
  exact haccount

def Pumped (c : Core) : Prop :=
  c.state = .ready → c.subscribeId = 0 → c.filterSent = c.filters.length

theorem pumped_enter {c : Core} (h : st ≠ .ready) : Pumped (c.enter st) := by
  intro hr
  rw [enter_state] at hr
  exact absurd hr h

theorem Pump.pumped (h : Pump c c') (ht : Table c) (hok : Calm c'.trace) : Pumped c' := by
  cases h with
  | idle h =>
    intro hr hi
    rcases h with h | h | h
    · exact absurd hr h
    · exact absurd hi h
    · exact le_antisymm ht.aligned.sent_le h
  | subscribe => exact nofun
  | noRoom => cases hok.undisturbed .noRoom mem_cons_self

theorem Act.pumped (ha : Act .reader c c') (hp : Pumped c) (ht : Table c) (hx : Exchange c)
    (hok : Calm c'.trace) : Pumped c' := by
  cases ha with
  | clock | called | moved | received | skipped | delivered | send | queued | ignored => exact hp
  | failed | connect | lookUp | missed | refused | secure | greet | stopped =>
    exact pumped_enter nofun
  | answered _ hs code h =>
    obtain ⟨hflight, _⟩ := hx.suback_awaited hs
      (hok.honest _ ((mem_tails _ _).mpr (answered_suback h)))
    exact h.pumped (ht.answered hflight code) hok
  | addFilter filter _ _ _ hroom h =>
    have hadded : Table { c with filters := c.filters ++ [filter] } :=
      ⟨ht.aligned.add filter hroom, ht.reads⟩
    exact h.pumped hadded hok
  | cleared =>
    intro _ _
    rfl
  | shutdown => exact nofun

structure Settled (c : Core) : Prop where
  table : Table c
  exchange : Exchange c
  pumped : Pumped c

theorem settled_kept : Kept .reader Calm Settled := by
  intro c _ hq hs ha hok
  obtain ⟨ht, hx⟩ := exchange_kept hq ⟨hs.table, hs.exchange⟩ ha hok
  exact ⟨ht, hx, ha.pumped hs.pumped hs.table hs.exchange hok⟩

theorem Moves.settled (h : Moves c c') (hq : Quiet c) (hs : Settled c) (hok : Calm c'.trace) :
    Settled c' := by
  refine h.keeps calm_lasting settled_kept ?_ ?_ hq hs hok
  · intro c c₁ _ hq hs hsocket hg hcalls _ hp hok
    have hok₁ := calm_lasting hp.grows hok
    have hq₁ := hcalls.quiet (quiet_accepted hq hsocket)
    obtain ⟨ht₁, hx₁⟩ : Table c₁ ∧ Exchange c₁ := hcalls.steps.keeps calm_lasting exchange_kept
      (quiet_accepted hq hsocket) ⟨hs.table.accepted, hs.exchange.accepted hg⟩
      (calm_lasting (suffix_cons _ _) hok₁)
    have hplace : c₁.filterSent = 0 := by
      apply hcalls.unanswered
      rw [accepted_filterSent]
      exact (hs.exchange.before (by rw [hg]; decide)).1
    have hflight : c₁.subscribeId = 0 :=
      beq_iff_eq.mp (hok₁.undisturbed (.resubscribed c₁.subscribeId) mem_cons_self)
    have ht : Table c₁.resubscribed := ⟨ht₁.aligned.reset, forall_mem_cons.mpr ⟨trivial, ht₁.reads⟩⟩
    exact ⟨hp.table ht, hp.exchange (quiet_resubscribed hq₁) (hx₁.resubscribed hplace hflight) hok,
      hp.pumped ht hok⟩
  · intro c c₁ hq hs hsocket hg hcalls hnew hok
    obtain ⟨ht₁, hx₁⟩ : Table c₁ ∧ Exchange c₁ := hcalls.steps.keeps calm_lasting exchange_kept
      (quiet_accepted hq hsocket) ⟨hs.table.accepted, hs.exchange.accepted hg⟩ hok
    have hgen : c.accepted.generation = c.generation := (enter_fields _).2.2.1
    refine ⟨ht₁, hx₁, ?_⟩
    cases hcalls.outcome with
    | kept hsame
    | dropped hsame => exact absurd (hsame.trans hgen) hnew
    | replaced _ hr =>
      intro hready
      exact absurd hready hr

/-- With a broker that answers every SUBSCRIBE once and in order, if none is sent from the
callback of READY, cleared in flight or without room: at most one is unanswered, no filter is sent
twice, verdicts are those of their own SUBACKs, and a ready client with none outstanding has sent
every filter it holds. -/
theorem run_exchange_in_step (depth : Nat) (hasLoop : Bool) (world : World) (ops : List Op)
    (hhonest : ∀ u ∈ (run (callback depth) (boot hasLoop world) ops).trace.tails, answersNext u)
    (hundisturbed : ∀ e ∈ (run (callback depth) (boot hasLoop world) ops).trace, e.undisturbed) :
    let s := run (callback depth) (boot hasLoop world) ops
    (∀ u ∈ s.trace.tails, (subscribes u).length ≤ (subacks u).length + 1 ∧
      (sentFilters u).Nodup ∧ verdicts u <+: ((subscribes u).map Prod.snd).zip (subacks u)) ∧
    (s.client.state = .ready →
      sentFilters s.trace <+: s.client.filters ∧
      (verdicts s.trace).length = (subacks s.trace).length ∧
      ((subscribes s.trace).length = (subacks s.trace).length →
        sentFilters s.trace = s.client.filters)) := by
  have hmoves := run_boot_moves depth hasLoop world ops
  generalize run (callback depth) (boot hasLoop world) ops = s at hmoves hhonest hundisturbed ⊢
  have hempty : Seen [] := by
    intro u hu
    rw [mem_singleton.mp hu]
    exact ⟨Nat.zero_le _, nodup_nil, prefix_rfl⟩
  have hboot : Settled (boot hasLoop world).core :=
    ⟨⟨⟨Nat.zero_le _, Nat.zero_le _, fun h => absurd rfl h⟩, forall_mem_nil _⟩,
      exchange_closed hempty rfl ⟨rfl, rfl⟩, nofun⟩
  have hquiet := hmoves.quiet (boot_quiet hasLoop world)
  have hs : Settled s.core := hmoves.settled (boot_quiet hasLoop world) hboot
    ⟨hhonest, hundisturbed⟩
  constructor
  · intro u hu
    have hstep := hs.exchange.seen u hu
    exact ⟨hstep.outstanding, hstep.once, hstep.attributed⟩
  · intro hready
    have haccount : Account s.client.filters s.client.filterSent s.client.subscribeId s.trace :=
      hs.exchange.account (hquiet.ready_live hready .reader).1
    refine ⟨?_, ?_, ?_⟩
    · rw [haccount.sent]
      exact take_prefix _ _
    · rw [haccount.taken, length_zip, length_map]
      by_cases hflight : s.client.subscribeId = 0
      · rw [haccount.settled hflight, Nat.min_self]
      · obtain ⟨_, hsubs, hlen⟩ := haccount.awaited hflight
        rw [hsubs, length_append, hlen]
        exact Nat.min_eq_right (Nat.le_succ _)
    · intro hanswered
      have hflight : s.client.subscribeId = 0 := by
        by_contra h
        obtain ⟨_, hsubs, hlen⟩ := haccount.awaited h
        rw [hsubs, length_append, hlen] at hanswered
        exact absurd hanswered (Nat.succ_ne_self _)
      have hplace : s.client.filterSent = s.client.filters.length := hs.pumped hready hflight
      rw [haccount.sent, if_pos hflight, hplace, take_length]

/-- Two filters, the first of them answered. -/
theorem run_exchange_in_step_answered :
    let s := run (callback 0)
      (boot true { reached with
        recvs := [.ok [0x20, 2, 0, 0], .error .eagain, .ok [0x90, 3, 0, 1, 0]] })
      ([.call (.subscribe [97]), .call (.subscribe [98])] ++ opening false ++ [.socketEvent IN])
    verdicts s.trace = [([97], 0)] ∧ sentFilters s.trace = [[97], [98]] ∧
      sentFilters s.trace <+: s.client.filters := by
  intro s
  exact ⟨by decide, by decide,
    ((run_exchange_in_step 0 true _ _ (by decide) (by decide)).2 (by decide)).1⟩

/-- A filter subscribed to from the callback of READY goes out twice; the SUBACK of one cleared in
flight is taken for the next one's; and one that finds the queue full is not sent later. -/
theorem exchange_out_of_step :
    (let s := run (callback 1)
      (boot true { reached with
        recvs := [.ok [0x20, 2, 0, 0]]
        app := [[], [], [.subscribe [97]]] })
      [.call (.start { address := [104], clientId := [99] } false true 0),
        .socketEvent OUT, .socketEvent IN]
    (∀ u ∈ s.trace.tails, answersNext u) ∧
      subscribes s.trace = [(1, [97]), (1, [97])] ∧ subacks s.trace = []) ∧
    (let s := run (callback 0)
      (boot true { reached with
        recvs := [.ok [0x20, 2, 0, 0], .error .eagain, .ok [0x90, 3, 0, 1, 0x80]] })
      (opening false ++ [.call (.subscribe [97]), .call .clearFilters, .call (.subscribe [98]),
        .socketEvent IN])
    (∀ u ∈ s.trace.tails, answersNext u) ∧
      subscribes s.trace = [(1, [97]), (1, [98])] ∧ verdicts s.trace = [([98], 0x80)]) ∧
    (let s := run (callback 0)
      (boot true { reached with
        recvs := [.ok [0x20, 2, 0, 0]]
        sends := replicate 5 (.error ⟨.eagain, by decide⟩) ++ [.ok 5000, .ok 5000] })
      (opening false ++ replicate 4 (.call (.publish [97] (replicate 1009 0) false)) ++
        [.call (.subscribe (replicate 30 98)), .socketEvent OUT])
    s.client.state = .ready ∧ s.client.out = {} ∧ s.client.filters = [replicate 30 98] ∧
      subscribes s.trace = []) := by
  decide +kernel

end Inkwell.Mqtt
