import Inkwell.Library.History
import Inkwell.Net.Fetch.Rounds

namespace Inkwell.Fetch
open Net Http Library
open List hiding after

def Sys.Idle (s : Sys σ) : Prop := s.fetch.conn = none ∧ s.fetch.lookup = none

instance (s : Sys σ) : Decidable s.Idle :=
  decidable_of_iff (s.fetch.conn.isNone ∧ s.fetch.lookup.isNone) (by
    rw [Option.isNone_iff_eq_none, Option.isNone_iff_eq_none]
    rfl)

/-- Completions that do the same to an idle fetcher, if there is one to run. -/
def Agree (cb cb' : Nat → Result → Sys σ → Sys σ) (onDone : Option Nat) : Prop :=
  ∀ id, onDone = some id → ∀ result s, s.Idle → cb id result s = cb' id result s

section Agreement
variable {cb cb' : Nat → Result → Sys σ → Sys σ}

theorem fetchComplete_agree (h : Agree cb cb' conn.onDone) :
    fetchComplete cb s conn o = fetchComplete cb' s conn o := by
  obtain ⟨_, _, _, hclose, _, hdone, _, _, _, hfetch, _⟩ := closeOutput_spec
    (Sys.drop { s with fetch := { s.fetch with conn := none, lookup := none } } conn)
    (dropSocket conn) o
  unfold fetchComplete
  simp only [hclose]
  split
  · rfl
  · rename_i id hid
    rw [h id (hdone.symm.trans hid)]
    exact ⟨congrArg Fetcher.conn hfetch, congrArg Fetcher.lookup hfetch⟩

theorem fetchFail_agree (h : Agree cb cb' conn.onDone) :
    fetchFail cb s conn o message = fetchFail cb' s conn o message := by
  apply fetchComplete_agree
  exact h

theorem tryAddresses_agree (h : Agree cb cb' conn.onDone) :
    tryAddresses cb left s conn = tryAddresses cb' left s conn := by
  induction left generalizing s conn with
  | zero => exact fetchComplete_agree h
  | succ _ ih =>
    unfold tryAddresses
    split
    · exact fetchComplete_agree h
    rcases fetchOpen_spec with
      ⟨conn', s', hopen, _⟩ | ⟨conn', s', hopen, hflight, _⟩
    · rw [hopen]
    · rw [hopen]
      have hdone : conn'.onDone = conn.onDone := congrArg Flight.onDone hflight
      exact ih (hdone ▸ h)

theorem fetchTryNext_agree (h : Agree cb cb' conn.onDone) :
    fetchTryNext cb s conn = fetchTryNext cb' s conn :=
  tryAddresses_agree h

theorem lookUp_agree (h : Agree cb cb' conn.onDone) :
    lookUp cb s conn host = lookUp cb' s conn host := by
  unfold lookUp
  split
  · rfl
  · exact fetchFail_agree h

theorem fetchHop_agree (h : Agree cb cb' conn.onDone) :
    fetchHop cb s conn = fetchHop cb' s conn := by
  unfold fetchHop
  simp only
  split
  · split
    · exact lookUp_agree h
    · exact fetchTryNext_agree h
  · split
    · exact fetchTryNext_agree h
    · exact lookUp_agree h

variable (h : ∀ onDone, Agree cb cb' onDone)
include h

theorem fetchRedirect_agree : fetchRedirect cb s conn = fetchRedirect cb' s conn := by
  simp only [fetchRedirect, fetchFail_agree (h _), fetchHop_agree (h _)]

theorem fetchOnHead_agree : fetchOnHead cb s conn = fetchOnHead cb' s conn := by
  simp only [fetchOnHead, fetchFail_agree (h _), fetchRedirect_agree h]

theorem fetchDecide_agree : fetchDecide cb s conn = fetchDecide cb' s conn := by
  simp only [fetchDecide, fetchOnHead_agree h]

theorem fetchSink_agree : fetchSink cb s conn bytes = fetchSink cb' s conn bytes := by
  simp only [fetchSink, fetchFail_agree (h _)]

theorem fetchFinish_agree : fetchFinish cb s conn = fetchFinish cb' s conn := by
  simp only [fetchFinish, fetchComplete_agree (h _), fetchFail_agree (h _)]

theorem fetchOnClose_agree : fetchOnClose cb s conn e = fetchOnClose cb' s conn e := by
  simp only [fetchOnClose, fetchFail_agree (h _), fetchFinish_agree h]

theorem fetchFeed_agree : fetchFeed cb fuel s conn input = fetchFeed cb' fuel s conn input := by
  induction fuel generalizing s conn input with
  | zero => rfl
  | succ _ ih =>
    simp only [fetchFeed, fetchFail_agree (h _), fetchDecide_agree h, fetchSink_agree h,
      fetchFinish_agree h, ih]

theorem receiveTurns_agree : receiveTurns cb turns s conn = receiveTurns cb' turns s conn := by
  induction turns generalizing s conn with
  | zero => rfl
  | succ _ ih => simp only [receiveTurns, fetchOnClose_agree h, fetchFeed_agree h, ih]

theorem fetchReceive_agree : fetchReceive cb s conn = fetchReceive cb' s conn :=
  receiveTurns_agree h

theorem fetchSend_agree : fetchSend cb s conn = fetchSend cb' s conn := by
  simp only [fetchSend, sendUpload, sendStopped, fetchFail_agree (h _), fetchReceive_agree h]

theorem fetchHandshake_agree : fetchHandshake cb s conn = fetchHandshake cb' s conn := by
  simp only [fetchHandshake, fetchFail_agree (h _), fetchSend_agree h]

theorem fetchConnected_agree : fetchConnected cb s conn = fetchConnected cb' s conn := by
  simp only [fetchConnected, fetchFail_agree (h _), fetchTryNext_agree (h _),
    fetchHandshake_agree h]

theorem fetchOnFd_agree : fetchOnFd cb s events = fetchOnFd cb' s events := by
  simp only [fetchOnFd, fetchConnected_agree h, fetchHandshake_agree h, fetchSend_agree h,
    fetchReceive_agree h]

theorem fetchOnResolved_agree : fetchOnResolved cb s result = fetchOnResolved cb' s result := by
  simp only [fetchOnResolved, fetchFail_agree (h _), fetchTryNext_agree (h _)]

theorem resolveTryFinish_agree : resolveTryFinish cb s = resolveTryFinish cb' s := by
  simp only [resolveTryFinish, fetchOnResolved_agree h]

theorem fetchTick_agree : fetchTick cb s nowMs = fetchTick cb' s nowMs := by
  simp only [fetchTick, resolveTick, tickConn, resolveTryFinish_agree h, fetchOnResolved_agree h,
    fetchFail_agree (h _), fetchTryNext_agree (h _), fetchReceive_agree h]

end Agreement

def Callback.guarded (cb : Callback σ) : Callback σ where
  run id result s := if s.Idle then cb.run id result s else s
  steps id result s := by
    split
    · exact cb.steps id result s
    · exact .refl

theorem Callback.guarded_agree (cb : Callback σ) (onDone : Option Nat) :
    Agree cb.guarded.run cb.run onDone :=
  fun _ _ _ _ hidle => if_pos hidle

theorem run_guarded (cb : Callback σ) (s : Sys σ) (ops : List (Op σ)) :
    run cb.guarded s ops = run cb s ops := by
  have hstep : step cb.guarded = step cb := by
    funext s op
    cases op with
    | call | own => rfl
    | tick => exact fetchTick_agree cb.guarded_agree
    | socketEvent => exact fetchOnFd_agree cb.guarded_agree
    | lookupEvent => exact resolveTryFinish_agree cb.guarded_agree
  rw [run, run, hstep]

def owed : List Event → Option Nat
  | [] => none
  | .accepted callback :: _ => callback
  | .done _ _ :: _ | .cancelled :: _ => none
  | _ :: t => owed t

def latestStart : List Event → Option (Request × Nat)
  | [] => none
  | .started request nowMs :: _ => some (request, nowMs)
  | _ :: t => latestStart t

def Event.starts : Event → Bool
  | .started _ _ => true
  | _ => false

def thisFetch (t : List Event) : List Event := t.takeWhile (!·.starts)

def Event.mute : Event → Bool
  | .started _ _ | .accepted _ | .done _ _ | .cancelled | .ticked _ => false
  | _ => true

def Fair (e : Event) (t : List Event) : Prop :=
  match e with
  | .started _ _ => owed t = none
  | .accepted callback =>
    callback.isSome ∧ owed t = none ∧ ∀ id result, .done id result ∉ thisFetch t
  | .done id _ => owed t = some id
  | .cancelled => (owed t).isSome
  | _ => True

/-- No completion, and a tick before the deadline, or one being seen to. -/
def Calm (late : Nat → Prop) (deadlineMs : Nat) : Event → Prop
  | .done _ _ => False
  | .ticked n => n < deadlineMs ∨ late n
  | _ => True

structure Flying (late : Nat → Prop) (f : Flight) (t : List Event) : Prop where
  owed : owed t = f.onDone
  calm : ∀ e ∈ thisFetch t, Calm late f.deadlineMs e
  due : ∃ request nowMs, latestStart t = some (request, nowMs) ∧ f.deadlineMs =
    nowMs + if request.timeoutMs > 0 then request.timeoutMs else defaultTimeoutMs

structure Owing (late : Nat → Prop) (c : Core) : Prop where
  flying : ∀ f, c.flight = some f → Flying late f c.trace
  idle : c.flight = none → Fetch.owed c.trace = none
  fair : Always Fair c.trace

section Mute
variable {e : Event} (he : e.mute)
include he

theorem owed_mute : owed (e :: t) = owed t := by cases e <;> first | rfl | cases he

theorem latestStart_mute : latestStart (e :: t) = latestStart t := by
  cases e <;> first | rfl | cases he

theorem thisFetch_mute : thisFetch (e :: t) = e :: thisFetch t := by
  cases e <;> first | rfl | cases he

theorem Fair.mute : Fair e t := by
  cases e with
  | started | accepted | done | cancelled => cases he
  | _ => trivial

theorem Calm.mute : Calm late deadlineMs e := by
  cases e with
  | done | ticked => cases he
  | _ => trivial

theorem Flying.mute (h : Flying late f t) : Flying late f (e :: t) := by
  refine ⟨(owed_mute he).trans h.owed, ?_, ?_⟩
  · rw [thisFetch_mute he]
    exact forall_mem_cons.mpr ⟨.mute he, h.calm⟩
  · rw [latestStart_mute he]
    exact h.due

end Mute

def Mutely (t t' : List Event) : Prop := ∃ events, (∀ e ∈ events, e.mute) ∧ t' = events ++ t

theorem Mutely.refl (t : List Event) : Mutely t t := ⟨[], forall_mem_nil _, rfl⟩

theorem Mutely.cons (h : Mutely t t') (he : Event.mute e) : Mutely t (e :: t') := by
  obtain ⟨events, hmute, heq⟩ := h
  exact ⟨e :: events, forall_mem_cons.mpr ⟨he, hmute⟩, by rw [heq]; rfl⟩

theorem Mutely.trans (h : Mutely a b) (h' : Mutely b c) : Mutely a c := by
  obtain ⟨events, hmute, rfl⟩ := h
  obtain ⟨later, hmute', rfl⟩ := h'
  exact ⟨later ++ events, forall_mem_append.mpr ⟨hmute', hmute⟩, (append_assoc ..).symm⟩

theorem Mutely.keeps {P : List Event → Prop} (h : Mutely t t')
    (hP : ∀ e t, Event.mute e → P t → P (e :: t)) (ht : P t) : P t' := by
  obtain ⟨events, hmute, rfl⟩ := h
  induction events with
  | nil => exact ht
  | cons e _ ih =>
    obtain ⟨he, hmute⟩ := forall_mem_cons.mp hmute
    exact hP _ _ he (ih hmute)

theorem LastWords.mutely (h : LastWords events) : Mutely t (events ++ t) := by
  cases h with
  | none => exact .refl t
  | replied | outOfMemory => exact (Mutely.refl t).cons rfl

theorem Decided.mutely (h : Decided f t f' t') : Mutely t t' := by
  cases h with
  | before => exact .refl t
  | captures => exact (Mutely.refl t).cons rfl
  | creates => exact ((Mutely.refl t).cons rfl).cons rfl

theorem Sunk.mutely (h : Sunk f t bytes f' t') : Mutely t t' := by
  cases h with
  | nothing | captured => exact .refl t
  | written => exact (Mutely.refl t).cons rfl

theorem Spilled.mutely (h : Spilled f t bytes o t') : Mutely t t' := by
  cases h with
  | passed | filePassed => exact .refl t
  | noMemory | failed => exact (Mutely.refl t).cons rfl

theorem Rounded.terms (h : Rounded f f') : f'.terms = f.terms := by cases h <;> rfl

theorem Act.mutely (h : Act c c') :
    ∃ f, c.flight = some f ∧
      ((∃ f', c'.flight = some f' ∧ f'.terms = f.terms ∧ Mutely c.trace c'.trace) ∨
        ∃ t f' o result, f'.terms = f.terms ∧ Mutely c.trace t ∧ c' = .ended t f' o result) := by
  have hone : ∀ e, Event.mute e → Mutely c.trace (e :: c.trace) :=
    fun e he => (Mutely.refl c.trace).cons he
  cases h with
  | tried hf | shookInVain hf | requested hf | read hf =>
    exact ⟨_, hf, .inl ⟨_, hf, rfl, hone _ rfl⟩⟩
  | dialled hf | listened hf => exact ⟨_, hf, .inl ⟨_, rfl, rfl, .refl _⟩⟩
  | secured hf | shook hf | uploaded hf => exact ⟨_, hf, .inl ⟨_, rfl, rfl, hone _ rfl⟩⟩
  | turned hf _ hd hs =>
    exact ⟨_, hf, .inl ⟨_, rfl, hs.terms.trans hd.terms, hd.mutely.trans hs.mutely⟩⟩
  | redirected hf => exact ⟨_, hf, .inl ⟨_, rfl, rfl, (hone _ rfl).cons rfl⟩⟩
  | spilled hf _ _ _ hd hs =>
    exact ⟨_, hf, .inr ⟨_, _, _, _, hd.terms, hd.mutely.trans hs.mutely, rfl⟩⟩
  | whole hf _ hd hs _ hround =>
    have hterms := hround.terms.trans (hs.terms.trans hd.terms)
    exact ⟨_, hf, .inr ⟨_, _, _, _, hterms, hd.mutely.trans hs.mutely, rfl⟩⟩
  | brimmed hf _ hd hs _ _ he =>
    have hmute := (hd.mutely.trans hs.mutely).trans he.mutely
    exact ⟨_, hf, .inr ⟨_, _, _, _, hs.terms.trans hd.terms, hmute, rfl⟩⟩
  | hungUp hf _ _ _ _ _ hround => exact ⟨_, hf, .inr ⟨_, _, _, _, hround.terms, .refl _, rfl⟩⟩
  | failed hf he => exact ⟨_, hf, .inr ⟨_, _, _, _, rfl, he.mutely, rfl⟩⟩

theorem Flying.along (h : Flying late f t) (hterms : f'.terms = f.terms) : Flying late f' t := by
  have hdone : f'.onDone = f.onDone := congrArg Terms.onDone hterms
  have hdeadline : f'.deadlineMs = f.deadlineMs := congrArg Terms.deadlineMs hterms
  refine ⟨h.owed.trans hdone.symm, ?_, ?_⟩
  · rw [hdeadline]
    exact h.calm
  · rw [hdeadline]
    exact h.due

theorem Owing.held (hf : c.flight = some f) (h : Flying late f c.trace)
    (hfair : Always Fair c.trace) : Owing late c := by
  refine ⟨?_, ?_, hfair⟩
  · intro _ hf'
    cases hf.symm.trans hf'
    exact h
  · intro hnone
    cases hf.symm.trans hnone

theorem Owing.over (hf : c.flight = none) (h : owed c.trace = none) (hfair : Always Fair c.trace) :
    Owing late c := by
  refine ⟨?_, fun _ => h, hfair⟩
  intro f hf'
  cases hf.symm.trans hf'

theorem Act.owing (h : Act c c') (hc : Owing late c) : Owing late c' := by
  obtain ⟨f, hf, hnext⟩ := h.mutely
  have hflying := hc.flying f hf
  rcases hnext with ⟨f', hf', hterms, hmutely⟩ | ⟨t, f', o, _, hterms, hmutely, rfl⟩
  · apply Owing.held hf'
    · exact hmutely.keeps (fun _ _ he h => h.mute he) (hflying.along hterms)
    · exact hmutely.keeps (fun _ _ he h => h.cons (.mute he)) hc.fair
  · have hfair := hmutely.keeps (fun _ _ he h => h.cons (.mute he)) hc.fair
    have howed : owed t = f'.onDone :=
      (hmutely.keeps (fun _ _ he h => h.mute he) (hflying.along hterms)).owed
    have hcompleted : Always Fair (.completed o :: t) := hfair.cons trivial
    apply Owing.over rfl
    · unfold Core.ended
      cases hid : f'.onDone with
      | none => exact howed.trans hid
      | some => rfl
    · unfold Core.ended
      cases hid : f'.onDone with
      | none => exact hcompleted
      | some => exact hcompleted.cons (howed.trans hid)

theorem Flying.begun (howed : Fetch.owed t = none) (hnew : Flight.New f request nowMs) :
    Flying late f.hopping (.hop f.url :: .started request nowMs :: t) := by
  refine ⟨howed.trans hnew.onDone.symm, ?_, ⟨request, nowMs, rfl, hnew.deadline⟩⟩
  intro e hmem
  cases mem_singleton.mp hmem
  trivial

theorem owing_upheld (late : Nat → Prop) : Upheld (Owing late) where
  act := Act.owing
  begin {c f request nowMs} hidle hnew hc := by
    have hstarted : Always Fair (.started request nowMs :: c.trace) := hc.fair.cons (hc.idle hidle)
    exact .held rfl (.begun (hc.idle hidle) hnew) (hstarted.cons trivial)
  accept {c f id} hf hnone hid hc := by
    have hflying := hc.flying _ hf
    have hsilent (id result) (hmem : .done id result ∈ thisFetch c.trace) := hflying.calm _ hmem
    refine .held rfl ⟨rfl, ?_, hflying.due⟩ (hc.fair.cons ⟨hid, hflying.owed.trans hnone, hsilent⟩)
    exact forall_mem_cons.mpr ⟨trivial, hflying.calm⟩
  cancel hf hid hc := by
    refine .over rfl rfl (hc.fair.cons ?_)
    change (owed _).isSome
    rw [(hc.flying _ hf).owed]
    exact hid

def never (_ : Nat) : Prop := False

theorem Calm.mono (h : Calm late deadlineMs e) (hlate : ∀ n, late n → n < deadlineMs ∨ late' n) :
    Calm late' deadlineMs e := by
  cases e with
  | ticked n => exact h.elim .inl (hlate n)
  | _ => exact h

theorem Owing.ticked (hc : Owing never c) : Owing (· = nowMs) (c.log (.ticked nowMs)) := by
  refine ⟨?_, hc.idle, hc.fair.cons trivial⟩
  intro f hf
  have hflying := hc.flying f hf
  refine ⟨hflying.owed, forall_mem_cons.mpr ⟨.inr rfl, ?_⟩, hflying.due⟩
  intro e he
  exact (hflying.calm e he).mono fun _ => False.elim

theorem Owing.seenTo (hc : Owing (· = nowMs) c)
    (h : ∀ f, c.flight = some f → nowMs < f.deadlineMs) : Owing never c := by
  refine ⟨?_, hc.idle, hc.fair⟩
  intro f hf
  have hflying := hc.flying f hf
  refine ⟨hflying.owed, ?_, hflying.due⟩
  intro e he
  exact (hflying.calm e he).mono fun _ heq => .inl (heq ▸ h f hf)

theorem fetchFail_owing (hcb : Cooperative Called cb) (hc : Owing (· = nowMs) c)
    (hf : c.flight = some conn.flight) (htrace : s.trace = c.trace) (ho : o ≠ .ok ∧ o ≠ .tooLarge) :
    Owing never (fetchFail cb s conn o message).core := by
  obtain ⟨o', result, idle, ho', hof, hidle, _, _, heq⟩ :=
    fetchComplete_spec cb s { conn with detail := message } o
  have hsame : o' = o := ho'.resolve_right fun h => ho.1 h.1
  subst hsame
  have hact : Act c (.ended c.trace conn.flight o' result) :=
    .failed hf .none o' ho.1 (fun h => absurd h ho.2) result hof.outcome
  have hended : Owing never idle.core := by
    rw [hidle, htrace]
    apply (hact.owing hc).seenTo
    intro f hf
    cases hf
  rw [fetchFail, heq]
  cases conn.onDone with
  | none => exact hended
  | some id =>
    apply (owing_upheld never).steps (hcb id result idle ?_) hended
    rw [hidle]
    rfl

theorem tickConn_owing (hcb : Cooperative Called cb) (hr : Ready (s.hold conn []))
    (hc : Owing (· = nowMs) (s.hold conn [])) : Owing never (tickConn cb s conn nowMs).core := by
  by_cases hdue : nowMs ≥ conn.deadlineMs
  · rw [tickConn, if_pos hdue]
    exact fetchFail_owing hcb hc rfl rfl ⟨nofun, nofun⟩
  · have hon : Owing never (s.hold conn []) := by
      apply hc.seenTo
      intro f hf
      cases hf
      exact lt_of_not_ge hdue
    exact (owing_upheld never).steps (tickConn_steps hcb rfl hr) hon

theorem fetchTick_owing {s : Sys σ} (hcb : Cooperative Called cb) (hr : Ready s.core)
    (hc : Owing never s.core) (nowMs : Nat) : Owing never (fetchTick cb s nowMs).core := by
  have hresolved := resolveTick_steps hcb
    (({ s with fetch := { s.fetch with nowMs } } : Sys σ).log (.ticked nowMs)) nowMs
  have howing := (owing_upheld (· = nowMs)).steps hresolved hc.ticked
  unfold fetchTick
  simp only
  split
  · rename_i hconn
    apply howing.seenTo
    intro f hf
    rw [Sys.core, hconn] at hf
    cases hf
  · rename_i hconn
    rw [← hold_core hconn] at howing
    apply tickConn_owing hcb ?_ howing
    rw [hold_core hconn]
    exact ready_upheld.steps hresolved hr

theorem run_owing (cb : Callback σ) (s : Sys σ) (hs : Resting s.core) (hc : Owing never s.core)
    (ops : List (Op σ)) : Owing never (run cb s ops).core := by
  induction ops generalizing s with
  | nil => exact hc
  | cons op _ ih =>
    apply ih (step cb s op) (step_resting cb hs)
    have hsteps := step_steps cb hs.ready hs.settled op
    cases op with
    | tick nowMs => exact fetchTick_owing cb.cooperative hs.ready hc nowMs
    | call | own | socketEvent | lookupEvent => exact (owing_upheld never).steps hsteps hc

def Unasked (events : List Event) : Prop := ∀ e ∈ events, e.starts = false

theorem Unasked.cons (h : Unasked events) (he : Event.starts e = false) : Unasked (e :: events) :=
  forall_mem_cons.mpr ⟨he, h⟩

theorem Unasked.not_mem (h : Unasked events) : .started request nowMs ∉ events := by
  intro hmem
  cases h _ hmem

theorem Unasked.skipped {read : List Event → β} (h : Unasked events)
    (hread : ∀ e t, e.starts = false → read (e :: t) = read t) : read (events ++ t) = read t := by
  induction events with
  | nil => rfl
  | cons e _ ih =>
    obtain ⟨he, hevents⟩ := forall_mem_cons.mp h
    exact (hread e _ he).trans (ih hevents)

theorem Unasked.latestStart (h : Unasked events) : latestStart (events ++ t) = latestStart t := by
  refine h.skipped fun e _ he => ?_
  cases e with
  | started => cases he
  | _ => rfl

theorem Unasked.thisFetch (h : Unasked events) :
    thisFetch (events ++ t) = events ++ thisFetch t := by
  apply takeWhile_append_of_pos
  intro e he
  rw [h e he]
  rfl

def Event.accepts : Event → Bool
  | .accepted _ => true
  | _ => false

def Event.ends : Event → Bool
  | .done _ _ | .cancelled => true
  | _ => false

/-- The ends, oldest first, since a request was accepted and until the next one was. -/
def endings (after : List Event) : List Event :=
  (after.reverse.takeWhile (!·.accepts)).filter Event.ends

theorem endings_open (h : ∀ e ∈ after, Event.accepts e = false) :
    endings (e :: after) = endings after ++ [e].filter Event.ends := by
  have hlife := congrArg (List.filter Event.ends) (lifetime_open (e := e) h)
  rw [filter_append] at hlife
  rw [endings, endings, ← lifetime, ← lifetime, hlife]
  cases e <;> rfl

theorem endings_closed (h : ¬ ∀ e ∈ after, Event.accepts e = false) :
    endings (e :: after) = endings after :=
  congrArg (List.filter Event.ends) (lifetime_closed h)

def Ended (id : Nat) (after : List Event) : Prop :=
  (∃ result, endings after = [.done id result]) ∨ endings after = [.cancelled]

theorem Event.kinds (e : Event) :
    (∃ callback, e = .accepted callback) ∨
    ((∃ id result, e = .done id result) ∨ e = .cancelled) ∨
    e.accepts = false ∧ e.ends = false ∧
      ∀ t, owed (e :: t) = owed t ∧ (Fair e t → owed t ≠ none → e.starts = false) := by
  cases e with
  | accepted callback => exact .inl ⟨callback, rfl⟩
  | done id result => exact .inr (.inl (.inl ⟨id, result, rfl⟩))
  | cancelled => exact .inr (.inl (.inr rfl))
  | started => exact .inr (.inr ⟨rfl, rfl, fun _ => ⟨rfl, fun hnone hne => absurd hnone hne⟩⟩)
  | _ => exact .inr (.inr ⟨rfl, rfl, fun _ => ⟨rfl, fun _ _ => rfl⟩⟩)

theorem Always.ended {id : Nat} (h : Always Fair (after ++ before))
    (hbefore : owed before = some id) :
    (endings after = [] ∧ (∀ e ∈ after, Event.accepts e = false) ∧ Unasked after ∧
      owed (after ++ before) = some id) ∨
    Ended id after ∧ ((∀ e ∈ after, Event.accepts e = false) → owed (after ++ before) = none) := by
  induction after with
  | nil => exact .inl ⟨rfl, forall_mem_nil _, forall_mem_nil _, hbefore⟩
  | cons e after ih =>
    have hfair : Fair e (after ++ before) := h.head
    rcases ih h.tail with ⟨hnone, hopen, hunasked, howed⟩ | ⟨hended, howed⟩
    · have hendings := endings_open (e := e) hopen
      rw [hnone, nil_append] at hendings
      rcases e.kinds with ⟨_, rfl⟩ | (⟨_, result, rfl⟩ | rfl) | ⟨haccepts, hends, hsame⟩
      · cases howed.symm.trans hfair.2.1
      · cases howed.symm.trans hfair
        exact .inr ⟨.inl ⟨result, hendings⟩, fun _ => rfl⟩
      · exact .inr ⟨.inr hendings, fun _ => rfl⟩
      · rw [filter_cons_of_neg (by rw [hends]; exact Bool.false_ne_true)] at hendings
        have hstarts := (hsame _).2 hfair (by rw [howed]; nofun)
        exact .inl ⟨hendings, forall_mem_cons.mpr ⟨haccepts, hopen⟩, hunasked.cons hstarts,
          (hsame _).1.trans howed⟩
    by_cases hopen : ∀ e ∈ after, Event.accepts e = false
    · have hendings := endings_open (e := e) hopen
      have hkept : [e].filter Event.ends = [] → Ended id (e :: after) := by
        intro hnone
        rw [hnone, append_nil] at hendings
        unfold Ended
        rw [hendings]
        exact hended
      rcases e.kinds with ⟨_, rfl⟩ | (⟨_, _, rfl⟩ | rfl) | ⟨_, hends, hsame⟩
      · refine .inr ⟨hkept rfl, fun hall => ?_⟩
        cases hall _ mem_cons_self
      · cases (howed hopen).symm.trans hfair
      · have hsome : (owed (after ++ before)).isSome := hfair
        rw [howed hopen] at hsome
        cases hsome
      · refine .inr ⟨hkept ?_, fun _ => (hsame _).1.trans (howed hopen)⟩
        exact filter_cons_of_neg (by rw [hends]; exact Bool.false_ne_true)
    · refine .inr ⟨?_, fun hall => ?_⟩
      · unfold Ended
        rw [endings_closed hopen]
        exact hended
      · exact absurd (fun e he => hall e (mem_cons_of_mem _ he)) hopen

theorem Owing.flies {s : Sys σ} {id : Nat} (h : Owing never s.core)
    (howed : Fetch.owed s.trace = some id) : ∃ conn, s.fetch.conn = some conn ∧
      conn.onDone = some id ∧ ∀ n, .ticked n ∈ thisFetch s.trace → n < conn.deadlineMs := by
  cases hconn : s.fetch.conn with
  | none =>
    have hidle : s.core.flight = none := congrArg (Option.map Conn.flight) hconn
    cases howed.symm.trans (h.idle hidle)
  | some conn =>
    have hflying := h.flying _ (flight_core hconn)
    refine ⟨conn, rfl, hflying.owed.symm.trans howed, fun n hmem => ?_⟩
    exact (hflying.calm _ hmem).resolve_right not_false

/-- A completion once owed has run once since, or the request is in flight still, before its
deadline. -/
theorem Owing.later {s : Sys σ} {id : Nat} (h : Owing never s.core) (htrace : s.trace = after ++ t)
    (howed : Fetch.owed t = some id) :
    Ended id after ∨ endings after = [] ∧ (∀ e ∈ after, Event.accepts e = false) ∧
      ∃ conn, s.fetch.conn = some conn ∧ conn.onDone = some id ∧
        ∀ n, .ticked n ∈ thisFetch s.trace → n < conn.deadlineMs := by
  have hfair : Always Fair (after ++ t) := htrace ▸ h.fair
  rcases Always.ended hfair howed with ⟨hnone, hopen, _, howed⟩ | ⟨hended, _⟩
  · exact .inr ⟨hnone, hopen, h.flies ((congrArg Fetch.owed htrace).trans howed)⟩
  · exact .inl hended

theorem Owing.before_deadline {s s' : Sys σ} (h : Owing never s.core) (h' : Owing never s'.core)
    (hconn : s.fetch.conn = some conn) (hconn' : s'.fetch.conn = some conn')
    (hunasked : Unasked events) (htrace : s'.trace = events ++ s.trace)
    (hticked : .ticked n ∈ events) : n < conn.deadlineMs := by
  have hflying := h.flying _ (flight_core hconn)
  have hflying' := h'.flying _ (flight_core hconn')
  have htrace : s'.core.trace = events ++ s.core.trace := htrace
  obtain ⟨_, _, hstart, hdeadline⟩ := hflying.due
  obtain ⟨_, _, hstart', hdeadline'⟩ := hflying'.due
  rw [htrace, hunasked.latestStart, hstart] at hstart'
  cases hstart'
  have hmem : .ticked n ∈ Fetch.thisFetch s'.core.trace := by
    rw [htrace, hunasked.thisFetch]
    exact mem_append_left _ hticked
  have hlt : n < conn'.deadlineMs := (hflying'.calm _ hmem).resolve_right not_false
  exact hlt.trans_eq (hdeadline'.trans hdeadline.symm)

theorem Owing.overdue {s s' : Sys σ} {id : Nat} (h : Owing never s.core) (h' : Owing never s'.core)
    (hconn : s.fetch.conn = some conn) (hid : conn.onDone = some id)
    (htrace : s'.trace = after ++ s.trace) (hticked : .ticked n ∈ after)
    (hdue : conn.deadlineMs ≤ n) : Ended id after := by
  have hflying := h.flying _ (flight_core hconn)
  have hfair : Always Fair (after ++ s.trace) := htrace ▸ h'.fair
  rcases Always.ended hfair (hflying.owed.trans hid) with ⟨_, _, hunasked, howed⟩ | ⟨hended, _⟩
  · obtain ⟨_, hconn', _⟩ := h'.flies ((congrArg Fetch.owed htrace).trans howed)
    have hearly := h.before_deadline h' hconn hconn' hunasked htrace hticked
    exact absurd hearly (not_lt.mpr hdue)
  · exact hended

theorem Mutely.suffix (h : Mutely t t') : t <:+ t' := by
  obtain ⟨_, _, rfl⟩ := h
  exact suffix_append _ _

theorem growing_upheld (t : List Event) : Upheld (t <:+ ·.trace) where
  act h hc := by
    obtain ⟨_, _, ⟨_, _, _, hmutely⟩ | ⟨_, f', o, _, _, hmutely, rfl⟩⟩ := h.mutely
    · exact hc.trans hmutely.suffix
    · refine (hc.trans hmutely.suffix).trans ?_
      unfold Core.ended
      cases f'.onDone with
      | none => exact suffix_cons _ _
      | some => exact (suffix_cons _ _).trans (suffix_cons _ _)
  begin _ _ hc := (hc.trans (suffix_cons _ _)).trans (suffix_cons _ _)
  accept _ _ _ hc := hc.trans (suffix_cons _ _)
  cancel _ _ hc := hc.trans (suffix_cons _ _)

theorem run_resting (cb : Callback σ) (s : Sys σ) (hs : Resting s.core) (ops : List (Op σ)) :
    Resting (run cb s ops).core := by
  induction ops generalizing s with
  | nil => exact hs
  | cons _ _ ih => exact ih _ (step_resting cb hs)

theorem Owing.tick {s : Sys σ} (h : Owing never s.core) (cb : Callback σ) (hs : Resting s.core)
    (hconn : s.fetch.conn = some conn) (hdue : conn.deadlineMs ≤ n) : ∃ id after,
      conn.onDone = some id ∧ (step cb s (.tick n)).trace = after ++ s.trace ∧ Ended id after := by
  obtain ⟨id, hid⟩ := Option.isSome_iff_exists.mp
    (hs.settled _ (flight_core hconn))
  have hsteps := step_steps cb hs.ready hs.settled (.tick n)
  obtain ⟨events, hevents⟩ := (growing_upheld _).steps hsteps suffix_rfl
  have htrace : (step cb s (.tick n)).trace = events ++ [.ticked n] ++ s.trace :=
    hevents.symm.trans (append_cons events _ _)
  have hticked := fetchTick_owing cb.cooperative hs.ready h n
  exact ⟨id, _, hid, htrace,
    h.overdue hticked hconn hid htrace (mem_append_right _ mem_cons_self) hdue⟩

/-- Every request that is accepted ends once, by its completion or a cancel, unless it is still in
flight; the completion runs after it is accepted and on an idle fetcher; and a tick at the
deadline or later ends it. -/
theorem run_completes_once (cb : Callback σ) (hasLoop : Bool) (world : World)
    (files : Bytes → Option Bytes) (app : σ) (ops : List (Op σ)) :
    (∀ after callback before,
      (run cb (boot hasLoop world files app) ops).trace = after ++ .accepted callback :: before →
      ∃ id, callback = some id ∧
        (Ended id after ∨ endings after = [] ∧ (∀ e ∈ after, Event.accepts e = false) ∧
          ∃ conn, (run cb (boot hasLoop world files app) ops).fetch.conn = some conn ∧
            conn.onDone = some id)) ∧
    (∀ callback t, .accepted callback :: t <:+ (run cb (boot hasLoop world files app) ops).trace →
      ∀ id result, .done id result ∉ thisFetch t) ∧
    (∀ (onDone onDone' : Nat → Result → Sys σ → Sys σ) (s : Sys σ) conn, conn.onDone = none →
      fetchHop onDone s conn = fetchHop onDone' s conn) ∧
    run cb.guarded (boot hasLoop world files app) ops = run cb (boot hasLoop world files app) ops ∧
    (∀ (onDone : Nat → Result → Sys σ → Sys σ) (s : Sys σ) conn o id, conn.onDone = some id →
      ∃ result idle, Sys.Idle idle ∧ fetchComplete onDone s conn o = onDone id result idle) ∧
    ∀ conn, (run cb (boot hasLoop world files app) ops).fetch.conn = some conn →
      ∃ request nowMs, latestStart (run cb (boot hasLoop world files app) ops).trace =
          some (request, nowMs) ∧
        conn.deadlineMs =
          nowMs + (if request.timeoutMs > 0 then request.timeoutMs else defaultTimeoutMs) ∧
        ∀ n, conn.deadlineMs ≤ n → ∃ id after, conn.onDone = some id ∧
          (step cb (run cb (boot hasLoop world files app) ops) (.tick n)).trace =
            after ++ (run cb (boot hasLoop world files app) ops).trace ∧ Ended id after := by
  have hboot := boot_resting hasLoop world files app
  have howing := run_owing cb _ hboot (.over rfl rfl .nil) ops
  have hguarded := run_guarded cb (boot hasLoop world files app) ops
  refine ⟨?_, ?_, ?_, hguarded, ?_, ?_⟩
  · intro after callback before heq
    have hfair : Always Fair (after ++ .accepted callback :: before) := heq ▸ howing.fair
    obtain ⟨hsome, _⟩ := hfair (.accepted callback) before (suffix_append _ _)
    obtain ⟨id, rfl⟩ := Option.isSome_iff_exists.mp hsome
    refine ⟨id, rfl, ?_⟩
    rcases howing.later heq rfl with hended | ⟨hnone, hopen, conn, hconn, hid, _⟩
    · exact .inl hended
    · exact .inr ⟨hnone, hopen, conn, hconn, hid⟩
  · intro _ t ht
    exact (howing.fair _ _ ht).2.2
  · intro _ _ s _ hnone
    apply fetchHop_agree
    intro _ hid
    cases hnone.symm.trans hid
  · intro onDone s conn o _ hid
    obtain ⟨_, result, idle, _, _, _, hfetch, _, heq⟩ := fetchComplete_spec onDone s conn o
    rw [hid] at heq
    exact ⟨result, idle, ⟨congrArg Fetcher.conn hfetch, congrArg Fetcher.lookup hfetch⟩, heq⟩
  · intro conn hconn
    have hflying := howing.flying _ (flight_core hconn)
    obtain ⟨request, nowMs, hstart, hdeadline⟩ := hflying.due
    have hresting := run_resting cb _ hboot ops
    exact ⟨request, nowMs, hstart, hdeadline, fun _ => howing.tick cb hresting hconn⟩

def slowWorld : World :=
  { literal := fun _ _ => some ⟨2, [127, 0, 0, 1]⟩, opens := [.ok 3], watches := [.ok 0] }

/-- A request that is not answered ends at its deadline. -/
theorem run_completes_once_overdue :
    let s := run idleCallback (boot true slowWorld (fun _ => none) ())
      [.call (.start { url := ascii "https://h/", timeoutMs := 50, onDone := some 7 } 1000)]
    ∃ after, (step idleCallback s (.tick 1050)).trace = after ++ s.trace ∧ Ended 7 after := by
  intro s
  have hflying : s.fetch.conn.map (fun conn => (conn.onDone, conn.deadlineMs)) =
      some (some 7, 1050) := by
    decide
  obtain ⟨conn, hconn, hterms⟩ := Option.map_eq_some_iff.mp hflying
  obtain ⟨hid, hdeadline⟩ := Prod.mk.inj hterms
  obtain ⟨_, _, _, _, _, hdue⟩ := run_completes_once idleCallback true slowWorld (fun _ => none) ()
    [.call (.start { url := ascii "https://h/", timeoutMs := 50, onDone := some 7 } 1000)]
  obtain ⟨_, _, _, _, htick⟩ := hdue conn hconn
  obtain ⟨_, after, hid', htrace, hended⟩ := htick 1050 (le_of_eq hdeadline)
  cases hid.symm.trans hid'
  exact ⟨after, htrace, hended⟩

end Inkwell.Fetch
