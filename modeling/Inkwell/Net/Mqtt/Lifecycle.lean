import Inkwell.Net.Mqtt.Session

namespace Inkwell.Mqtt
open List hiding filter
open Net

def attemptFailures : List Event → List Failure
  | [] => []
  | .attempted :: _ => []
  | .failed f :: t => attemptFailures t ++ [f]
  | _ :: t => attemptFailures t

def running : List Event → Bool
  | [] => false
  | .started _ :: _ => true
  | .stopped :: _ => false
  | _ :: t => running t

def Event.plain : Event → Bool
  | .started _ | .stopped | .attempted | .failed _ => false
  | _ => true

theorem attemptFailures_plain (h : e.plain) : attemptFailures (e :: t) = attemptFailures t := by
  cases e <;> first | rfl | cases h

theorem running_plain (h : e.plain) : running (e :: t) = running t := by
  cases e <;> first | rfl | cases h

structure FiltersHeld (filters : List Bytes) : Prop where
  count : filters.length ≤ filtersMax
  sized : ∀ f ∈ filters, f ≠ [] ∧ f.length < filterMax
  nodup : filters.Nodup

structure Quiet (c : Core) : Prop where
  socket : c.socket ↔ c.state.connected
  lookup : c.lookup ↔ c.state = .resolving
  empty : c.state = .waiting → c.input = [] ∧ c.skipRemaining = 0 ∧ c.out = {}
  armed : c.state = .waiting → 0 < c.retryAtMs
  failed : c.state = .waiting → c.failure.OneHalf ∧ (attemptFailures c.trace).head? = some c.failure
  fresh : c.state ≠ .waiting → c.state ≠ .off → c.failure = {} ∧ attemptFailures c.trace = []
  deadline : c.state = .connecting ∨ c.state = .securing ∨ c.state = .greeting → c.deadlineMs ≠ 0
  unhurried : c.state = .resolving → c.deadlineMs = 0
  off : c.state = .off → running c.trace = false
  filters : FiltersHeld c.filters

structure SameStory (t t' : List Event) : Prop where
  failures : attemptFailures t' = attemptFailures t
  running : running t' = running t

theorem SameStory.refl : SameStory t t := ⟨rfl, rfl⟩

theorem SameStory.cons (h : SameStory t t') (he : e.plain) : SameStory t (e :: t') :=
  ⟨(attemptFailures_plain he).trans h.failures, (running_plain he).trans h.running⟩

theorem SameStory.plain (he : e.plain) : SameStory t (e :: t) := SameStory.refl.cons he

theorem Quiet.frame (hq : Quiet c) (hstate : c'.state = c.state) (hlookup : c'.lookup = c.lookup)
    (hsocket : c'.socket = c.socket) (hretry : c'.retryAtMs = c.retryAtMs)
    (hdeadline : c'.deadlineMs = c.deadlineMs) (hfailure : c'.failure = c.failure)
    (hstory : SameStory c.trace c'.trace)
    (hempty : c.socket = false →
      c'.input = c.input ∧ c'.skipRemaining = c.skipRemaining ∧ c'.out = c.out)
    (hfilters : FiltersHeld c'.filters) : Quiet c' where
  socket := by rw [hsocket, hstate]; exact hq.socket
  lookup := by rw [hlookup, hstate]; exact hq.lookup
  empty h := by
    rw [hstate] at h
    have hs : c.socket = false := by
      have hn := mt hq.socket.mp (by rw [h]; decide)
      simpa using hn
    obtain ⟨h₁, h₂, h₃⟩ := hempty hs
    rw [h₁, h₂, h₃]
    exact hq.empty h
  armed h := by rw [hretry]; exact hq.armed (hstate ▸ h)
  failed h := by rw [hfailure, hstory.failures]; exact hq.failed (hstate ▸ h)
  fresh h₁ h₂ := by rw [hfailure, hstory.failures]; exact hq.fresh (hstate ▸ h₁) (hstate ▸ h₂)
  deadline h := by rw [hdeadline]; exact hq.deadline (hstate ▸ h)
  unhurried h := by rw [hdeadline]; exact hq.unhurried (hstate ▸ h)
  off h := by rw [hstory.running]; exact hq.off (hstate ▸ h)
  filters := hfilters

@[simp] theorem enter_state (c : Core) : (c.enter st).state = st := by
  unfold Core.enter
  split
  · assumption
  · rfl

theorem enter_fields (c : Core) : (c.enter st).lookup = c.lookup ∧ (c.enter st).socket = c.socket ∧
      (c.enter st).generation = c.generation ∧ (c.enter st).input = c.input ∧
      (c.enter st).skipRemaining = c.skipRemaining ∧ (c.enter st).out = c.out ∧
      (c.enter st).filters = c.filters ∧ (c.enter st).retryAtMs = c.retryAtMs ∧
      (c.enter st).deadlineMs = c.deadlineMs ∧ (c.enter st).failure = c.failure := by
  unfold Core.enter
  split <;> exact ⟨rfl, rfl, rfl, rfl, rfl, rfl, rfl, rfl, rfl, rfl⟩

theorem enter_story (c : Core) (st : State) : SameStory c.trace (c.enter st).trace := by
  unfold Core.enter
  split
  · exact .refl
  · exact .plain rfl

/-- What holds with the state set, also once the change is noted, holds where it is entered. -/
theorem enter_induction {c : Core} {P : Core → Prop} (h : P { c with state := st })
    (hnoted : P { c with state := st, trace := .entered st :: c.trace }) : P (c.enter st) := by
  unfold Core.enter
  split
  · rename_i heq
    have hsame : ({ c with state := st } : Core) = c := by rw [← heq]
    rwa [hsame] at h
  · exact hnoted

def Fresh (c : Core) : Prop := c.failure = {} ∧ attemptFailures c.trace = []

theorem Quiet.fresh_of_socket (hq : Quiet c) (hs : c.socket) : Fresh c := by
  have hc := hq.socket.mp hs
  refine hq.fresh ?_ ?_
  · intro h
    rw [h] at hc
    cases hc
  · intro h
    rw [h] at hc
    cases hc

theorem Quiet.no_lookup (hq : Quiet c) (hs : c.socket) : c.lookup = false := by
  have hc := hq.socket.mp hs
  have hn : ¬ c.lookup := by
    intro h
    rw [hq.lookup.mp h] at hc
    cases hc
  simpa using hn

theorem backoffDelay_pos : 0 < backoffDelay failures := by
  have h :
      0 < backoffBaseMs <<< (if failures > 1 then min (failures - 1) backoffShiftMax else 0) := by
    rw [Nat.shiftLeft_eq]
    exact Nat.mul_pos (by decide) (Nat.pow_pos (by decide))
  exact Nat.lt_min.mpr ⟨h, by decide⟩

theorem quiet_enter (hsocket : c.socket = st.connected) (hlookup : c.lookup = (st == .resolving))
    (hempty : st = .waiting → c.input = [] ∧ c.skipRemaining = 0 ∧ c.out = {})
    (harmed : st = .waiting → 0 < c.retryAtMs)
    (hfailed : st = .waiting → c.failure.OneHalf ∧ (attemptFailures c.trace).head? = some c.failure)
    (hfresh : st ≠ .waiting → st ≠ .off → Fresh c)
    (hdeadline : st = .connecting ∨ st = .securing ∨ st = .greeting → c.deadlineMs ≠ 0)
    (hunhurried : st = .resolving → c.deadlineMs = 0) (hoff : st = .off → running c.trace = false)
    (hfilters : FiltersHeld c.filters) : Quiet (c.enter st) := by
  obtain ⟨hl, hs, _, hi, hk, ho, hf, hr, hd, hfail⟩ := enter_fields c
  have hstory := enter_story c st
  constructor
  · rw [hs, hsocket, enter_state]
  · rw [hl, hlookup, enter_state]
    exact beq_iff_eq
  · rw [hi, hk, ho, enter_state]
    exact hempty
  · rw [hr, enter_state]
    exact harmed
  · rw [hfail, hstory.failures, enter_state]
    exact hfailed
  · rw [hfail, hstory.failures, enter_state]
    exact hfresh
  · rw [hd, enter_state]
    exact hdeadline
  · rw [hd, enter_state]
    exact hunhurried
  · rw [hstory.running, enter_state]
    exact hoff
  · rw [hf]
    exact hfilters

theorem quiet_failed (hw : Fresh c) (hf : f.OneHalf) (hfilters : FiltersHeld c.filters) :
    Quiet (c.failed f) := by
  obtain ⟨hfailure, hnone⟩ := hw
  have hrecord : (if c.failure.isSet then c.failure else f) = f := by simp [hfailure, Failure.isSet]
  apply quiet_enter rfl rfl
  · intro _
    exact ⟨rfl, rfl, rfl⟩
  · intro _
    exact lt_of_lt_of_le backoffDelay_pos (Nat.le_add_left _ _)
  · intro _
    simp only [hrecord]
    exact ⟨hf, by simp [attemptFailures, hnone]⟩
  · intro h
    exact absurd rfl h
  · intro h
    rcases h with h | h | h <;> cases h
  · exact nofun
  · exact nofun
  · exact hfilters

theorem quiet_connected (hw : Fresh c) (hs : c.socket) (hl : c.lookup = false)
    (hst : st.connected) (hd : c.deadlineMs ≠ 0 ∨ st = .ready)
    (hfilters : FiltersHeld c.filters) : Quiet (c.enter st) := by
  have hnot : st ≠ .waiting ∧ st ≠ .off ∧ st ≠ .resolving := by
    refine ⟨?_, ?_, ?_⟩ <;> rintro rfl <;> cases hst
  obtain ⟨hwait, hoff, hres⟩ := hnot
  apply quiet_enter (hs.trans hst.symm)
  · rw [hl]
    exact (beq_eq_false_iff_ne.mpr hres).symm
  · intro h
    exact absurd h hwait
  · intro h
    exact absurd h hwait
  · intro h
    exact absurd h hwait
  · intro _ _
    exact hw
  · intro h
    rcases hd with hd | hd
    · exact hd
    · rw [hd] at h
      rcases h with h | h | h <;> cases h
  · intro h
    exact absurd h hres
  · intro h
    exact absurd h hoff
  · exact hfilters

theorem quiet_off (hstate : c.state = .off) (hs : c.socket = false) (hl : c.lookup = false)
    (hr : running c.trace = false) (hfilters : FiltersHeld c.filters) : Quiet c := by
  have henter : c.enter .off = c := if_pos hstate
  rw [← henter]
  apply quiet_enter hs hl
  · exact nofun
  · exact nofun
  · exact nofun
  · intro _ h
    exact absurd rfl h
  · intro h
    rcases h with h | h | h <;> cases h
  · exact nofun
  · intro _
    exact hr
  · exact hfilters

theorem quiet_stopped (c : Core) (hfilters : FiltersHeld c.filters) : Quiet (c.stopped t) := by
  obtain ⟨hl, hs, _, _, _, _, hf, _⟩ := enter_fields
    { c.closed with
      generation := c.generation + 1, failure := {}, failures := 0, retryAtMs := 0
      trace := .stopped :: t }
  exact quiet_off (enter_state _) hs hl (enter_story _ _).running (hf ▸ hfilters)

theorem Prelude.clean (h : Prelude who c b) (hq : Quiet c) :
    Fresh b ∧ b.socket = false ∧ b.lookup = false ∧ b.filters = c.filters := by
  cases h with
  | start => exact ⟨⟨rfl, rfl⟩, rfl, rfl, rfl⟩
  | retry _ hwait =>
    have hs := mt hq.socket.mp (by rw [hwait]; decide)
    have hk := mt hq.lookup.mp (by rw [hwait]; decide)
    exact ⟨⟨rfl, rfl⟩, Bool.eq_false_iff.mpr hs, Bool.eq_false_iff.mpr hk, rfl⟩
  | resolved _ hres =>
    have hs := mt hq.socket.mp (by rw [hres]; decide)
    exact ⟨hq.fresh (by rw [hres]; decide) (by rw [hres]; decide),
      Bool.eq_false_iff.mpr hs, rfl, rfl⟩

theorem Prelude.newer (h : Prelude .app c b) : c.generation < b.generation := by
  cases h with
  | start => exact lt_add_one _
  | retry hl
  | resolved hl => exact absurd rfl hl

theorem Send.story (h : Send o t o' t') : SameStory t t' := by
  cases h with
  | accepted | blocked | refused => exact .plain rfl
  | drained | compacted => exact .refl

theorem Pump.quiet (h : Pump c c') (hq : Quiet c) : Quiet c' := by
  have hlive : ∀ {c : Core}, Quiet c → c.state = .ready → c.socket ≠ false := by
    intro c hq hr hs
    have ht := hq.socket.mpr (by rw [hr]; rfl)
    rw [ht] at hs
    cases hs
  cases h with
  | idle => exact hq
  | subscribe hr
  | noRoom hr =>
    exact hq.frame rfl rfl rfl rfl rfl rfl ((SameStory.plain rfl).cons rfl)
      (fun hs => absurd hs (hlive hq hr)) hq.filters

theorem FiltersHeld.add (h : FiltersHeld filters) (hne : filter ≠ [])
    (hlen : filter.length < filterMax) (hnew : filter ∉ filters)
    (hroom : filters.length < filtersMax) : FiltersHeld (filters ++ [filter]) where
  count := by rw [length_append]; exact hroom
  sized := by
    intro f hf
    rcases mem_append.mp hf with hf | hf
    · exact h.sized f hf
    · rw [mem_singleton.mp hf]
      exact ⟨hne, hlen⟩
  nodup := by
    refine nodup_append.mpr ⟨h.nodup, nodup_singleton _, ?_⟩
    intro a ha b hb hab
    rw [mem_singleton.mp hb] at hab
    exact hnew (hab ▸ ha)

theorem quiet_answered (hq : Quiet c) : Quiet (c.answered n code) := by
  refine hq.frame rfl rfl rfl rfl rfl rfl ?_ (fun _ => ⟨rfl, rfl, rfl⟩) hq.filters
  unfold Core.answered
  split
  · exact ((SameStory.plain rfl).cons rfl).cons rfl
  · exact (SameStory.plain rfl).cons rfl

theorem Act.quiet (h : Act who c c') (hq : Quiet c) : Quiet c' := by
  have hopen : ∀ {x : Prop}, c.socket → c.socket = false → x := by
    intro x h₁ h₂
    rw [h₁] at h₂
    cases h₂
  cases h with
  | clock => exact hq.frame rfl rfl rfl rfl rfl rfl (.refl) (fun _ => ⟨rfl, rfl, rfl⟩) hq.filters
  | called | ignored =>
    exact hq.frame rfl rfl rfl rfl rfl rfl (.plain rfl) (fun _ => ⟨rfl, rfl, rfl⟩) hq.filters
  | moved _ hs => exact hq.frame rfl rfl rfl rfl rfl rfl (.refl) (hopen hs) hq.filters
  | received _ hs => exact hq.frame rfl rfl rfl rfl rfl rfl (.plain rfl) (hopen hs) hq.filters
  | skipped _ hs => exact hq.frame rfl rfl rfl rfl rfl rfl (.plain rfl) (hopen hs) hq.filters
  | delivered _ hs => exact hq.frame rfl rfl rfl rfl rfl rfl (.plain rfl) (hopen hs) hq.filters
  | send hv h => exact hq.frame rfl rfl rfl rfl rfl rfl h.story (hopen hv.1) hq.filters
  | queued hv => exact hq.frame rfl rfl rfl rfl rfl rfl (.plain rfl) (hopen hv.1) hq.filters
  | failed hv f hf => exact quiet_failed (hq.fresh_of_socket hv.1) hf hq.filters
  | connect h _ _ _ hd =>
    obtain ⟨hw, _, hl, hfil⟩ := h.clean hq
    exact quiet_connected hw rfl hl rfl (.inl hd) (hfil ▸ hq.filters)
  | lookUp h =>
    obtain ⟨hw, hs, _, hfil⟩ := h.clean hq
    apply quiet_enter hs rfl
    · exact nofun
    · exact nofun
    · exact nofun
    · intro _ _
      exact hw
    · intro h
      rcases h with h | h | h <;> cases h
    · intro _
      rfl
    · exact nofun
    · exact hfil ▸ hq.filters
  | missed h f hf =>
    obtain ⟨hw, _, _, hfil⟩ := h.clean hq
    exact quiet_failed hw hf (hfil ▸ hq.filters)
  | refused h _ _ f hf =>
    obtain ⟨hw, _, _, hfil⟩ := h.clean hq
    exact quiet_failed hw hf (hfil ▸ hq.filters)
  | secure _ hs _ _ hd =>
    exact quiet_connected (hq.fresh_of_socket hs) hs (hq.no_lookup hs) rfl (.inl hd) hq.filters
  | greet _ hs _ _ hd =>
    exact quiet_connected (hq.fresh_of_socket hs) hs (hq.no_lookup hs) rfl (.inl hd) hq.filters
  | answered _ _ _ h => exact h.quiet (quiet_answered hq)
  | addFilter _ hne hlen hnew hroom h =>
    refine h.quiet ?_
    exact hq.frame rfl rfl rfl rfl rfl rfl (.refl) (fun _ => ⟨rfl, rfl, rfl⟩)
      (hq.filters.add hne hlen hnew hroom)
  | cleared =>
    exact hq.frame rfl rfl rfl rfl rfl rfl (.plain rfl) (fun _ => ⟨rfl, rfl, rfl⟩)
      ⟨Nat.zero_le _, nofun, nodup_nil⟩
  | stopped => exact quiet_stopped c hq.filters
  | shutdown => exact quiet_off rfl rfl rfl rfl hq.filters

theorem Steps.quiet (h : Steps who c c') (hq : Quiet c) : Quiet c' := by
  induction h with
  | refl => exact hq
  | tail _ ha ih => exact ha.quiet ih

theorem quiet_accepted (hq : Quiet c) (hs : c.socket) : Quiet c.accepted := by
  have hw := hq.fresh_of_socket hs
  exact quiet_connected ⟨rfl, hw.2⟩ hs (hq.no_lookup hs) rfl (.inr rfl) hq.filters

theorem quiet_resubscribed (hq : Quiet c) : Quiet c.resubscribed :=
  hq.frame rfl rfl rfl rfl rfl rfl (.plain rfl) (fun _ => ⟨rfl, rfl, rfl⟩) hq.filters

theorem Move.quiet (h : Move c c') (hq : Quiet c) : Quiet c' := by
  cases h with
  | act h => exact h.quiet hq
  | accepted hs _ h _ hp => exact hp.quiet (quiet_resubscribed (h.quiet (quiet_accepted hq hs)))
  | replaced hs _ h => exact h.quiet (quiet_accepted hq hs)

theorem Moves.quiet (h : Moves c c') (hq : Quiet c) : Quiet c' := by
  induction h with
  | refl => exact hq
  | tail _ hm ih => exact hm.quiet ih

theorem Pump.kept (h : Pump c c') :
    c'.state = c.state ∧ c'.socket = c.socket ∧ c'.generation = c.generation := by
  cases h with
  | idle | subscribe | noRoom => exact ⟨rfl, rfl, rfl⟩

theorem failed_generation (c : Core) : (c.failed f).generation = c.generation :=
  (enter_fields _).2.2.1

inductive Outcome (c c' : Core) : Prop
  | kept (hg : c'.generation = c.generation) (hs : c'.state = c.state)
      (hk : c'.socket = c.socket)
  | dropped (hg : c'.generation = c.generation) (hr : c.state = .ready) (hw : c'.state = .waiting)
  | replaced (hg : c.generation < c'.generation) (hr : c'.state ≠ .ready)

theorem Act.outcome (h : Act .app c c') : Outcome c c' := by
  cases h with
  | clock hl
  | secure hl
  | greet hl
  | shutdown hl => exact absurd rfl hl
  | called | send | queued | cleared => exact .kept rfl rfl rfl
  | moved hl => cases hl
  | received hl => cases hl
  | skipped hl => cases hl
  | delivered hl => cases hl
  | failed hv =>
    obtain ⟨_, hl | hr⟩ := hv
    · exact absurd rfl hl
    · exact .dropped (failed_generation _) hr (enter_state _)
  | connect h =>
    refine .replaced ?_ (by rw [enter_state]; decide)
    rw [(enter_fields _).2.2.1]
    exact h.newer
  | lookUp h =>
    refine .replaced ?_ (by rw [enter_state]; decide)
    rw [(enter_fields _).2.2.1]
    exact h.newer
  | missed h =>
    exact .replaced (by rw [failed_generation]; exact h.newer)
      (by rw [Core.failed, enter_state]; decide)
  | refused h =>
    exact .replaced (by rw [failed_generation]; exact h.newer)
      (by rw [Core.failed, enter_state]; decide)
  | ignored hl => cases hl
  | answered hl => cases hl
  | addFilter _ _ _ _ _ h =>
    obtain ⟨hs, hk, hg⟩ := h.kept
    exact .kept hg hs hk
  | stopped =>
    refine .replaced ?_ (by rw [Core.stopped, enter_state]; decide)
    rw [Core.stopped, (enter_fields _).2.2.1]
    exact lt_add_one _

theorem Outcome.trans (h₁ : Outcome a b) (h₂ : Outcome b c) : Outcome a c := by
  cases h₁ with
  | kept hg hs hk =>
    cases h₂ with
    | kept hg' hs' hk' => exact .kept (hg'.trans hg) (hs'.trans hs) (hk'.trans hk)
    | dropped hg' hr hw => exact .dropped (hg'.trans hg) (hs ▸ hr) hw
    | replaced hg' hr => exact .replaced (hg ▸ hg') hr
  | dropped hg hr hw =>
    cases h₂ with
    | kept hg' hs' => exact .dropped (hg'.trans hg) hr (hs'.trans hw)
    | dropped _ hr' =>
      rw [hw] at hr'
      cases hr'
    | replaced hg' hr' => exact .replaced (hg ▸ hg') hr'
  | replaced hg hr =>
    cases h₂ with
    | kept hg' hs' => exact .replaced (hg' ▸ hg) (hs' ▸ hr)
    | dropped _ hr' => exact absurd hr' hr
    | replaced hg' hr' => exact .replaced (hg.trans hg') hr'

theorem Calls.outcome (h : Calls c c') : Outcome c c' := by
  induction h with
  | refl => exact .kept rfl rfl rfl
  | tail _ ha ih => exact ih.trans ha.outcome

end Inkwell.Mqtt
