import Inkwell.Net.Mqtt.Pulse
import Inkwell.Net.Mqtt.Run

namespace Inkwell.Mqtt
open Net

/-- The connection is left alone. Only bytes accepted or a PINGREQ move the time of the next
PINGREQ, and one is queued only when it has come. -/
structure Carries (p p' : Pulse) : Prop where
  socket : p'.socket = p.socket
  opens : p'.opens = p.opens
  ready : p.ready → p'.ready
  moved : p'.next = p.next ∧ p'.accepted = p.accepted ∧ p'.pings = p.pings ∨
    p'.next = p'.now + pingIntervalMs ∧ (p.accepted < p'.accepted ∨ p.pings < p'.pings)
  due : p.pings < p'.pings → p.next ≤ p'.now
  more : p.accepted ≤ p'.accepted ∧ p.pings ≤ p'.pings ∧ p'.pings ≤ p.pings + 1

theorem Ended.stays (h : Ended p q) (hs : r.socket = q.socket) (ho : r.opens = q.opens) :
    Ended p r := by
  refine ⟨ho ▸ h.opens, ?_⟩
  rw [hs, ho]
  exact h.gone

theorem Ended.ended (h : Ended p q) (h' : Ended q r) : Ended p r := h.beats (.ended h')

theorem Carries.refl (p : Pulse) : Carries p p :=
  ⟨rfl, rfl, id, .inl ⟨rfl, rfl, rfl⟩, fun h => absurd h (lt_irrefl _), le_rfl, le_rfl,
    Nat.le_succ _⟩

theorem Beats.carries (h : Beats p q) :
    Ended p q ∨ Carries p q ∧ q.now = p.now ∧ q.pings = p.pings := by
  cases h with
  | still r hr =>
    exact .inr ⟨⟨rfl, rfl, hr, .inl ⟨rfl, rfl, rfl⟩, fun h => absurd h (lt_irrefl _),
      le_rfl, le_rfl, Nat.le_succ _⟩, rfl, rfl⟩
  | sent r hr n hn =>
    exact .inr ⟨⟨rfl, rfl, hr, .inr ⟨rfl, .inl hn⟩, fun h => absurd h (lt_irrefl _),
      hn.le, le_rfl, Nat.le_succ _⟩, rfl, rfl⟩
  | ended h => exact .inl h

theorem Carries.after (hc : Carries q r) (hclock : r.now = q.now) (h : Carries p q)
    (hnow : q.now = p.now) (hpings : q.pings = p.pings) : Carries p r := by
  have hmore := hc.more
  rw [hpings] at hmore
  have hready := fun hr => hc.ready (h.ready hr)
  rcases h.moved with ⟨hnext, haccepted, _⟩ | ⟨hnext, hsent⟩
  · have hmoved := hc.moved
    have hdue := hc.due
    rw [hnext, haccepted, hpings] at hmoved
    rw [hnext, hpings] at hdue
    rw [haccepted] at hmore
    exact ⟨hc.socket.trans h.socket, hc.opens.trans h.opens, hready, hmoved, hdue, hmore⟩
  · -- what was just put off is not due
    have hlate : ¬ p.pings < r.pings := by
      intro hlt
      have hdue := hc.due (hpings ▸ hlt)
      have hpos : 0 < pingIntervalMs := by decide
      omega
    have hsent : p.accepted < r.accepted := by omega
    refine ⟨hc.socket.trans h.socket, hc.opens.trans h.opens, hready, .inr ⟨?_, .inl hsent⟩,
      fun hlt => absurd hlt hlate, hsent.le, hmore.2⟩
    rcases hc.moved with ⟨hsame, _⟩ | ⟨hlater, _⟩
    · rw [hsame, hnext, hclock]
    · exact hlater

/-- A tick, by what is left of the connection at its end; a callback may have started the client
anew. -/
def Ticked (nowMs : Nat) (p : Pulse) (s : Sys) : Prop :=
  Ended p s.pulse ∨ (s.pulse.socket = p.socket ∧ s.pulse.opens = p.opens) ∧
    (p.now = nowMs → Carries p s.pulse ∧ s.pulse.now = nowMs ∧
      (s.pulse.ready → s.pulse.pings = p.pings → s.pulse.next = 0 ∨ nowMs < s.pulse.next))

theorem Beats.ended_after (h : Beats p q) (h' : Ended q r) : Ended p r := by
  cases h with
  | still | sent => exact ⟨h'.opens, h'.gone⟩
  | ended h => exact h.ended h'

theorem Ticked.after (ht : Ticked nowMs q s) (h : Beats p q) : Ticked nowMs p s := by
  rcases ht with hended | ⟨⟨hsocket, hopens⟩, hticked⟩
  · exact .inl (h.ended_after hended)
  rcases h.carries with hended | ⟨hcarries, hnow, hpings⟩
  · exact .inl (hended.stays hsocket hopens)
  refine .inr ⟨⟨hsocket.trans hcarries.socket, hopens.trans hcarries.opens⟩, fun hclock => ?_⟩
  obtain ⟨hc, hlater, hasked⟩ := hticked (hnow.trans hclock)
  have hsame := hlater.trans (hnow.trans hclock).symm
  exact ⟨hc.after hsame hcarries hnow hpings, hlater, fun hr hp => hasked hr (hp.trans hpings.symm)⟩

theorem ticked_idle (h : s.pulse.ready → s.pulse.next = 0 ∨ nowMs < s.pulse.next) :
    Ticked nowMs s.pulse s :=
  .inr ⟨⟨rfl, rfl⟩, fun hclock => ⟨.refl _, hclock, fun hr _ => h hr⟩⟩

theorem ticked_unready (h : s.client.state ≠ .ready) : Ticked nowMs s.pulse s :=
  ticked_idle fun hr => absurd (beq_iff_eq.mp hr) h

def Held (s s' : Sys) : Prop := s'.client.socket.isSome ∧ opens s'.trace = opens s.trace

instance (s s' : Sys) : Decidable (Held s s') := inferInstanceAs (Decidable (_ ∧ _))

theorem Held.not_ended (h : Held s s') : ¬ Ended s.pulse s'.pulse := by
  intro hended
  rcases hended.gone with hgone | hmore
  · exact absurd (hgone.symm.trans h.1) nofun
  · exact absurd h.2 (ne_of_gt hmore)

section Tick
variable {cb : Sys → Sys} (hcb : ∀ s : Sys, Beats s.pulse (cb s).pulse)
include hcb

theorem keepAlive_ticked : Ticked nowMs s.pulse (keepAlive cb s nowMs) := by
  unfold keepAlive
  split
  · rename_i hdue
    have hpacket : encodeEmpty 2 .pingreq = .ok pingPacket := rfl
    simp only [hpacket]
    have hcases := mqttQueue_cases s pingPacket
    generalize mqttQueue s pingPacket = w at *
    obtain ⟨r, s'⟩ := w
    obtain ⟨hfull, hpulse⟩ | hflushed := hcases
    · cases hfull
      exact .inl (fail_ended hcb _ (congrArg Pulse.opens hpulse).ge)
    cases r with
    | some =>
      have hopens : s'.pulse.opens = s.pulse.opens := hflushed.opens
      exact .inl (fail_ended hcb _ hopens.ge)
    | none =>
      rcases (hflushed.beats rfl).carries with hended | ⟨hc, hnow, hpings⟩
      · exact .inl ⟨hended.opens, hended.gone⟩
      refine .inr ⟨⟨hc.socket, hc.opens⟩, fun hclock => ?_⟩
      have hnow : s'.client.nowMs = nowMs := hnow.trans hclock
      refine ⟨⟨hc.socket, hc.opens, hc.ready, .inr ⟨?_, .inr ?_⟩, ?_, ?_⟩, hnow, ?_⟩
      · exact congrArg (· + pingIntervalMs) hnow.symm
      · exact hpings.ge
      · intro _
        exact hdue.2.trans hnow.ge
      · exact ⟨hc.more.1, (Nat.le_succ _).trans hpings.ge, hpings.le⟩
      · intro _ hsame
        exact absurd (hpings.symm.trans hsame) (Nat.succ_ne_self _)
  · refine ticked_idle fun _ => ?_
    have hnext : s.pulse.next = s.client.nextPingMs := rfl
    omega

theorem tickConnection_ticked : Ticked nowMs s.pulse (tickConnection cb s nowMs) := by
  unfold tickConnection
  split
  · exact .inl (fail_ended hcb _ le_rfl)
  simp only
  -- the reads left over from the last readiness event, and then the clock
  have hrest (s' : Sys) (h : Beats s.pulse s'.pulse) : Ticked nowMs s.pulse
      (if s'.client.state ≠ .ready then s'
        else if silent s'.client nowMs then failNet cb s' .timedOut .none
        else keepAlive cb s' nowMs) := by
    split
    · rename_i hst
      exact (ticked_unready hst).after h
    split
    · exact .inl (h.ended_after (fail_ended hcb _ le_rfl))
    · exact (keepAlive_ticked hcb).after h
  split
  · exact hrest _ (mqttReadReady_beats hcb)
  · exact hrest s (.refl _)

def Clocked (p p' : Pulse) : Op → Prop
  | .tick nowMs => p'.now = nowMs ∧ (p'.ready → p'.pings = p.pings → p'.next = 0 ∨ nowMs < p'.next)
  | _ => p'.now = p.now ∧ p'.pings = p.pings

def Op.time : Op → Option Nat
  | .tick nowMs => some nowMs
  | _ => none

/-- The connection is left alone: without bytes accepted or a PINGREQ the next one stays where it
is, and with ticks from `t` on it stays an interval behind `t`. -/
structure Spans (ops : List Op) (p p' : Pulse) : Prop where
  opens : p'.opens = p.opens
  more : p.accepted ≤ p'.accepted ∧ p.pings ≤ p'.pings
  still : p'.accepted = p.accepted → p'.pings = p.pings → p'.next = p.next
  behind : ∀ t, (∀ u ∈ ops.filterMap Op.time, t ≤ u) → t ≤ p.now → t + pingIntervalMs ≤ p.next →
    t + pingIntervalMs ≤ p'.next

section
variable {s : Sys} (hre : Reenters cb) (hq : Quiet s.core)
include hre hq

theorem clientTick_ticked : Ticked nowMs { s.pulse with now := nowMs } (clientTick cb s nowMs) := by
  have hclock : Act .loop s.core ({ s with client := { s.client with nowMs } } : Sys).core :=
    .clock loop_ne_app nowMs
  have hq' := ((Steps.one hclock).trans (resolveTick_steps hre (hclock.quiet hq) nowMs)).quiet hq
  have hresolve := resolveTick_beats hcb { s with client := { s.client with nowMs } } nowMs
  unfold clientTick
  simp only
  generalize resolveTick cb { s with client := { s.client with nowMs } } nowMs = s' at *
  split
  · rename_i hoff
    exact (ticked_unready (by rw [hoff]; decide)).after hresolve
  split
  · rename_i hwait
    split
    · have hsocket : s'.client.socket.isSome = false := by
        rw [← Bool.not_eq_true]
        intro hsome
        have hconnected := hq'.socket.mp hsome
        rw [show s'.core.state = .waiting from hwait] at hconnected
        cases hconnected
      have hattempt := mqttAttempt_ended (s := s'.log (.retried nowMs)) hcb
        (Option.isSome_eq_false_iff.mp hsocket |> Option.isNone_iff_eq_none.mp)
      exact .inl (hresolve.ended_after hattempt)
    · exact (ticked_unready (by rw [hwait]; decide)).after hresolve
  · exact (tickConnection_ticked hcb).after hresolve

theorem step_carries :
    Ended s.pulse (step cb s op).pulse ∨
      Carries s.pulse (step cb s op).pulse ∧ Clocked s.pulse (step cb s op).pulse op := by
  cases op with
  | call c => exact (apiCall_beats hcb s c).carries
  | shutdown => exact .inl ⟨le_rfl, .inl rfl⟩
  | tick =>
    rcases clientTick_ticked hcb hre hq with hended | ⟨_, hticked⟩
    · exact .inl ⟨hended.opens, hended.gone⟩
    · obtain ⟨hc, hclocked⟩ := hticked rfl
      exact .inr ⟨⟨hc.socket, hc.opens, hc.ready, hc.moved, hc.due, hc.more⟩, hclocked⟩
  | socketEvent => exact (mqttFdCallback_beats hcb).carries
  | lookupEvent => exact (resolveTryFinish_beats hcb s).carries

theorem step_ended (h : Ended p s.pulse) (op : Op) : Ended p (step cb s op).pulse := by
  rcases step_carries hcb hre hq with hended | ⟨hc, _⟩
  · exact h.ended hended
  · exact h.stays hc.socket hc.opens

omit hcb in
theorem step_quiet (op : Op) : Quiet (step cb s op).core :=
  ((moves_survive hre).step hre hq (.refl) op).quiet hq

omit hcb in
theorem run_quiet (ops : List Op) : Quiet (run cb s ops).core :=
  ((moves_survive hre).run hre ops hq (.refl)).quiet hq

theorem run_ended (h : Ended p s.pulse) : Ended p (run cb s ops).pulse := by
  induction ops generalizing s with
  | nil => exact h
  | cons op _ ih => exact ih (step_quiet hre hq op) (step_ended hcb hre hq h op)

theorem run_spans (ops : List Op) :
    Ended s.pulse (run cb s ops).pulse ∨ Spans ops s.pulse (run cb s ops).pulse := by
  induction ops generalizing s with
  | nil => exact .inr ⟨rfl, ⟨le_rfl, le_rfl⟩, fun _ _ => rfl, fun _ _ _ h => h⟩
  | cons op ops ih =>
    have hq' := step_quiet hre hq op
    have hrun : run cb s (op :: ops) = run cb (step cb s op) ops := rfl
    rw [hrun]
    rcases step_carries hcb hre hq with hended | ⟨hc, hclocked⟩
    · exact .inl (run_ended hcb hre hq' hended)
    rcases ih hq' with hended | hspans
    · exact .inl ⟨hc.opens ▸ hended.opens, hc.opens ▸ hended.gone⟩
    have hmore := hc.more
    have hafter := hspans.more
    refine .inr ⟨hspans.opens.trans hc.opens, ⟨by omega, by omega⟩, ?_, ?_⟩
    · intro _ _
      have hstill := hspans.still (by omega) (by omega)
      rcases hc.moved with ⟨hnext, _⟩ | ⟨_, _⟩
      · exact hstill.trans hnext
      · omega
    · intro t hticks hnow hnext
      have hlater : t ≤ (step cb s op).pulse.now := by
        cases op with
        | tick nowMs =>
          rw [hclocked.1]
          exact hticks nowMs List.mem_cons_self
        | _ => exact hnow.trans hclocked.1.ge
      have hrest : ∀ u ∈ ops.filterMap Op.time, t ≤ u := by
        intro u hu
        apply hticks
        cases op with
        | tick => exact List.mem_cons_of_mem _ hu
        | _ => exact hu
      refine hspans.behind t hrest hlater ?_
      rcases hc.moved with ⟨hsame, _⟩ | ⟨_, _⟩
      · exact hnext.trans hsame.ge
      · omega

theorem held_spans (hheld : Held s (step cb (run cb (step cb s op) ops) op')) :
    let s₁ := step cb s op
    let s₂ := run cb s₁ ops
    let s₃ := step cb s₂ op'
    (Carries s.pulse s₁.pulse ∧ Clocked s.pulse s₁.pulse op) ∧ Spans ops s₁.pulse s₂.pulse ∧
      Carries s₂.pulse s₃.pulse ∧ Clocked s₂.pulse s₃.pulse op' := by
  have hq₁ := step_quiet hre hq op
  have hq₂ := run_quiet hre hq₁ ops
  rcases step_carries hcb hre hq with hended | hfirst
  · exact absurd (step_ended hcb hre hq₂ (run_ended hcb hre hq₁ hended) op') hheld.not_ended
  refine ⟨hfirst, ?_⟩
  have hopens := hfirst.1.opens
  rcases run_spans hcb hre hq₁ ops with hended | hspans
  · have hended := step_ended hcb hre hq₂ hended op'
    exact absurd ⟨hopens ▸ hended.opens, hopens ▸ hended.gone⟩ hheld.not_ended
  refine ⟨hspans, ?_⟩
  have hopens := hspans.opens.trans hopens
  rcases step_carries hcb hre hq₂ with hended | hlast
  · exact absurd ⟨hopens ▸ hended.opens, hopens ▸ hended.gone⟩ hheld.not_ended
  · exact hlast

end

end Tick

def Active (s s' : Sys) : Prop :=
  acceptances s.trace < acceptances s'.trace ∨ pings s.trace < pings s'.trace

instance (s s' : Sys) : Decidable (Active s s') := inferInstanceAs (Decidable (_ ∨ _))

/-- On one connection, whatever the callbacks do: ticks at times that never go back queue no two
PINGREQs within an interval; a tick of a ready client an interval after bytes were last accepted
or a PINGREQ queued queues one, if it accepts no bytes itself; nothing else queues one; and the
first bytes accepted arm the first. -/
theorem run_keepalive (depth : Nat) (hasLoop : Bool) (world : World) (before : List Op) :
    let cb := callback depth
    let s₀ := run cb (boot hasLoop world) before
    (∀ t₁ ops t₂, ((Op.tick t₁ :: (ops ++ [.tick t₂])).filterMap Op.time).Pairwise (· ≤ ·) →
      let s₁ := step cb s₀ (.tick t₁)
      let s₂ := run cb s₁ ops
      let s₃ := step cb s₂ (.tick t₂)
      Held s₀ s₃ → pings s₀.trace < pings s₁.trace → pings s₂.trace < pings s₃.trace →
        t₁ + pingIntervalMs ≤ t₂) ∧
    (∀ op ops t,
      let s₁ := step cb s₀ op
      let s₂ := run cb s₁ ops
      let s₃ := step cb s₂ (.tick t)
      Held s₀ s₃ → Active s₀ s₁ → ¬ Active s₁ s₂ → s₁.client.nowMs + pingIntervalMs ≤ t →
        s₂.client.state = .ready →
          pings s₃.trace = pings s₂.trace + 1 ∨ acceptances s₂.trace < acceptances s₃.trace) ∧
    (∀ op, Held s₀ (step cb s₀ op) → pings (step cb s₀ op).trace ≤ pings s₀.trace + 1 ∧
      (op.time = none → pings (step cb s₀ op).trace = pings s₀.trace)) ∧
    (∀ ops, let s := run cb s₀ ops
      Held s₀ s → s₀.client.nextPingMs = 0 → s.client.nextPingMs ≠ 0 → Active s₀ s) := by
  intro _ s₀
  have hre := callback_reenters depth
  have hcb := callback_beats depth
  have hq : Quiet s₀.core := run_quiet hre (boot_quiet hasLoop world) before
  refine ⟨?_, ?_, ?_, ?_⟩
  · intro t₁ ops t₂ hpaced s₁ s₂ s₃ hheld hfirst hsecond
    obtain ⟨⟨hc, hclock, _⟩, hspans, hc', hclock', _⟩ := held_spans hcb hre hq hheld
    have hticks : ∀ u ∈ ops.filterMap Op.time, t₁ ≤ u := by
      intro u hu
      have hlater := (List.pairwise_cons.mp hpaced).1
      rw [List.filterMap_append] at hlater
      exact hlater u (List.mem_append_left _ hu)
    have hnext : s₁.pulse.next = t₁ + pingIntervalMs := by
      rcases hc.moved with ⟨_, _, hsame⟩ | ⟨hput, _⟩
      · exact absurd hsame (ne_of_gt hfirst)
      · rw [hput, hclock]
    calc t₁ + pingIntervalMs
      _ ≤ s₂.pulse.next := hspans.behind t₁ hticks hclock.ge hnext.ge
      _ ≤ s₃.pulse.now := hc'.due hsecond
      _ = t₂ := hclock'
  · intro _ _ t s₁ s₂ s₃ hheld hactive hstill _ hready
    obtain ⟨⟨hc, _⟩, hspans, hc', _, hasked⟩ := held_spans hcb hre hq hheld
    obtain ⟨haccepted, hpings⟩ := not_or.mp hstill
    have hsame := hspans.still (le_antisymm (le_of_not_gt haccepted) hspans.more.1)
      (le_antisymm (le_of_not_gt hpings) hspans.more.2)
    have hnext : s₂.pulse.next = s₁.client.nowMs + pingIntervalMs := by
      rcases hc.moved with ⟨_, haccepted, hpings⟩ | ⟨hput, _⟩
      · exact absurd hactive (not_or.mpr ⟨haccepted.not_gt, hpings.not_gt⟩)
      · exact hsame.trans hput
    have hpos : 0 < pingIntervalMs := by decide
    rcases hc'.moved with ⟨hput, _, hpings⟩ | ⟨_, hmoved⟩
    · -- with nothing accepted the time has come, so that a PINGREQ was queued
      have hdue : s₃.pulse.next = s₁.client.nowMs + pingIntervalMs := hput.trans hnext
      have hasked : s₃.pulse.next = 0 ∨ t < s₃.pulse.next :=
        hasked (hc'.ready (beq_iff_eq.mpr hready)) hpings
      omega
    · rcases hmoved with haccepted | hpings
      · exact .inr haccepted
      · exact .inl (le_antisymm hc'.more.2.2 hpings)
  · intro op hheld
    rcases step_carries hcb hre hq with hended | ⟨hc, hclocked⟩
    · exact absurd hended hheld.not_ended
    refine ⟨hc.more.2.2, fun hop => ?_⟩
    cases op with
    | tick => cases hop
    | _ => exact hclocked.2
  · intro ops s hheld hunarmed harmed
    rcases run_spans hcb hre hq ops with hended | hspans
    · exact absurd hended hheld.not_ended
    by_contra hstill
    obtain ⟨haccepted, hpings⟩ := not_or.mp hstill
    have hsame := hspans.still (le_antisymm (le_of_not_gt haccepted) hspans.more.1)
      (le_antisymm (le_of_not_gt hpings) hspans.more.2)
    exact harmed (hsame.trans hunarmed)

def taciturn : World :=
  { reached with recvs := [.ok [0x20, 2, 0, 0]], sends := [.ok 40, .ok 40, .ok 40] }

def connectOps : List Op :=
  [.call (.start { address := [104], clientId := [99] } true false 1000),
    .socketEvent Runtime.OUT, .socketEvent Runtime.IN]

theorem run_keepalive_ticks :
    let s₀ := run (callback 0) (boot true taciturn) connectOps
    let s₁ := step (callback 0) s₀ (.tick 31000)
    let s₂ := run (callback 0) s₁ [.socketEvent Runtime.OUT]
    let s₃ := step (callback 0) s₂ (.tick 61000)
    (pings s₀.trace < pings s₁.trace ∧ pings s₂.trace < pings s₃.trace ∧
      31000 + pingIntervalMs ≤ 61000) ∧
    s₂.client.state = .ready ∧
      (pings s₃.trace = pings s₂.trace + 1 ∨ acceptances s₂.trace < acceptances s₃.trace) := by
  have h := run_keepalive 0 true taciturn connectOps
  refine ⟨⟨by decide, by decide, ?_⟩, by decide, ?_⟩
  · exact h.1 31000 [.socketEvent Runtime.OUT] 61000 (by decide) (by decide) (by decide) (by decide)
  · exact h.2.1 (.tick 31000) [.socketEvent Runtime.OUT] 61000 (by decide)
      (by decide) (by decide) (by decide) (by decide)

end Inkwell.Mqtt
