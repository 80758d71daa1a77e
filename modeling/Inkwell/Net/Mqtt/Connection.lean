import Inkwell.Net.Mqtt.Refine

namespace Inkwell.Mqtt
open Net

theorem loop_ne_app : Role.loop ≠ .app := nofun

theorem live_of_socket (hs : c.socket) : Live .loop c := ⟨hs, .inl loop_ne_app⟩

theorem mqttSendConnect_steps (hcb : Reenters cb) (hq : Quiet c) (hs : c.socket)
    (hr : c.state ≠ .ready) (hc : s.core = c) : Steps .loop c (mqttSendConnect cb s).core := by
  subst hc
  unfold mqttSendConnect
  split
  · exact failOwn_steps hcb hq (live_of_socket hs) rfl (by simp) (.inl rfl)
  · rename_i packet hpacket
    obtain ⟨_, hread⟩ := readPacket_encodeConnect hpacket
    have hqueue := mqttQueue_steps (live_of_socket hs) hread (by simp)
    have hlive := mqttQueue_live (live_of_socket hs) packet
    obtain ⟨_, _, hfields⟩ := mqttQueue_fields
    generalize mqttQueue s packet = w at *
    obtain ⟨r, s'⟩ := w
    have hq' := hqueue.quiet hq
    have hr' : s'.core.state ≠ .ready := by
      rw [hfields]
      exact hr
    cases r with
    | some => exact hqueue.trans (failNet_steps hcb hq' hlive rfl (by decide))
    | none =>
      have hgreet : Act .loop s'.core ((greeted s').core.enter .greeting) :=
        .greet loop_ne_app hlive.1 hr' (s'.client.nowMs + handshakeTimeoutMs) (Nat.succ_ne_zero _)
      exact hqueue.trans (enter_steps hcb hq' hgreet)

theorem mqttSecure_steps (hcb : Reenters cb) (hq : Quiet c) (hs : c.socket)
    (hr : c.state ≠ .ready) (hc : s.core = c) : Steps .loop c (mqttSecure cb s).core := by
  subst hc
  unfold mqttSecure next
  simp only
  split
  · rw [mqttArm_core]
    exact .refl
  · exact failNet_steps hcb hq (live_of_socket hs) rfl (Tls.Session.reason_ne_ok _)
  · exact mqttSendConnect_steps hcb hq hs hr rfl

theorem mqttFinishConnect_steps (hcb : Reenters cb) (hq : Quiet s.core) (hs : s.core.socket)
    (hr : s.core.state ≠ .ready) : Steps .loop s.core (mqttFinishConnect cb s).core := by
  unfold mqttFinishConnect next
  simp only
  split
  · exact failNet_steps hcb hq (live_of_socket hs) rfl reasonFromErrno_ne_ok
  split
  · exact mqttSendConnect_steps hcb hq hs hr rfl
  generalize Tls.Session.start _ = started
  obtain ⟨_, tls⟩ := started
  split
  · exact failOwn_steps hcb hq (live_of_socket hs) rfl (by simp) (.inl rfl)
  · exact failNet_steps hcb hq (live_of_socket hs) rfl (Tls.Session.reason_ne_ok _)
  · generalize hfrom : ({ s with
      client := { s.client with tls := tls }
      world := { s.world with
        pendingErrors := s.world.pendingErrors.tail
        tlsStarts := s.world.tlsStarts.tail } } : Sys) = s₀
    have hcore : s₀.core = s.core := by
      rw [← hfrom]
      rfl
    rw [← hcore] at hq hs hr ⊢
    have hsecure : Act .loop s₀.core ((secured s₀).core.enter .securing) :=
      .secure loop_ne_app hs hr (s₀.client.nowMs + handshakeTimeoutMs) (Nat.succ_ne_zero _)
    have hcalls : Calls ((secured s₀).core.enter .securing)
        (setState cb (secured s₀) .securing).2.core :=
      setState_steps hcb _ _ (hsecure.quiet hq)
    have hfst := setState_fst cb (secured s₀) .securing
    have hgen : ((secured s₀).core.enter .securing).generation = s₀.client.generation :=
      (enter_fields _).2.2.1
    have hsocket : ((secured s₀).core.enter .securing).socket :=
      (enter_fields (secured s₀).core).2.1.trans hs
    generalize setState cb (secured s₀) .securing = w at *
    obtain ⟨r, s'⟩ := w
    have hsteps := (Steps.one hsecure).trans hcalls.steps
    cases r with
    | false => exact hsteps
    | true =>
      have hsame : s'.client.generation = s₀.client.generation := beq_iff_eq.mp hfst.symm
      have hkept : s'.core.socket ∧ s'.core.state ≠ .ready := by
        cases hcalls.outcome with
        | kept _ hst hk =>
          rw [enter_state] at hst
          exact ⟨hk.trans hsocket, by rw [hst]; decide⟩
        | dropped _ hr =>
          rw [enter_state] at hr
          cases hr
        | replaced hnew =>
          rw [hgen] at hnew
          exact absurd hsame (ne_of_gt hnew)
      exact hsteps.trans (mqttSecure_steps hcb (hsteps.quiet hq) hkept.1 hkept.2 rfl)

theorem mqttFlush_steps (hv : Live who s.core) :
    Steps who s.core (mqttFlush s).2.core ∧ Live who (mqttFlush s).2.core := by
  obtain ⟨_, _, _, hsends, hcore, _⟩ := mqttFlush_core s
  rw [hcore]
  exact ⟨hsends.steps hv, hv⟩

theorem mqttOnResolved_steps (hcb : Reenters cb) (hq : Quiet c) (hl : c.lookup)
    (hc : s.core = { c with lookup := false }) :
    Steps .loop c (mqttOnResolved cb s outcome error).core := by
  have hres := hq.lookup.mp hl
  have hprelude : Prelude .loop c s.core := hc ▸ .resolved loop_ne_app hres
  have hstate : s.client.state = c.state := congrArg Core.state hc
  unfold mqttOnResolved
  split
  · rename_i hnot
    exact absurd (hstate.trans hres) hnot
  split
  · exact mqttOpen_steps hcb hq hprelude
  · rename_i hfail
    exact fail_steps hcb hq
      (.missed hprelude _ (net_oneHalf (mt reasonFromResolve_eq_ok.mp hfail)) rfl)

theorem resolveTryFinish_steps (hcb : Reenters cb) (hq : Quiet s.core) :
    Steps .loop s.core (resolveTryFinish cb s).core := by
  unfold resolveTryFinish next
  split
  · exact .refl
  rename_i hsome
  have hl : s.client.lookup.isSome = true := Option.isSome_iff_ne_none.mpr (by simpa using hsome)
  simp only
  split
  · exact .refl
  · exact mqttOnResolved_steps hcb hq hl rfl

theorem resolveTick_steps (hcb : Reenters cb) (hq : Quiet s.core) (nowMs : Nat) :
    Steps .loop s.core (resolveTick cb s nowMs).core := by
  have hfirst := resolveTryFinish_steps hcb hq
  unfold resolveTick
  simp only
  split
  · exact hfirst
  · rename_i hlookup
    split
    · have hl : (resolveTryFinish cb s).client.lookup.isSome = true := by rw [hlookup]; rfl
      exact hfirst.trans (mqttOnResolved_steps hcb (hfirst.quiet hq) hl rfl)
    · exact hfirst

theorem keepAlive_steps (hcb : Reenters cb) (hq : Quiet s.core) (hs : s.core.socket) :
    Steps .loop s.core (keepAlive cb s nowMs).core := by
  have hpacket : encodeEmpty 2 .pingreq = .ok [0xC0, 0x00] := rfl
  have hread : readPacket [0xC0, 0x00] = some .pingreq := rfl
  unfold keepAlive
  split
  · rw [hpacket]
    have hqueue := mqttQueue_steps (live_of_socket hs) hread nofun
    have hlive := mqttQueue_live (live_of_socket hs) [0xC0, 0x00]
    simp only
    generalize mqttQueue s [0xC0, 0x00] = w at *
    obtain ⟨r, _⟩ := w
    cases r with
    | some => exact hqueue.trans (failNet_steps hcb (hqueue.quiet hq) hlive rfl nofun)
    | none => exact hqueue
  · exact .refl

end Inkwell.Mqtt
