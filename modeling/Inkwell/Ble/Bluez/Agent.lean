import Inkwell.Ble.Bluez
import Inkwell.Library.History

namespace Inkwell.Bluez
open Library (Always)

def inFlight : List PairEvent → Option Text
  | [] => none
  | .began _ address :: _ => some address
  | .over _ :: _ => none
  | .accepted _ :: log => inFlight log
  | .refused _ :: log => inFlight log

/-- A path is that of the device with an address, on some adapter. -/
def Names (device address : Text) : Prop := ∃ adapter, devicePath adapter address = some device

/-- A call of the agent is accepted only about the device whose pairing is in flight, or about
none. -/
def Rightly (e : PairEvent) (before : List PairEvent) : Prop :=
  match e with
  | .accepted call => ∀ device, call.device = some device →
      ∃ address, inFlight before = some address ∧ Names device address
  | _ => True

structure Asked (p : Pairing) : Prop where
  state : p.state = .pending
  held : ∃ call device, p.held = some call ∧ call.device = some device ∧
    Names device p.address ∧ p.request.address = addressFromPath device

structure Bond (p : Pairing) : Prop where
  flight : inFlight p.log = if p.state = .pending then some p.address else none
  rightly : Always Rightly p.log
  asked : p.request.kind ≠ .none → Asked p

section Pairing
variable {p q : Pairing}

theorem Bond.none_asked (h : Bond p) (hstate : p.state ≠ .pending) : p.request.kind = .none := by
  by_contra hkind
  exact hstate (h.asked hkind).state

structure Rejected (p q : Pairing) : Prop where
  state : q.state = p.state
  address : q.address = p.address
  kind : q.request.kind = .none
  log : q.log = p.log ∨ ∃ call, q.log = .refused call :: p.log

theorem Bond.rejected (h : Bond p) (hq : Rejected p q) : Bond q := by
  obtain hlog | ⟨_, hlog⟩ := hq.log
  · refine ⟨?_, ?_, fun hkind => absurd hq.kind hkind⟩
    · rw [hlog, hq.state, hq.address]
      exact h.flight
    · rw [hlog]
      exact h.rightly
  · refine ⟨?_, ?_, fun hkind => absurd hq.kind hkind⟩
    · rw [hlog, hq.state, hq.address]
      exact h.flight
    · rw [hlog]
      exact h.rightly.cons trivial

theorem rejected_clear : Rejected p p.clearRequest := ⟨rfl, rfl, rfl, .inl rfl⟩

theorem rejected_reject (p : Pairing) (opened memory : Bool) :
    Rejected p (p.agentReject opened memory).2 := by
  unfold Pairing.agentReject
  split
  · rename_i hkind
    exact ⟨rfl, rfl, hkind, .inl rfl⟩
  split
  · unfold Pairing.agentAnswer
    split
    · exact rejected_clear
    · rename_i call _
      simp only [Bool.false_eq_true, if_false]
      split
      · exact ⟨rfl, rfl, rfl, .inr ⟨call, rfl⟩⟩
      · exact ⟨rfl, rfl, rfl, .inl rfl⟩
  · exact rejected_clear

theorem Bond.ack (h : Bond p)
    (hcall : ∀ device, call.device = some device →
      ∃ address, inFlight p.log = some address ∧ Names device address) :
    Bond (p.agentAck call memory) := by
  unfold Pairing.agentAck
  split
  · exact ⟨h.flight, h.rightly.cons hcall,
      fun hkind => ⟨(h.asked hkind).state, (h.asked hkind).held⟩⟩
  · exact h

theorem Bond.refuse (h : Bond p) : Bond (p.agentRefuse call memory) := by
  unfold Pairing.agentRefuse
  split
  · exact ⟨h.flight, h.rightly.cons trivial,
      fun hkind => ⟨(h.asked hkind).state, (h.asked hkind).held⟩⟩
  · exact h

theorem Bond.submit (h : Bond p) : Bond (p.agentSubmitPasskey opened memory).2 := by
  unfold Pairing.agentSubmitPasskey
  split
  · exact h
  rename_i hkind
  obtain ⟨hstate, _, _, hheld, hdevice, hnames, -⟩ := h.asked hkind
  have hflight : inFlight p.log = some p.address := by rw [h.flight, if_pos hstate]
  split
  · simp only [Pairing.agentAnswer, hheld, if_true]
    cases memory with
    | false => exact h
    | true =>
      refine ⟨h.flight, h.rightly.cons ?_, nofun⟩
      intro _ hdevice'
      rw [hdevice] at hdevice'
      cases hdevice'
      exact ⟨p.address, hflight, hnames⟩
  · exact h.rejected rejected_clear

theorem Bond.confirm (h : Bond p) : Bond (p.agentConfirm opened memory).2 := by
  unfold Pairing.agentConfirm
  split
  · exact h
  · exact h.submit

theorem Bond.ours (h : Bond p) (hours : p.agentCallIsOurs adapter device) :
    p.state = .pending ∧ inFlight p.log = some p.address ∧
      ∃ path, device = some path ∧ Names path p.address := by
  simp only [Pairing.agentCallIsOurs, Bool.and_eq_true, decide_eq_true_eq] at hours
  obtain ⟨⟨hstate, hsome⟩, hpath⟩ := hours
  obtain ⟨path, rfl⟩ := Option.isSome_iff_exists.mp hsome
  exact ⟨hstate, by rw [h.flight, if_pos hstate], path, rfl, adapter, hpath⟩

theorem Bond.defer (h : Bond p) (hours : p.agentCallIsOurs adapter call.device) :
    Bond (p.agentDefer memory call kind passkey) := by
  obtain ⟨hstate, -, path, hdevice, hnames⟩ := h.ours hours
  have hcleared : ∃ q, (if p.request.kind ≠ .none then (p.agentReject true memory).2 else p) = q ∧
      Rejected p q := by
    split
    · exact ⟨_, rfl, rejected_reject p true memory⟩
    · rename_i hkind
      exact ⟨_, rfl, rfl, rfl, not_not.mp hkind, .inl rfl⟩
  obtain ⟨_, hq, hrejected⟩ := hcleared
  have hbond := h.rejected hrejected
  unfold Pairing.agentDefer
  rw [hq]
  refine ⟨hbond.flight, hbond.rightly,
    fun _ => ⟨hrejected.state.trans hstate, call, path, rfl, hdevice, ?_, ?_⟩⟩
  · rw [← hrejected.address] at hnames
    exact hnames
  · rw [hdevice]
    rfl

theorem Bond.ask (h : Bond p) : Bond (p.agentAsk adapter memory call kind passkey) := by
  unfold Pairing.agentAsk
  split
  · rename_i hours
    exact h.defer hours
  · exact h.refuse

def Member.Acknowledged : Member → Prop
  | .displayPasskey | .displayPinCode | .cancel | .release | .other => True
  | _ => False

theorem Bond.handleAgentCall (h : Bond p)
    (hcall : call.member.Acknowledged → ∀ device, call.device = some device →
      p.agentCallIsOurs adapter (some device)) :
    Bond (p.handleAgentCall adapter memory call) := by
  have hnamed (hours : p.agentCallIsOurs adapter call.device) : ∀ device,
      call.device = some device → ∃ address, inFlight p.log = some address ∧
        Names device address := by
    intro _ hdevice
    obtain ⟨-, hflight, _, hpath, hnames⟩ := h.ours hours
    rw [hdevice] at hpath
    cases hpath
    exact ⟨p.address, hflight, hnames⟩
  have hany (hack : call.member.Acknowledged) : ∀ device,
      call.device = some device → ∃ address, inFlight p.log = some address ∧
        Names device address := by
    intro device hdevice
    exact hnamed (hdevice ▸ hcall hack device hdevice) device hdevice
  have hauthorize : Bond (if p.agentCallIsOurs adapter call.device then p.agentAck call memory
      else p.agentRefuse call memory) := by
    split
    · rename_i hours
      exact h.ack (hnamed hours)
    · exact h.refuse
  unfold Pairing.handleAgentCall
  cases hmember : call.member with
  | requestPasskey => exact h.ask
  | requestPinCode => exact h.ask
  | requestConfirmation => exact h.ask
  | requestAuthorization | authorizeService => exact hauthorize
  | displayPasskey | displayPinCode | other => exact h.ack (hany (hmember ▸ trivial))
  | cancel =>
    have hcancel : Bond { p with held := none, request := {} } := ⟨h.flight, h.rightly, nofun⟩
    exact hcancel.ack (hany (hmember ▸ trivial))
  | release =>
    have hrelease : Bond { p with registered := false } :=
      ⟨h.flight, h.rightly, fun hkind => ⟨(h.asked hkind).state, (h.asked hkind).held⟩⟩
    exact hrelease.ack (hany (hmember ▸ trivial))

theorem Bond.ended (h : Bond p) (hkind : p.request.kind = .none) (hlog : q.log = p.conclude.log)
    (hstate : q.state ≠ .pending) (hrequest : q.request = p.request) : Bond q := by
  have hconclude : inFlight p.conclude.log = none ∧ Always Rightly p.conclude.log := by
    unfold Pairing.conclude
    split
    · exact ⟨rfl, h.rightly.cons trivial⟩
    · rename_i hidle
      exact ⟨h.flight.trans (if_neg hidle), h.rightly⟩
  refine ⟨?_, hlog ▸ hconclude.2, fun hasked => absurd (hrequest ▸ hkind) hasked⟩
  rw [hlog, if_neg hstate]
  exact hconclude.1

theorem conclude_request : p.conclude.request = p.request := by
  unfold Pairing.conclude
  split <;> rfl

theorem Bond.finish (h : Bond p) (hkind : p.state = .pending → p.request.kind = .none) :
    Bond (p.pairFinish result) := by
  unfold Pairing.pairFinish
  split
  · exact h
  · rename_i hstate
    exact h.ended (hkind (not_not.mp hstate)) rfl nofun conclude_request

theorem Bond.poll (h : Bond p) : Bond p.pairPoll.2 := by
  unfold Pairing.pairPoll
  split
  · exact h
  · rename_i hstate
    have hdone : p.state ≠ .pending := fun hpending => by
      rw [hpending] at hstate
      exact hstate nofun
    have hsame : p.log = p.conclude.log := by rw [Pairing.conclude, if_neg hdone]
    exact h.ended (h.none_asked hdone) hsame nofun rfl

theorem Bond.cancel (h : Bond p) : Bond (p.pairCancel opened memory) := by
  have hrejected := rejected_reject p opened memory
  exact (h.rejected hrejected).ended hrejected.kind rfl nofun conclude_request

theorem Bond.unregister (h : Bond p) : Bond (p.agentUnregister opened memory) := by
  unfold Pairing.agentUnregister
  split
  · have hrejected := rejected_reject p opened memory
    exact h.rejected ⟨hrejected.state, hrejected.address, hrejected.kind, hrejected.log⟩
  · exact h

theorem unregister_kind (hkind : p.registered = false → p.request.kind = .none)
    (opened memory : Bool) : (p.agentUnregister opened memory).request.kind = .none := by
  unfold Pairing.agentUnregister
  split
  · exact (rejected_reject p opened memory).kind
  · rename_i hregistered
    exact hkind (Bool.not_eq_true _ ▸ hregistered)

theorem Bond.begin (h : Bond p) (hstate : p.state ≠ .pending) (address : Text) :
    Bond { p with address } := by
  refine ⟨?_, h.rightly, fun hkind => absurd (h.none_asked hstate) hkind⟩
  exact h.flight.trans ((if_neg hstate).trans (if_neg hstate).symm)

theorem Bond.began (h : Bond p) (hstate : p.state ≠ .pending) :
    Bond { p.note (.began serial p.address) with
      token := serial, state := .pending, result := none } :=
  ⟨rfl, h.rightly.cons trivial, fun hkind => absurd (h.none_asked hstate) hkind⟩

end Pairing

/-- No pairing is answered while a question is open, no central is closed whose agent was
released, and what is only acknowledged is about no other device than the one in flight. -/
def Step.Guarded (c : Central) : Step → Prop
  | .receive (.reply serial _) _ _ =>
    c.pairing.state = .pending → c.pairing.token = serial → c.pairing.request.kind = .none
  | .receive (.agent call) _ _ =>
    call.member.Acknowledged → ∀ device, call.device = some device →
      c.pairing.agentCallIsOurs c.adapter (some device)
  | .close _ => c.pairing.registered = false → c.pairing.request.kind = .none
  | _ => True

def Guarding (c : Central) : List Step → Prop
  | [] => True
  | step :: steps => step.Guarded c ∧ Guarding (step.run c) steps

section Central
variable {c : Central}

theorem Bond.handleReply (h : Bond c.pairing)
    (hreply : c.pairing.state = .pending → c.pairing.token = serial →
      c.pairing.request.kind = .none) :
    Bond (c.handleReply serial reply memory).pairing := by
  have hsubscribe : ∀ outcome, (c.subscribeFinish outcome).pairing = c.pairing := by
    intro _
    unfold Central.subscribeFinish
    split <;> rfl
  unfold Central.handleReply
  split
  · exact h
  split
  · exact h
  split
  · rw [hsubscribe]
    exact h
  iterate 4
    split
    · exact h
  split
  · rename_i hours
    simp only [Bool.and_eq_true, decide_eq_true_eq] at hours
    exact h.finish (fun hstate => hreply hstate hours.2)
  split <;> exact h

theorem Bond.pairBegin (h : Bond c.pairing) : Bond (c.pairBegin address failed).2.pairing := by
  unfold Central.pairBegin
  split
  · exact h
  rename_i hstate
  have hnamed := h.begin hstate (strCopy addressMax address)
  dsimp only
  iterate 3
    split
    · exact hnamed
  · exact hnamed.began hstate

theorem Bond.agentRegister (h : Bond c.pairing) : Bond (c.agentRegister registering).2.pairing := by
  have hregistered : Bond { c.pairing with registered := true } :=
    ⟨h.flight, h.rightly, fun hkind => ⟨(h.asked hkind).state, (h.asked hkind).held⟩⟩
  unfold Central.agentRegister Central.sendLogged
  dsimp only
  repeat' split
  all_goals first | exact h | exact hregistered

theorem Bond.handleMessage (h : Bond c.pairing)
    (hmessage : (Step.receive message memory send).Guarded c) :
    Bond (c.handleMessage message memory send).pairing := by
  cases message with
  | agent => exact h.handleAgentCall hmessage
  | value | other => exact h
  | tree signal =>
    change Bond (c.handleTree signal memory send).pairing
    rw [c.looks_handleTree.pairing]
    exact h
  | reply =>
    unfold Central.handleMessage
    dsimp only
    split
    · exact h
    · exact Bond.handleReply h hmessage

theorem Bond.desk (h : Bond c.pairing) (desk : Desk) : Bond ({ c with desk } : Central).pairing := h

theorem step_bond (h : Bond c.pairing) (step : Step) (hstep : step.Guarded c) :
    Bond (step.run c).pairing := by
  have hopen (c' : Central) (h' : Bond c'.pairing) : Bond (if c.opened then c' else c).pairing := by
    split
    · exact h'
    · exact h
  cases step with
  | ask request => exact (c.ask_frame request).1.symm ▸ h
  | readCancel | requestsCancel | attachLoop | detachLoop | timerReady => exact h.desk _
  | expire slot nowMs => exact hopen _ (h.desk (c.desk.expire slot nowMs))
  | receive => exact hopen _ (h.handleMessage hstep)
  | pairBegin => exact h.pairBegin
  | pairPoll => exact h.poll
  | pairCancel memory send =>
    have hsame : (c.pairCancel memory send).pairing = c.pairing.pairCancel c.opened memory := by
      unfold Central.pairCancel
      split <;> rfl
    change Bond (c.pairCancel memory send).pairing
    rw [hsame]
    exact h.cancel
  | agentRegister => exact h.agentRegister
  | agentUnregister => exact h.unregister
  | submitPasskey => exact h.submit
  | confirm => exact h.confirm
  | reject memory => exact h.rejected (rejected_reject c.pairing c.opened memory)
  | connectBegin => exact c.calls_connectBegin.2.symm ▸ h
  | connectEnd => exact h
  | findAdapter => exact hopen _ (c.looks_findAdapter.pairing.symm ▸ h)
  | list => exact hopen _ (c.looks_objectsEnsure.pairing.symm ▸ h)
  | discovering => exact hopen _ (c.looks_discovering.pairing.symm ▸ h)
  | sendLogged => exact hopen c.sendLogged h
  | close memory =>
    have hkind := unregister_kind hstep c.opened memory
    exact h.unregister.ended hkind rfl nofun conclude_request

theorem run_bond (h : Bond c.pairing) (hsteps : Guarding c steps) : Bond (run c steps).pairing := by
  induction steps generalizing c with
  | nil => exact h
  | cons step _ ih => exact ih (step_bond h step hsteps.1) hsteps.2

end Central

theorem bond_first : Bond ({} : Central).pairing := ⟨rfl, .nil, nofun⟩

/-- If all steps are guarded, a call of the agent is accepted, and a question asked, only for the
pairing in flight. -/
theorem run_pairing (hsteps : Guarding {} steps) :
    (∀ call device before, .accepted call :: before <:+ (run {} steps).pairing.log →
      call.device = some device → ∃ address, inFlight before = some address ∧
        Names device address) ∧
    ((run {} steps).pairing.request.kind ≠ .none →
      inFlight (run {} steps).pairing.log = some (run {} steps).pairing.address ∧
      ∃ call device, (run {} steps).pairing.held = some call ∧ call.device = some device ∧
        Names device (run {} steps).pairing.address ∧
        (run {} steps).pairing.request.address = addressFromPath device) := by
  have h := run_bond bond_first hsteps
  refine ⟨fun call device before hsuffix => (h.rightly.suffix hsuffix).head device, fun hkind => ?_⟩
  obtain ⟨hstate, hheld⟩ := h.asked hkind
  exact ⟨by rw [h.flight, if_pos hstate], hheld⟩

def sampleAddress : Text := literal "AA:BB:CC:DD:EE:FF"
def samplePath : Text := literal "/org/bluez/hci0/dev_AA_BB_CC_DD_EE_FF"

def paired : List Step :=
  [.pairBegin sampleAddress none,
    .receive (.agent ⟨.requestPasskey, some samplePath⟩) true true, .submitPasskey true,
    .receive (.reply 1 (.returned .empty)) true true, .pairPoll]

theorem run_pairing_paired : Guarding {} paired ∧
    (run {} paired).pairing.log =
      [.over 1, .accepted ⟨.requestPasskey, some samplePath⟩, .began 1 sampleAddress] ∧
    ∃ address, inFlight [.began 1 sampleAddress] = some address ∧ Names samplePath address := by
  have hsteps : Guarding {} paired := by
    refine ⟨trivial, nofun, trivial, fun _ _ => ?_, trivial, trivial⟩
    decide
  have hlog : (run {} paired).pairing.log =
      [.over 1, .accepted ⟨.requestPasskey, some samplePath⟩, .began 1 sampleAddress] := by decide
  refine ⟨hsteps, hlog, ?_⟩
  apply (run_pairing hsteps).1 ⟨.requestPasskey, some samplePath⟩
  · exact List.suffix_cons _ _
  · rfl

def outlived : List Step :=
  [.pairBegin sampleAddress none,
    .receive (.agent ⟨.requestConfirmation 123456, some samplePath⟩) true true,
    .receive (.reply 1 (.error none none)) true true]

/-- A question outlives its pairing and is confirmed during another one; and a display for a
device that nobody here pairs with is acknowledged. -/
theorem run_pairing_outlived :
    ((run {} outlived).pairing.request.kind = .confirm ∧
      inFlight (run {} outlived).pairing.log = none) ∧
    (run {} (outlived ++ [.confirm true])).pairing.log =
      .accepted ⟨.requestConfirmation 123456, some samplePath⟩ :: (run {} outlived).pairing.log ∧
    (run {} (outlived ++
      [.pairPoll, .pairBegin (literal "11:22:33:44:55:66") none, .confirm true])).pairing.log =
      .accepted ⟨.requestConfirmation 123456, some samplePath⟩ ::
      .began 2 (literal "11:22:33:44:55:66") :: (run {} outlived).pairing.log ∧
    (run {} [.receive (.agent ⟨.displayPasskey, some samplePath⟩) true true]).pairing.log =
      [.accepted ⟨.displayPasskey, some samplePath⟩] := by
  decide

end Inkwell.Bluez
