import Inkwell.Net.Fetch.Reply

namespace Inkwell.Fetch
open Net Http List

theorem Clean.started (h : Clean t) (request : Request) (nowMs : Nat) :
    Clean (.started request nowMs :: t) := by
  refine h.cons ⟨?_, ?_⟩
  · intro _ _ _ _ _ hfile
    cases hfile
  · intro _ _ o _ heq
    cases heq

theorem Clean.spilled (h : Clean t) (hkept : Kept f t body)
    (hrequest : latestRequest t = some request) (hcarries : f.Carries request)
    (hs : Spilled f t bytes o t') : Clean t' := by
  cases hs with
  | passed | filePassed => exact h
  | noMemory => exact h.light rfl
  | failed hfile hroom _ hchunk =>
    refine h.wrote hkept hfile hrequest hcarries ?_
    intro hmax
    exact le_trans hchunk.length_le (hroom hmax)

theorem Clean.closing (h : Clean t) (he : LastWords events) : Clean (events ++ t) := by
  cases he with
  | none => exact h
  | replied | outOfMemory => exact h.light rfl

theorem latestRequest_closing (he : LastWords events) :
    latestRequest (events ++ t) = latestRequest t := by
  cases he <;> rfl

theorem Told.failed (hrequest : latestRequest t = some request)
    (hcarries : Flight.Carries f request) (hok : result.outcome ≠ .ok)
    (hlarge : result.outcome = .tooLarge → f.method = .head) : Told t result := by
  intro _ hrequest' hmethod
  cases hrequest.symm.trans hrequest'
  refine ⟨fun h => absurd h hok, ?_⟩
  intro h
  exact absurd (hcarries.method.symm.trans (hlarge h)) hmethod

theorem Told.delivered (hu : Underway f input t)
    (hend : f.response.phase = .done ∨ f.response.phase = .untilClose ∧ input = [] ∧
      (f.response.framing = .untilClose → Closed t))
    (ho : o = .ok ∨ o = .file) (hr : f.method ≠ .head → Result.Of result f o) : Told t result := by
  obtain ⟨_, hrequest, hcarries⟩ := hu.carries
  obtain ⟨fed, _, hfed, hrun, hkept⟩ := hu.fed
  intro _ hrequest' hmethod
  cases hrequest.symm.trans hrequest'
  have hmethod' : f.method ≠ .head := by
    rw [hcarries.method]
    exact hmethod
  have hof := hr hmethod'
  rw [decide_eq_false hmethod'] at hrun
  refine ⟨?_, ?_⟩
  · intro hok
    rw [hof.outcome] at hok
    subst hok
    exact hkept.whole hcarries hfed hrun hend rfl hof
  · intro hlarge
    rw [hof.outcome] at hlarge
    rcases ho with ho | ho <;> cases ho.symm.trans hlarge

theorem Told.whole (hu : Underway f input t) (hround : Rounded f f')
    (hend : f.response.phase = .done) (ho : o = .ok ∨ o = .file) (hr : Result.Of result f' o) :
    Told t result := by
  refine .delivered hu (.inl hend) ho fun hmethod => ?_
  cases hround with
  | body => exact hr
  | head h => exact absurd h hmethod

theorem responseDone_not_failed (h : responseDone r) : responseFailed r = false := by
  rw [responseFailed, beq_iff_eq.mp h]
  rfl

theorem responseFinish_whole (hg : Going r) (h : (responseFinish r).2) :
    r.phase = .untilClose ∧ (responseFinish r).1 = { r with phase := .done } := by
  have hover := hg.unfinished
  unfold responseFinish at h ⊢
  cases hp : r.phase with
  | untilClose => exact ⟨rfl, rfl⟩
  | done =>
    rw [responseOver, responseDone, hp] at hover
    cases hover
  | head | length | chunkSize | chunkData | chunkEnd | chunkEndLf | trailer | failed =>
    rw [hp] at h
    cases h

theorem Told.hungUp (hu : Underway f [] t) (hg : Going f.response)
    (hclosed : f.response.framing = .untilClose → Closed t) (hwhole : (responseFinish f.response).2)
    (hround : Rounded { f with response := (responseFinish f.response).1 } f')
    (ho : o = .ok ∨ o = .file) (hr : Result.Of result f' o) : Told t result := by
  obtain ⟨hphase, hfinish⟩ := responseFinish_whole hg hwhole
  refine .delivered hu (.inr ⟨hphase, rfl, hclosed⟩) ho fun hmethod => ?_
  cases hround with
  | body =>
    rw [hfinish] at hr
    exact ⟨hr.outcome, hr.status, hr.body, hr.host⟩
  | head h => exact absurd h hmethod

theorem Sound.turn (hc : Sound c) (hf : c.flight = some f)
    (hok : responseFailed f₂.response = false) (hd : Decided (f.fed c.input) c.trace f₁ t₁)
    (hs : Sunk f₁ t₁ (f.slice c.input) f₂ t₂) :
    Underway f₂ (c.input.drop (responseFeed f.response c.input).used) t₂ ∧ Clean t₂ := by
  have hu := hc.underway f hf
  have hg := hc.ready f hf
  rw [hs.same.1, hd.same.1] at hok
  obtain ⟨_, hrequest, hcarries⟩ := hu.carries
  obtain ⟨_, _, _, _, hkept, _⟩ := hu.decide hg hok hd
  have hrequest₁ := hd.past.2.trans hrequest
  have hcarries₁ := hd.carries (hcarries.fed c.input)
  exact ⟨hu.turn hg hok hd hs, (hc.clean.decided hd).sunk hkept hrequest₁ hcarries₁ hs⟩

theorem Act.sound (h : Act c c') (hc : Sound c) : Sound c' := by
  have hready := h.ready hc.ready
  cases h with
  | tried | shookInVain | requested => exact hc.quiet rfl rfl
  | dialled hf hp =>
    refine .held hready rfl ((hc.underway _ hf).along rfl ?_) hc.clean
    intro _ hreceiving
    rw [hreceiving] at hp
    cases hp
  | secured hf hp =>
    refine .held hready rfl (((hc.underway _ hf).along rfl ?_).quiet rfl) (hc.clean.light rfl)
    intro _ hreceiving
    cases hp.symm.trans hreceiving
  | shook hf hp =>
    have hu := hc.underway _ hf
    have hnone := hu.early (by rw [hp]; decide)
    obtain ⟨hinput, hfile, hbody⟩ := hu.unread hnone
    obtain ⟨_, hrequest, hcarries⟩ := hu.carries
    refine .held hready rfl ?_ (hc.clean.light rfl)
    rw [hinput]
    exact .fresh hrequest (hcarries.congr rfl) hnone rfl rfl hfile hbody
  | uploaded hf =>
    refine .held hready rfl (((hc.underway _ hf).along rfl ?_).quiet rfl) (hc.clean.light rfl)
    exact fun h => h
  | listened hf =>
    exact .held hready rfl ((hc.underway _ hf).along rfl fun h => absurd rfl h) hc.clean
  | read hf hp hi =>
    obtain ⟨hcarries, _, fed, body, hfed, hrun, hkept⟩ := hc.underway _ hf
    refine .held hready hf ⟨hcarries, fun h => absurd hp h, fed, body, ?_, hrun, ?_⟩
      (hc.clean.light rfl)
    · rw [hi, append_nil] at hfed
      rw [hopBytes, hfed]
    · exact hkept.along rfl rfl
  | turned hf _ hd hs hover =>
    have hok := (Bool.or_eq_false_iff.mp hover).2
    obtain ⟨hu, hclean⟩ := hc.turn hf hok hd hs
    exact .held hready rfl hu hclean
  | redirected hf _ hseen =>
    have hu := hc.underway _ hf
    obtain ⟨_, hrequest, hcarries⟩ := hu.carries
    obtain ⟨_, _, _, _, hkept⟩ := hu.fed
    refine .held hready rfl ?_ ((hc.clean.light rfl).light rfl)
    cases hkept with
    | unseen _ _ hfile hbody => exact .fresh hrequest (hcarries.congr rfl) rfl rfl rfl hfile hbody
    | captured hwanted
    | written hwanted => cases hseen.symm.trans hwanted.1
  | spilled hf _ hok hne hd hs _ hr =>
    have hu := hc.underway _ hf
    have hg := hc.ready _ hf
    obtain ⟨_, hrequest, hcarries⟩ := hu.carries
    obtain ⟨fed, _, hfed, hrun, hkept, hbefore⟩ := hu.decide hg hok hd
    have hrequest₁ := hd.past.2.trans hrequest
    have hcarries₁ := hd.carries (hcarries.fed c.input)
    have hseen := Bool.eq_true_of_not_eq_false (mt hbefore hne)
    rw [hcarries.method, ← hcarries₁.method] at hrun
    refine .ended ((hc.clean.decided hd).spilled hkept hrequest₁ hcarries₁ hs) ?_ _ _
    exact hs.told hkept hrequest₁ hcarries₁ hfed hrun hseen hr
  | whole hf _ hd hs hdone hround ho _ hr =>
    obtain ⟨hu, hclean⟩ := hc.turn hf (responseDone_not_failed hdone) hd hs
    exact .ended hclean (.whole hu hround (beq_iff_eq.mp hdone) ho hr) _ _
  | brimmed hf _ hd hs hdone hhead he _ hout =>
    obtain ⟨hu, hclean⟩ := hc.turn hf (responseDone_not_failed hdone) hd hs
    obtain ⟨_, hrequest, hcarries⟩ := hu.carries
    refine .ended (hclean.closing he) ?_ _ _
    refine .failed ((latestRequest_closing he).trans hrequest) hcarries ?_ fun _ => hhead
    rw [hout]
    decide
  | hungUp hf hi htrace _ hframing hwhole hround ho _ hr =>
    have hu := hc.underway _ hf
    rw [hi] at hu
    refine .ended hc.clean ?_ _ _
    refine .hungUp hu (hc.ready _ hf) ?_ hwhole hround ho hr
    intro hclose
    exact ⟨_, _, htrace, hframing hclose⟩
  | failed hf he o ho hlarge _ hout =>
    obtain ⟨_, hrequest, hcarries⟩ := (hc.underway _ hf).carries
    refine .ended (hc.clean.closing he) ?_ _ _
    refine .failed ((latestRequest_closing he).trans hrequest) hcarries ?_ ?_
    · rw [hout]
      exact ho
    · rw [hout]
      exact hlarge

theorem sound_upheld : Upheld Sound where
  act := Act.sound
  begin hidle hnew hc := by
    have hready := ready_upheld.begin hidle hnew hc.ready
    refine .held hready rfl ?_ ((hc.clean.started _ _).light rfl)
    exact .fresh rfl (hnew.carries.congr rfl) rfl rfl rfl hnew.file hnew.body
  accept hf hnone hid hc := by
    have hready := ready_upheld.accept hf hnone hid hc.ready
    refine .held hready rfl (((hc.underway _ hf).along rfl ?_).quiet rfl) (hc.clean.light rfl)
    exact fun h => h
  cancel _ _ hc := .idle (.idle rfl) rfl (hc.clean.light rfl)

theorem boot_sound (hasLoop : Bool) (world : World) (files : Bytes → Option Bytes)
    (app : σ) : Sound (boot hasLoop world files app).core :=
  .idle (boot_resting hasLoop world files app).ready rfl .nil

theorem Whole.mono (h : Whole closed request t result) (hclosed : closed t → closed' t) :
    Whole closed' request t result := by
  obtain ⟨reply, after, framing, hsplit, hmessage, hend⟩ := h.reply
  refine ⟨h.status, h.range, ⟨reply, after, framing, hsplit, hmessage, ?_⟩, h.memory, h.file, h.cap⟩
  intro hframing
  exact ⟨(hend hframing).1, hclosed (hend hframing).2⟩

def Event.calls : Event → List Tls.SslRead
  | .read calls => calls
  | _ => []

/-- Every read was answered by the library as it documents. -/
def Honest (t : List Event) : Prop := ∀ e ∈ t, ∀ call ∈ e.calls, Tls.SslRead.Documented call

instance (t : List Event) : Decidable (Honest t) :=
  inferInstanceAs (Decidable (∀ e ∈ t, ∀ call ∈ e.calls, Tls.SslRead.Documented call))

/-- The last read of a connection met a close_notify of the peer. -/
def CloseNotified (t : List Event) : Prop :=
  ∃ calls before last, t = .read calls :: before ∧ calls.getLast? = some last ∧ last.closeNotify

theorem Closed.notified (h : Closed t) (hhonest : Honest t) : CloseNotified t := by
  obtain ⟨calls, before, ht, hfinished⟩ := h
  have hdoc : ∀ call ∈ calls, Tls.SslRead.Documented call := by
    have hread := hhonest (.read calls)
    rw [ht] at hread
    exact hread mem_cons_self
  obtain ⟨last, hlast, hnotify⟩ := hfinished.notified hdoc
  exact ⟨calls, before, last, ht, hlast, hnotify⟩

theorem Underway.captured (h : Underway f input t) (hrequest : latestRequest t = some request) :
    f.body.length ≤ request.cap := by
  obtain ⟨_, hrequest', hcarries⟩ := h.carries
  obtain ⟨_, _, _, _, hkept⟩ := h.fed
  cases hrequest.symm.trans hrequest'
  cases hkept with
  | unseen _ _ _ hbody | written _ _ _ hbody =>
    rw [hbody]
    exact Nat.zero_le _
  | captured _ _ _ hcap =>
    rw [hcarries.responseMax] at hcap
    exact hcap

end Inkwell.Fetch
