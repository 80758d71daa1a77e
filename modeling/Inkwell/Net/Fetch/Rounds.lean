import Inkwell.Net.Fetch.Refine

namespace Inkwell.Fetch
open Net Http

variable {σ : Type} {called : Core → Core → Prop} {cb : Nat → Result → Sys σ → Sys σ} {s : Sys σ}
  {conn : Conn} {c : Core}

theorem noteSession_flight (conn : Conn) (e : Errno) :
    (noteSession conn e).flight = conn.flight := by
  unfold noteSession
  split
  · rfl
  split <;> rfl

theorem Going.init : Going (responseInit headRequest) := ⟨responseInit_counted headRequest, rfl⟩

section
variable (hcb : Cooperative called cb)
include hcb

/-- The end of a connection completes the request, with a body framed by it only if the peer said
so. -/
theorem fetchOnClose_steps (hc : s.hold conn [] = c) (htrace : s.trace = .read calls :: t)
    (he : e = .enotconn → Tls.Finished calls) : Steps called c (fetchOnClose cb s conn e).core := by
  subst hc
  have hflight := noteSession_flight conn e
  unfold fetchOnClose
  generalize noteSession conn e = noted at *
  have honDone : noted.onDone = conn.onDone := congrArg Flight.onDone hflight
  have hresponse : noted.response = conn.response := congrArg Flight.response hflight
  simp only
  split
  · exact fetchFail_held hcb rfl rfl honDone ⟨nofun, nofun⟩
  rename_i hhead
  split
  · exact fetchFail_held hcb rfl rfl honDone ⟨nofun, nofun⟩
  rename_i hframing
  split
  · exact fetchFail_held hcb rfl rfl honDone ⟨nofun, nofun⟩
  rename_i hwhole
  have hhead : responseHeadDone conn.response = true := by simpa [hresponse] using hhead
  have hfinished : conn.response.framing = .untilClose → Tls.Finished calls := by
    intro h
    apply he
    by_contra hne
    exact hframing ⟨hresponse ▸ h, by simp [hne]⟩
  have hwhole : (responseFinish conn.response).2 = true := by simpa [hresponse] using hwhole
  have hdone : ({ noted with response := (responseFinish noted.response).1 } : Conn).flight =
      { conn.flight with response := (responseFinish conn.response).1 } := by
    rw [← hflight, ← hresponse]
    rfl
  refine fetchFinish_steps hcb ?_ ?_
  · intro f o result hround ho hr
    rw [hdone] at hround
    exact .one (.hungUp rfl rfl htrace hhead hfinished hwhole hround ho result hr)
  · intro events result hmethod hevents hout
    have hhead : conn.flight.method = .head := hflight ▸ hmethod
    have hact : Act (s.hold conn []) (.ended (events ++ s.trace) conn.flight .tooLarge result) :=
      .failed rfl hevents .tooLarge nofun (fun _ => hhead) result hout
    rw [hdone]
    exact .one hact

theorem receiveTurns_steps (hc : s.hold conn [] = c) (hp : conn.phase = .receiving)
    (hg : Going conn.response) : Steps called c (receiveTurns cb turns s conn).core := by
  induction turns generalizing s conn c with
  | zero =>
    subst hc
    exact .refl
  | succ _ ih =>
    subst hc
    unfold receiveTurns
    obtain ⟨used, hused, hread⟩ := Tls.Session.read_spec conn.tls (show 0 < readChunk by decide)
    simp only
    generalize hanswer : conn.tls.read readChunk s.world.sslReads = answer at *
    obtain ⟨r, tls, rest⟩ := answer
    have htaken : s.world.sslReads.take (s.world.sslReads.length - rest.length) = used := by
      rw [hused, List.length_append, Nat.add_sub_cancel, List.take_left]
    rw [htaken]
    have hact : Steps called (s.hold conn []) ⟨some conn.flight,
        (used.map (Tls.SslRead.plaintext readChunk)).flatten, .read used :: s.trace⟩ :=
      .one (.read rfl hp rfl used)
    generalize hs' : ({ s with world := { s.world with sslReads := rest } } : Sys σ).log
      (.read used) =
      s'
    have htrace : s'.trace = .read used :: s.trace := by
      subst hs'
      rfl
    rw [← htrace] at hact
    cases r with
    | ok bytes =>
      rw [hread] at hact
      rcases fetchFeed_steps hcb s' { conn with tls, progressed := true } bytes le_rfl
          hg with
        ⟨conn₁, s₁, hfeed, hsteps, hg₁, hp₁⟩ | ⟨s₁, hfeed, hsteps⟩
      · simp only [hfeed]
        exact (hact.trans hsteps).trans (ih rfl (hp₁.trans hp) hg₁)
      · simp only [hfeed]
        exact hact.trans hsteps
    | error e =>
      rw [hread.1] at hact
      split
      · exact hact
      · rename_i he
        cases he
        exact hact.trans (fetchOnClose_steps hcb rfl htrace hread.2)
      · rename_i he
        exact absurd he (by simp)

theorem fetchReceive_steps (hc : s.hold conn [] = c) (hp : conn.phase = .receiving)
    (hg : Going conn.response) : Steps called c (fetchReceive cb s conn).core :=
  receiveTurns_steps hcb hc hp hg

theorem sendStopped_steps (hc : s.hold conn [] = c) :
    Steps called c (sendStopped cb s conn e).core := by
  subst hc
  unfold sendStopped
  split
  · exact .refl
  · have hflight := noteSession_flight conn e
    exact fetchFail_held hcb rfl rfl (congrArg Flight.onDone hflight) ⟨nofun, nofun⟩

theorem sendUpload_steps (hc : s.hold conn [] = c) (hp : conn.phase = .sending)
    (hg : Going conn.response) : Steps called c (sendUpload cb s conn).core := by
  subst hc
  unfold sendUpload
  simp only
  generalize sendAll _ conn.tls s.world.sslWrites _ = sent
  have hact : Steps called (s.hold conn [])
      ⟨some { conn.flight with uploadSent := conn.uploadSent + sent.count },
      [], .sentUpload ((conn.upload.drop conn.uploadSent).take sent.count) :: s.trace⟩ :=
    .one (.uploaded rfl hp sent.count)
  split
  · exact hact.trans (sendStopped_steps hcb rfl)
  · have hlistened := Act.listened (c := ⟨some { conn.flight with
      uploadSent := conn.uploadSent + sent.count }, [],
      .sentUpload ((conn.upload.drop conn.uploadSent).take sent.count) :: s.trace⟩) rfl hp
    exact (hact.trans (.one hlistened)).trans (fetchReceive_steps hcb rfl rfl hg)

theorem fetchSend_steps (hc : s.hold conn [] = c) (hp : conn.phase = .sending)
    (hg : Going conn.response) : Steps called c (fetchSend cb s conn).core := by
  subst hc
  unfold fetchSend
  simp only
  generalize sendAll _ conn.tls s.world.sslWrites _ = sent
  have hact : Steps called (s.hold conn []) ((s.hold conn []).log
      (.sentRequest ((conn.request.drop conn.requestSent).take sent.count))) :=
    .one (.requested rfl hp _)
  split
  · exact hact.trans (sendStopped_steps hcb rfl)
  · exact hact.trans (sendUpload_steps hcb rfl hp hg)

theorem fetchHandshake_steps (hc : s.hold conn [] = c) (hp : conn.phase = .handshake) :
    Steps called c (fetchHandshake cb s conn).core := by
  subst hc
  unfold fetchHandshake
  simp only
  split
  · exact .refl
  · exact fetchFail_held hcb rfl rfl rfl ⟨nofun, nofun⟩
  · split
    · have hact : Steps called (s.hold conn []) ((s.hold conn []).log .handshaked) :=
        .one (.shookInVain rfl hp)
      exact hact.trans (fetchFail_held hcb rfl rfl rfl ⟨nofun, nofun⟩)
    · have hact := Act.shook (c := s.hold conn []) rfl hp
      exact Steps.trans (.one hact) (fetchSend_steps hcb rfl rfl (.init))

theorem fetchConnected_steps (hc : s.hold conn [] = c) (hp : conn.phase = .connecting) :
    Steps called c (fetchConnected cb s conn).core := by
  subst hc
  have hdialling : conn.phase.dialling := hp ▸ rfl
  unfold fetchConnected
  simp only
  split
  · exact fetchTryNext_steps hcb rfl hdialling
  · split
    · exact fetchFail_held hcb rfl rfl rfl ⟨nofun, nofun⟩
    · have hact := Act.secured (c := s.hold conn []) rfl hp
      exact Steps.trans (.one hact) (fetchHandshake_steps hcb rfl rfl)

end

def Ready (c : Core) : Prop := ∀ f, c.flight = some f → Going f.response

theorem Ready.held (hc : c.flight = some f) (h : Going f.response) : Ready c := by
  intro f' hf'
  cases hc.symm.trans hf'
  exact h

theorem Ready.keep (hr : Ready c) (hf : c.flight = some f) (hc : c'.flight = some f')
    (hsame : f'.response = f.response) : Ready c' := .held hc (hsame ▸ hr f hf)

theorem Ready.idle (hc : c.flight = none) : Ready c := by
  intro f hf
  cases hc.symm.trans hf

theorem Act.ready (h : Act c c') (hc : Ready c) : Ready c' := by
  cases h with
  | tried | shookInVain | requested => exact hc
  | dialled hf => exact hc.keep hf rfl rfl
  | secured hf => exact hc.keep hf rfl rfl
  | shook | redirected => exact .held rfl (.init)
  | uploaded hf => exact hc.keep hf rfl rfl
  | listened hf => exact hc.keep hf rfl rfl
  | read hf => exact hc.keep hf hf rfl
  | turned hf _ hd hs hover =>
    refine .held rfl ⟨?_, hover⟩
    rw [hs.same.1, hd.same.1]
    exact responseFeed_counted (hc _ hf).counted _
  | spilled | whole | brimmed | hungUp | failed => exact .idle rfl

structure Upheld (P : Core → Prop) : Prop where
  act : ∀ {c c'}, Act c c' → P c → P c'
  begin : ∀ {c f request nowMs}, c.flight = none → Flight.New f request nowMs → P c →
    P (c.begin request nowMs f)
  accept : ∀ {c f id}, c.flight = some f → f.onDone = none → id.isSome → P c →
    P { c with flight := some { f with onDone := id }, trace := .accepted id :: c.trace }
  cancel : ∀ {c f}, c.flight = some f → f.onDone.isSome → P c → P ⟨none, [], .cancelled :: c.trace⟩

theorem Upheld.quietly (hP : Upheld P) (h : Steps noCalls c c') (hc : P c) : P c' := by
  induction h with
  | refl => exact hc
  | tail _ hstep ih =>
    rcases hstep with hact | hcall
    · exact hP.act hact ih
    · exact hcall.elim

theorem Act.terms {p : Terms → Prop} (h : Act c c') (hc : ∀ f, c.flight = some f → p f.terms) :
    ∀ f, c'.flight = some f → p f.terms := by
  intro f' hf'
  cases h with
  | tried | shookInVain | requested | read => exact hc f' hf'
  | dialled hf | secured hf | shook hf | uploaded hf | listened hf | redirected hf =>
    cases hf'
    have hold := hc _ hf
    exact hold
  | turned hf _ hd hs =>
    cases hf'
    rw [hs.terms, hd.terms]
    have hold := hc _ hf
    exact hold
  | spilled | whole | brimmed | hungUp | failed => cases hf'

theorem Steps.terms {p : Terms → Prop} (h : Steps noCalls c c')
    (hc : ∀ f, c.flight = some f → p f.terms) : ∀ f, c'.flight = some f → p f.terms := by
  induction h with
  | refl => exact hc
  | tail _ hstep ih =>
    rcases hstep with hact | hcall
    · exact hact.terms ih
    · exact hcall.elim

theorem Upheld.steps (hP : Upheld P) (h : Steps Called c c') (hc : P c) : P c' := by
  induction h with
  | refl => exact hc
  | tail _ hstep ih =>
    rcases hstep with hact | hcall
    · exact hP.act hact ih
    cases hcall with
    | accepted hidle hnew hid hsteps hf =>
      have hnone := hsteps.terms (p := (·.onDone = none)) (by
        intro f hf
        cases hf
        exact hnew.onDone)
      exact hP.accept hf (hnone _ hf) hid (hP.quietly hsteps (hP.begin hidle hnew ih))
    | refused hidle hnew hsteps => exact hP.quietly hsteps (hP.begin hidle hnew ih)
    | cancelled hf hid => exact hP.cancel hf hid ih

theorem ready_upheld : Upheld Ready where
  act := Act.ready
  begin _ _ _ := .held rfl (.init)
  accept hf _ _ hc := hc.keep hf rfl rfl
  cancel _ _ _ := .idle rfl

/-- A request in flight has someone to hear of it: so it is but inside the call that starts it. -/
def Settled (c : Core) : Prop := ∀ f, c.flight = some f → f.onDone.isSome

theorem Settled.idle (hc : c.flight = none) : Settled c := by
  intro f hf
  cases hc.symm.trans hf

theorem Steps.settled (h : Steps Called c c') (hc : Settled c) : Settled c' := by
  induction h with
  | refl => exact hc
  | tail _ hstep ih =>
    rcases hstep with hact | hcall
    · exact hact.terms (p := (·.onDone.isSome)) ih
    cases hcall with
    | accepted _ _ hid =>
      intro f hf
      cases hf
      exact hid
    | refused _ _ _ hf => exact .idle hf
    | cancelled => exact .idle rfl

theorem flight_core (h : s.fetch.conn = some conn) : s.core.flight = some conn.flight :=
  congrArg (Option.map Conn.flight) h

theorem hold_core (h : s.fetch.conn = some conn) : s.hold conn [] = s.core := by
  unfold Sys.hold Sys.core
  rw [h]
  rfl

section
variable (hcb : Cooperative called cb)
include hcb

theorem fetchOnFd_steps (hr : Ready s.core) : Steps called s.core (fetchOnFd cb s events).core := by
  unfold fetchOnFd
  split
  · exact .refl
  rename_i conn hconn
  have hc := hold_core hconn
  have hg : Going conn.response := hr conn.flight (hc ▸ rfl)
  split
  · exact .refl
  split
  · split
    · exact fetchConnected_steps hcb hc ‹_›
    · exact .refl
  · exact fetchHandshake_steps hcb hc ‹_›
  · exact fetchSend_steps hcb hc ‹_› hg
  · exact fetchReceive_steps hcb hc ‹_› hg
  · exact .refl

theorem fetchOnResolved_steps (hcore : s.core = c) :
    Steps called c (fetchOnResolved cb s result).core := by
  subst hcore
  unfold fetchOnResolved
  split
  · exact .refl
  rename_i conn hconn
  have hc := hold_core hconn
  split
  · exact .refl
  rename_i hp
  have hp : conn.phase = .resolving := not_not.mp hp
  split
  · rw [← hc]
    exact fetchFail_held hcb rfl rfl rfl ⟨nofun, nofun⟩
  · have hdialling : conn.phase.dialling := hp ▸ rfl
    rw [← hc]
    exact fetchTryNext_steps hcb rfl hdialling

theorem resolveTryFinish_steps (s : Sys σ) : Steps called s.core (resolveTryFinish cb s).core := by
  unfold resolveTryFinish
  split
  · exact .refl
  simp only
  split
  · exact .refl
  · apply fetchOnResolved_steps hcb
    rfl

theorem resolveTick_steps (s : Sys σ) (nowMs : Nat) :
    Steps called s.core (resolveTick cb s nowMs).core := by
  have hfinish := resolveTryFinish_steps hcb s
  unfold resolveTick
  simp only
  split
  · exact hfinish
  split
  · apply hfinish.trans
    apply fetchOnResolved_steps hcb
    rfl
  · exact hfinish

theorem tickConn_steps (hc : s.hold conn [] = c) (hr : Ready c) :
    Steps called c (tickConn cb s conn nowMs).core := by
  subst hc
  unfold tickConn
  split
  · exact fetchFail_held hcb rfl rfl rfl ⟨nofun, nofun⟩
  have hnoted : (if conn.progressed then { conn with progressed := false, lastProgressMs := nowMs }
      else conn).flight = conn.flight := by
    split <;> rfl
  simp only
  generalize (if conn.progressed then { conn with progressed := false, lastProgressMs := nowMs }
    else conn) = conn' at *
  have hhold : s.hold conn' [] = s.hold conn [] := by
    unfold Sys.hold
    rw [hnoted]
  rw [← hhold] at hr ⊢
  split
  · exact fetchFail_held hcb rfl rfl rfl ⟨nofun, nofun⟩
  split
  · rename_i hp
    have hdialling : conn'.phase.dialling := hp.1 ▸ rfl
    exact fetchTryNext_steps hcb rfl hdialling
  split
  · rename_i hp
    rw [Bool.and_eq_true, beq_iff_eq] at hp
    exact fetchReceive_steps hcb rfl hp.2 (hr _ rfl)
  · exact .refl

end

theorem fetchTick_steps (hcb : Cooperative Called cb) (hr : Ready s.core) :
    Steps Called (s.core.log (.ticked nowMs)) (fetchTick cb s nowMs).core := by
  have hresolved := resolveTick_steps hcb
    (({ s with fetch := { s.fetch with nowMs } } : Sys σ).log (.ticked nowMs)) nowMs
  unfold fetchTick
  simp only
  split
  · exact hresolved
  · rename_i hconn
    have hc := hold_core hconn
    exact hresolved.trans (tickConn_steps hcb hc (ready_upheld.steps hresolved hr))

theorem Request.consistent_get (h : Request.consistent request) (hm : request.method ≠ .post) :
    request.bodyLen = 0 := by
  rw [Request.consistent, if_neg hm, Bool.and_eq_true, beq_iff_eq] at h
  exact h.2

theorem fetchBegin_steps (s : Sys σ) (hidle : s.fetch.conn = none) (htls : url.tls)
    (hid : request.onDone.isSome) (hconsistent : request.consistent) :
    Steps Called s.core (fetchBegin s request url nowMs).2.core := by
  have hquiet : Cooperative noCalls (fun _ _ (s : Sys σ) => s) := fun _ _ s _ => .refl
  unfold fetchBegin
  simp only
  generalize hs' : ({ s with fetch := { s.fetch with nowMs } } : Sys σ).log
    (.started request nowMs) = s'
  have htrace : s'.trace = .started request nowMs :: s.trace := by
    subst hs'
    rfl
  generalize hconn : connOf s.fetch.userAgent request url nowMs = conn
  have hnew : conn.flight.New request nowMs := by
    subst hconn
    refine ⟨⟨rfl, rfl, rfl, rfl, rfl⟩, rfl, rfl, rfl, rfl, htls, ?_, rfl⟩
    intro hm
    show (request.body.getD []).take request.bodyLen = []
    rw [Request.consistent_get hconsistent hm, List.take_zero]
  have hflight : s.core.flight = none := by
    unfold Sys.core
    rw [hidle]
    rfl
  have hhop : Steps noCalls (s.core.begin request nowMs conn.flight)
      (fetchHop (fun _ _ s => s) s' conn).core := by
    refine fetchHop_steps hquiet ?_
    rw [htrace]
    exact .refl
  split
  · rename_i hnone
    refine .call (.refused hflight hnew hhop ?_)
    unfold Sys.core
    rw [hnone]
    rfl
  · rename_i hconn'
    rw [← hold_core hconn'] at hhop
    exact .call (.accepted hflight hnew hid hhop rfl)

/-- A start is turned down with nothing but allocations used up, or the first hop begins. -/
inductive Started (s : Sys σ) (request : Request) (nowMs : Nat) : Option Errno × Sys σ → Prop
  | refused (world : World) (code : Errno) : Started s request nowMs (some code, { s with world })
  | begins (world : World) (url : Url) (hid : request.onDone.isSome)
    (hidle : s.fetch.conn = none) (hconsistent : request.consistent)
    (htls : url.tls) :
    Started s request nowMs (fetchBegin { s with world } request url nowMs)

theorem allocate_world (h : Sys.allocate s = (there, s')) : ∃ world, s' = { s with world } := by
  cases h
  exact ⟨_, rfl⟩

theorem fetchStart_started (s : Sys σ) (request : Request) (nowMs : Nat) :
    Started s request nowMs (fetchStart s request nowMs) := by
  unfold fetchStart
  split
  · exact .refused s.world _
  rename_i hid
  have hid : request.onDone.isSome :=
    Option.isSome_iff_ne_none.mpr fun hnone => hid (Option.isNone_iff_eq_none.mpr hnone)
  split
  · exact .refused s.world _
  split
  · exact .refused s.world _
  rename_i hbusy
  have hidle : s.fetch.conn = none := by simpa using hbusy
  split
  · exact .refused s.world _
  rename_i hconsistent
  have hconsistent : request.consistent = true := by simpa using hconsistent
  split
  · exact .refused s.world _
  cases hallocate : s.allocate with
  | mk there =>
    obtain ⟨world, rfl⟩ := allocate_world hallocate
    cases there with
    | false => exact .refused world _
    | true =>
      simp only
      split
      · exact .refused world _
      split
      · exact .refused world _
      rename_i url _ htls
      have htls : url.tls = true := by simpa using htls
      split
      · exact .refused world _
      split
      · exact .refused world _
      split
      · cases hallocate₂ : Sys.allocate { s with world } with
        | mk there =>
          obtain ⟨world₂, rfl⟩ := allocate_world hallocate₂
          cases there with
          | false => exact .refused world₂ _
          | true => exact .begins world₂ url hid hidle hconsistent htls
      · exact .begins world url hid hidle hconsistent htls

theorem fetchStart_steps : Steps Called s.core (fetchStart s request nowMs).2.core := by
  have hstarted := fetchStart_started s request nowMs
  generalize fetchStart s request nowMs = w at *
  cases hstarted with
  | refused => exact .refl
  | begins world _ hid hidle hconsistent htls =>
    exact fetchBegin_steps { s with world } hidle htls hid hconsistent

theorem fetchFree_core (s : Sys σ) (conn : Conn) : (fetchFree s conn).core = s.core := by
  unfold fetchFree
  split <;> rfl

theorem fetchCancel_steps (hs : Settled s.core) : Steps Called s.core (fetchCancel s).core := by
  unfold fetchCancel
  split
  · exact .refl
  · rename_i conn hconn
    have hflight : s.core.flight = some conn.flight := by
      rw [← hold_core hconn]
      rfl
    have hfreed : ((fetchFree { s with fetch := { s.fetch with conn := none, lookup := none } }
        conn).log .cancelled).core = ⟨none, [], .cancelled :: s.trace⟩ := by
      have hcore := fetchFree_core
        { s with fetch := { s.fetch with conn := none, lookup := none } } conn
      unfold Sys.core at hcore ⊢
      unfold Sys.log
      simp only [Core.mk.injEq] at hcore ⊢
      rw [hcore.1, hcore.2.2]
      exact ⟨rfl, trivial, rfl⟩
    simp only [hfreed]
    exact .call (.cancelled hflight (hs _ hflight))

theorem apiCall_steps (hs : Settled s.core) : Steps Called s.core (apiCall s call).core := by
  cases call with
  | start => exact fetchStart_steps
  | cancel | shutdown => exact fetchCancel_steps hs
  | connectTo | setUserAgent => exact .refl

theorem AppStep.steps (h : AppStep s s') (hs : Settled s.core) : Steps Called s.core s'.core := by
  cases h with
  | call => exact apiCall_steps hs
  | own => exact .refl

theorem Callback.cooperative (cb : Callback σ) : Cooperative Called cb.run := by
  intro id result s hidle
  have happ := cb.steps id result s
  generalize cb.run id result s = s' at happ
  induction happ with
  | refl => exact .refl
  | tail _ hstep ih => exact ih.trans (hstep.steps (ih.settled (.idle hidle)))

def Op.heard (op : Op σ) (c : Core) : Core :=
  match op with
  | .tick nowMs => c.log (.ticked nowMs)
  | _ => c

theorem step_steps (cb : Callback σ) (hr : Ready s.core) (hs : Settled s.core) (op : Op σ) :
    Steps Called (op.heard s.core) (step cb s op).core := by
  cases op with
  | call => exact apiCall_steps hs
  | own => exact .refl
  | tick => exact fetchTick_steps cb.cooperative hr
  | socketEvent => exact fetchOnFd_steps cb.cooperative hr
  | lookupEvent => exact resolveTryFinish_steps cb.cooperative s

theorem Op.heard_flight (op : Op σ) : (op.heard c).flight = c.flight := by cases op <;> rfl

structure Resting (c : Core) : Prop where
  ready : Ready c
  settled : Settled c

theorem step_resting (cb : Callback σ) (h : Resting s.core) : Resting (step cb s op).core := by
  have hsteps := step_steps cb h.ready h.settled op
  refine ⟨ready_upheld.steps hsteps ?_, hsteps.settled ?_⟩
  · intro f hf
    rw [op.heard_flight] at hf
    exact h.ready f hf
  · intro f hf
    rw [op.heard_flight] at hf
    exact h.settled f hf

theorem run_upholds (hP : Upheld P) (htick : ∀ c nowMs, P c → P (c.log (.ticked nowMs)))
    (cb : Callback σ) (s : Sys σ) (hs : Resting s.core) (hc : P s.core) (ops : List (Op σ)) :
    P (run cb s ops).core := by
  induction ops generalizing s with
  | nil => exact hc
  | cons op _ ih =>
    have hheard : P (op.heard s.core) := by
      cases op with
      | tick nowMs => exact htick _ nowMs hc
      | call | own | socketEvent | lookupEvent => exact hc
    have hstep := step_steps cb hs.ready hs.settled op
    exact ih (step cb s op) (step_resting cb hs) (hP.steps hstep hheard)

theorem boot_resting (hasLoop : Bool) (world : World) (files : Bytes → Option Bytes)
    (app : σ) : Resting (boot hasLoop world files app).core :=
  ⟨.idle rfl, .idle rfl⟩

end Inkwell.Fetch
