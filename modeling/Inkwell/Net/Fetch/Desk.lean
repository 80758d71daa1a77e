import Inkwell.Net.Fetch.Completion

namespace Inkwell.Fetch
open Net Http Library

/-- What a request is for: the completion to be called, and the file for its body. -/
structure Errand where
  onDone : Option Nat
  outputPath : Bytes
  deriving DecidableEq

def Conn.errand (conn : Conn) : Errand := ⟨conn.onDone, conn.outputPath⟩

structure Desk (σ : Type) where
  errand : Option Errand
  app : σ
  files : Bytes → Option Bytes
  trace : List Event

def Sys.desk (s : Sys σ) : Desk σ := ⟨s.fetch.conn.map Conn.errand, s.app, s.files, s.trace⟩

def Sys.deskWith (s : Sys σ) (conn : Conn) : Desk σ := ⟨some conn.errand, s.app, s.files, s.trace⟩

/-- On its own a fetcher stays on its errand, leaves the application and every file but one alone,
and begins and ends nothing. -/
structure Desk.Works (d d' : Desk σ) : Prop where
  errand : d'.errand = d.errand
  app : d'.app = d.app
  trace : Mutely d.trace d'.trace
  files : ∀ path, (∀ e, d.errand = some e → e.outputPath ≠ path) → d'.files path = d.files path

def Desk.ended (d : Desk σ) (o : Outcome) : Desk σ :=
  ⟨none, d.app, d.files, .completed o :: d.trace⟩

def Desk.told (d : Desk σ) (o : Outcome) (id : Nat) (result : Result) : Desk σ :=
  ⟨none, d.app, d.files, .done id result :: .completed o :: d.trace⟩

/-- The request is still in flight, or it has ended and its completion, if any, has run. -/
inductive Leaves (cb : Nat → Result → Sys σ → Sys σ) (d : Desk σ) : Sys σ → Prop
  | held (h : d.Works s.desk) : Leaves cb d s
  | unheard (h : d.Works d') (he : d'.errand = some e) (hid : e.onDone = none) (o : Outcome)
      (hs : s.desk = d'.ended o) : Leaves cb d s
  | told (h : d.Works d') (he : d'.errand = some e) (id : Nat) (hid : e.onDone = some id)
      (o : Outcome) (result : Result) (hout : result.outcome = o) (idle : Sys σ)
      (hs : idle.desk = d'.told o id result) : Leaves cb d (cb id result idle)

inductive Onward (cb : Nat → Result → Sys σ → Sys σ) (d : Desk σ) : Option Conn × Sys σ → Prop
  | on (h : d.Works (s.deskWith conn)) : Onward cb d (some conn, s)
  | off (h : Leaves cb d s) : Onward cb d (none, s)

theorem Desk.Works.refl (d : Desk σ) : d.Works d := ⟨rfl, rfl, .refl _, fun _ _ => rfl⟩

section Engine
variable {σ : Type} {d : Desk σ} {cb : Nat → Result → Sys σ → Sys σ} {s s' : Sys σ}
  {conn conn' : Conn}

theorem appendFile_other (h : path ≠ target) : appendFile files target bytes path = files path :=
  if_neg h

theorem createFile_other (h : path ≠ target) : createFile files target path = files path := if_neg h

theorem noteSession_errand : (noteSession conn e).errand = conn.errand := by
  unfold noteSession
  split
  · rfl
  split <;> rfl

theorem desk_of_conn (h : s.fetch.conn = some conn) : s.deskWith conn = s.desk := by
  unfold Sys.desk Sys.deskWith
  rw [h]
  rfl

theorem Desk.Works.of_conn (h : s.fetch.conn = some conn) : s.desk.Works (s.deskWith conn) := by
  rw [desk_of_conn h]
  exact .refl _

variable (h : d.Works (s.deskWith conn))
include h

theorem Desk.Works.log (he : Event.mute e) : d.Works ((s.log e).deskWith conn) :=
  ⟨h.errand, h.app, h.trace.cons he, h.files⟩

theorem Desk.Works.step (happ : s'.app = s.app) (htrace : Mutely s.trace s'.trace)
    (hfiles : ∀ path, path ≠ conn.outputPath → s'.files path = s.files path)
    (he : conn'.errand = conn.errand) : d.Works (s'.deskWith conn') := by
  have herrand : some conn.errand = d.errand := h.errand
  refine ⟨?_, happ.trans h.app, h.trace.trans htrace, ?_⟩
  · rw [← herrand, ← he]
    rfl
  · intro path hpath
    have hother : conn.outputPath ≠ path := hpath conn.errand herrand.symm
    exact (hfiles path hother.symm).trans (h.files path hpath)

theorem Desk.Works.along (he : conn'.errand = conn.errand) : d.Works (s.deskWith conn') :=
  h.step rfl (.refl _) (fun _ _ => rfl) he

theorem fetchComplete_leaves : Leaves cb d (fetchComplete cb s conn o) := by
  obtain ⟨o', result, idle, _, hof, hcore, hfetch, ⟨happ, hfiles⟩, heq⟩ :=
    fetchComplete_spec cb s conn o
  have hnone : idle.fetch.conn = none := congrArg Fetcher.conn hfetch
  have htrace : idle.trace = (Core.ended s.trace conn.flight o' result).trace :=
    congrArg Core.trace hcore
  have hdesk : idle.desk =
      ⟨none, s.app, s.files, (Core.ended s.trace conn.flight o' result).trace⟩ := by
    unfold Sys.desk
    rw [hnone, happ, hfiles, htrace]
    rfl
  rw [heq]
  unfold Core.ended at hdesk
  cases hid : conn.onDone with
  | none =>
    have hflight : conn.flight.onDone = none := hid
    rw [hflight] at hdesk
    exact .unheard h rfl hid o' hdesk
  | some id =>
    have hflight : conn.flight.onDone = some id := hid
    rw [hflight] at hdesk
    exact .told h rfl id hid o' result hof.outcome idle hdesk

theorem fetchFail_leaves (o : Outcome) (message : Message) :
    Leaves cb d (fetchFail cb s conn o message) := by
  apply fetchComplete_leaves
  exact h

theorem fetchCapture_onward :
    (∃ conn' s', fetchCapture s conn bytes = (some conn', s') ∧ d.Works (s'.deskWith conn')) ∨
    ∃ s', fetchCapture s conn bytes = (none, s') ∧ d.Works (s'.deskWith conn) := by
  unfold fetchCapture next
  split
  · exact .inr ⟨s, rfl, h⟩
  simp only
  split
  · exact .inl ⟨_, _, rfl, h⟩
  · exact .inr ⟨_, rfl, h.log rfl⟩

theorem fetchSink_onward (bytes : Bytes) : Onward cb d (fetchSink cb s conn bytes) := by
  unfold fetchSink
  split
  · rcases fetchCapture_onward h with ⟨_, _, heq, hworks⟩ | ⟨_, heq, hworks⟩
    · rw [heq]
      exact .on hworks
    · rw [heq]
      exact .off (fetchFail_leaves hworks _ _)
  split
  · exact .off (fetchFail_leaves h _ _)
  simp only
  generalize writeAll s.world.writes bytes = written
  have hwrote := (Mutely.refl s.trace).cons (e := .wrote written.bytes) rfl
  split
  · refine .off (fetchFail_leaves ?_ _ _)
    exact h.step rfl hwrote (fun _ => appendFile_other) rfl
  · refine .on ?_
    exact h.step rfl hwrote (fun _ => appendFile_other) rfl

theorem fetchFinish_leaves : Leaves cb d (fetchFinish cb s conn) := by
  unfold fetchFinish
  split
  · rcases fetchCapture_onward h with ⟨_, _, heq, hworks⟩ | ⟨_, heq, hworks⟩
    · rw [heq]
      exact fetchComplete_leaves hworks
    · rw [heq]
      exact fetchFail_leaves hworks _ _
  · exact fetchComplete_leaves h

theorem fetchOpen_works (address : Address) :
    d.Works ((fetchOpen s conn address).2.2.deskWith (fetchOpen s conn address).2.1) := by
  have hlog := h.log (e := .tried address) rfl
  unfold fetchOpen next
  simp only
  iterate 3
    split
    · exact hlog
  · exact hlog

theorem tryAddresses_leaves : Leaves cb d (tryAddresses cb left s conn) := by
  induction left generalizing s conn with
  | zero => exact fetchComplete_leaves h
  | succ _ ih =>
    unfold tryAddresses
    split
    · exact fetchComplete_leaves h
    · rename_i address _
      have hnext : d.Works (s.deskWith { conn with addressNext := conn.addressNext + 1 }) := h
      have hopen := fetchOpen_works hnext address
      generalize fetchOpen s { conn with addressNext := conn.addressNext + 1 } address = opened at *
      obtain ⟨connecting, _, _⟩ := opened
      cases connecting with
      | true => exact .held hopen
      | false => exact ih hopen

theorem fetchTryNext_leaves : Leaves cb d (fetchTryNext cb s conn) := tryAddresses_leaves h

theorem resolveStart_works (host : Bytes) : d.Works ((resolveStart s host).2.deskWith conn) := by
  unfold resolveStart next
  iterate 3
    split
    · exact h
  simp only
  split <;> exact h

theorem lookUp_leaves (host : Bytes) : Leaves cb d (lookUp cb s conn host) := by
  have hstart := resolveStart_works h host
  unfold lookUp
  generalize resolveStart s host = started at *
  obtain ⟨refused, s'⟩ := started
  cases refused with
  | none => exact .held hstart
  | some e =>
    have hnoted : d.Works (s'.deskWith (note conn .lookupFailed (.errno e))) := hstart.along rfl
    exact fetchFail_leaves hnoted _ _

theorem fetchHop_leaves : Leaves cb d (fetchHop cb s conn) := by
  have hhop : d.Works ((s.log (.hop conn.url)).deskWith (hopping conn)) :=
    h.step rfl ((Mutely.refl s.trace).cons rfl) (fun _ _ => rfl) rfl
  unfold fetchHop
  simp only
  split
  · split
    · exact lookUp_leaves hhop _
    · exact fetchTryNext_leaves hhop
  · split
    · exact fetchTryNext_leaves hhop
    · exact lookUp_leaves hhop _

theorem fetchRedirect_leaves : Leaves cb d (fetchRedirect cb s conn) := by
  unfold fetchRedirect
  iterate 5
    split
    · exact fetchFail_leaves h _ _
  · apply fetchHop_leaves
    exact h

theorem fetchOnHead_onward : Onward cb d (fetchOnHead cb s conn) := by
  have hreplied : d.Works ((s.log (.replied conn.response.status)).deskWith conn) := h.log rfl
  unfold fetchOnHead
  simp only
  split
  · exact .off (fetchFail_leaves hreplied _ _)
  split
  · exact .off (fetchRedirect_leaves hreplied)
  split
  · exact .off (fetchFail_leaves hreplied _ _)
  split
  · exact .off (fetchFail_leaves hreplied _ _)
  split
  · split
    · refine .off (fetchFail_leaves ?_ _ _)
      exact hreplied
    · refine .on ?_
      exact hreplied.step rfl ((Mutely.refl _).cons rfl) (fun _ => createFile_other) rfl
  · exact .on hreplied

theorem fetchDecide_onward : Onward cb d (fetchDecide cb s conn) := by
  unfold fetchDecide
  split
  · apply fetchOnHead_onward
    exact h
  · exact .on h

theorem Desk.Works.noted (e : Errno) : d.Works (s.deskWith (noteSession conn e)) :=
  h.along noteSession_errand

theorem fetchOnClose_leaves (e : Errno) : Leaves cb d (fetchOnClose cb s conn e) := by
  have hnoted := h.noted e
  unfold fetchOnClose
  simp only
  split
  · exact fetchFail_leaves hnoted _ _
  split
  · exact fetchFail_leaves hnoted _ _
  split
  · refine fetchFail_leaves ?_ _ _
    exact hnoted
  · apply fetchFinish_leaves
    exact hnoted

theorem fetchFeed_onward (fuel : Nat) (input : Bytes) :
    Onward cb d (fetchFeed cb fuel s conn input) := by
  induction fuel generalizing s conn input with
  | zero => exact .on h
  | succ _ ih =>
    unfold fetchFeed
    split
    · exact .on h
    simp only
    generalize responseFeed conn.response input = fed
    have hfed : d.Works (s.deskWith { conn with response := fed.response }) := h
    split
    · exact .off (fetchFail_leaves hfed _ _)
    have hdecided : Onward cb d (fetchDecide cb s { conn with response := fed.response }) :=
      fetchDecide_onward hfed
    generalize fetchDecide cb s { conn with response := fed.response } = decided at *
    cases hdecided with
    | off hoff => exact .off hoff
    | @on conn₁ s₁ hon =>
      simp only
      have hsunk :
          Onward cb d (if (input.drop fed.bodyAt).take fed.bodyLen = [] then (some conn₁, s₁)
          else fetchSink cb s₁ conn₁ ((input.drop fed.bodyAt).take fed.bodyLen)) := by
        split
        · exact .on hon
        · exact fetchSink_onward hon _
      generalize (if (input.drop fed.bodyAt).take fed.bodyLen = [] then (some conn₁, s₁)
          else fetchSink cb s₁ conn₁ ((input.drop fed.bodyAt).take fed.bodyLen)) = sunk at *
      cases hsunk with
      | off hoff => exact .off hoff
      | on hon =>
        simp only
        split
        · exact .off (fetchFinish_leaves hon)
        split
        · exact .on hon
        · exact ih hon _

theorem receiveTurns_leaves : Leaves cb d (receiveTurns cb turns s conn) := by
  induction turns generalizing s conn with
  | zero => exact .held h
  | succ _ ih =>
    unfold receiveTurns
    simp only
    generalize conn.tls.read readChunk s.world.sslReads = answer
    obtain ⟨_, tls, rest⟩ := answer
    have hread :
        d.Works ((({ s with world := { s.world with sslReads := rest } } : Sys σ).log (.read
        (s.world.sslReads.take (s.world.sslReads.length - rest.length)))).deskWith
          { conn with tls }) := h.log rfl
    simp only
    split
    · exact .held hread
    · exact fetchOnClose_leaves hread _
    · rename_i bytes
      generalize hs' : Sys.log _ (.read _) = s' at *
      have hprogress : d.Works (s'.deskWith { conn with tls, progressed := true }) :=
        hread.along rfl
      have hfed :
          Onward cb d (fetchFeed cb bytes.length s' { conn with tls, progressed := true } bytes) :=
        fetchFeed_onward hprogress bytes.length bytes
      generalize fetchFeed cb bytes.length s' { conn with tls, progressed := true } bytes = fed at *
      cases hfed with
      | off hoff => exact hoff
      | on hon => exact ih hon

theorem fetchReceive_leaves : Leaves cb d (fetchReceive cb s conn) := by
  apply receiveTurns_leaves
  exact h

theorem sendStopped_leaves : Leaves cb d (sendStopped cb s conn e) := by
  unfold sendStopped
  split
  · exact .held h
  · exact fetchFail_leaves (h.noted e) _ _

theorem sendUpload_leaves : Leaves cb d (sendUpload cb s conn) := by
  unfold sendUpload
  simp only
  generalize sendAll _ conn.tls s.world.sslWrites _ = sent
  have hsent := h.log (e := .sentUpload ((conn.upload.drop conn.uploadSent).take sent.count)) rfl
  split
  · apply sendStopped_leaves
    exact hsent
  · apply fetchReceive_leaves
    exact hsent

theorem fetchSend_leaves : Leaves cb d (fetchSend cb s conn) := by
  unfold fetchSend
  simp only
  generalize sendAll _ conn.tls s.world.sslWrites _ = sent
  have hsent := h.log (e := .sentRequest ((conn.request.drop conn.requestSent).take sent.count)) rfl
  split
  · apply sendStopped_leaves
    exact hsent
  · apply sendUpload_leaves
    exact hsent

theorem fetchHandshake_leaves : Leaves cb d (fetchHandshake cb s conn) := by
  unfold fetchHandshake
  simp only
  split
  · exact .held h
  · refine fetchFail_leaves ?_ _ _
    exact h
  have hshook := h.log (e := .handshaked) rfl
  split
  · refine fetchFail_leaves ?_ _ _
    exact hshook
  · apply fetchSend_leaves
    exact hshook

theorem fetchConnected_leaves : Leaves cb d (fetchConnected cb s conn) := by
  unfold fetchConnected
  simp only
  split
  · apply fetchTryNext_leaves
    exact h
  split
  · refine fetchFail_leaves ?_ _ _
    exact h
  · apply fetchHandshake_leaves
    exact h.log rfl

theorem tickConn_leaves : Leaves cb d (tickConn cb s conn nowMs) := by
  unfold tickConn
  split
  · refine fetchFail_leaves ?_ _ _
    exact h
  have hnoted : (if conn.progressed then { conn with progressed := false, lastProgressMs := nowMs }
      else conn).errand = conn.errand := by
    split <;> rfl
  simp only
  generalize (if conn.progressed then { conn with progressed := false, lastProgressMs := nowMs }
    else conn) = conn' at *
  have hticked : d.Works (s.deskWith conn') := h.along hnoted
  split
  · refine fetchFail_leaves ?_ _ _
    exact hticked
  split
  · apply fetchTryNext_leaves
    exact hticked
  split
  · exact fetchReceive_leaves hticked
  · exact .held hticked

end Engine

structure Employs (cb : Nat → Result → Sys σ → Sys σ) (p : Desk σ → Prop) : Prop where
  works : ∀ {d d' : Desk σ}, d.Works d' → p d → p d'
  ticked : ∀ {d : Desk σ} (nowMs : Nat), p d → p { d with trace := .ticked nowMs :: d.trace }
  unheard : ∀ {d : Desk σ} {e : Errand} (o : Outcome), d.errand = some e → e.onDone = none → p d →
    p (d.ended o)
  told : ∀ {d : Desk σ} {e : Errand} {id : Nat} {o : Outcome} {result : Result} {idle : Sys σ},
    d.errand = some e → e.onDone = some id → result.outcome = o → idle.desk = d.told o id result →
    p d → p (cb id result idle).desk

section Employment
variable {σ : Type} {cb : Nat → Result → Sys σ → Sys σ} {p : Desk σ → Prop} {s : Sys σ}

theorem Employs.leaves (h : Employs cb p) (hl : Leaves cb d s) (hd : p d) : p s.desk := by
  cases hl with
  | held hworks => exact h.works hworks hd
  | unheard hworks he hid o hs =>
    rw [hs]
    exact h.unheard o he hid (h.works hworks hd)
  | told hworks he _ hid o _ hout _ hs => exact h.told he hid hout hs (h.works hworks hd)

theorem Employs.fetchOnFd (h : Employs cb p) (hs : p s.desk) : p (fetchOnFd cb s events).desk := by
  unfold Fetch.fetchOnFd
  split
  · exact hs
  rename_i hconn
  have hworks := Desk.Works.of_conn hconn
  split
  · exact hs
  split
  · split
    · exact h.leaves (fetchConnected_leaves hworks) hs
    · exact hs
  · exact h.leaves (fetchHandshake_leaves hworks) hs
  · exact h.leaves (fetchSend_leaves hworks) hs
  · exact h.leaves (fetchReceive_leaves hworks) hs
  · exact hs

theorem Employs.fetchOnResolved (h : Employs cb p) (hs : p s.desk) :
    p (fetchOnResolved cb s result).desk := by
  unfold Fetch.fetchOnResolved
  split
  · exact hs
  rename_i hconn
  have hworks := Desk.Works.of_conn hconn
  split
  · exact hs
  split
  · refine h.leaves (fetchFail_leaves ?_ _ _) hs
    exact hworks
  · refine h.leaves (fetchTryNext_leaves ?_) hs
    exact hworks

theorem Employs.resolveTryFinish (h : Employs cb p) (hs : p s.desk) :
    p (resolveTryFinish cb s).desk := by
  unfold Fetch.resolveTryFinish
  split
  · exact hs
  simp only
  split
  · exact hs
  · apply h.fetchOnResolved
    exact hs

theorem Employs.afterTick (h : Employs cb p)
    (hs : p { s.desk with trace := .ticked nowMs :: s.desk.trace }) :
    p (fetchTick cb s nowMs).desk := by
  have hresolved : p (resolveTick cb
      (({ s with fetch := { s.fetch with nowMs } } : Sys σ).log (.ticked nowMs)) nowMs).desk := by
    have hfinish : p (Fetch.resolveTryFinish cb
        (({ s with fetch := { s.fetch with nowMs } } : Sys σ).log (.ticked nowMs))).desk :=
      h.resolveTryFinish hs
    unfold resolveTick
    simp only
    split
    · exact hfinish
    split
    · apply h.fetchOnResolved
      exact hfinish
    · exact hfinish
  unfold Fetch.fetchTick
  simp only
  split
  · exact hresolved
  · rename_i hconn
    exact h.leaves (tickConn_leaves (.of_conn hconn)) hresolved

theorem Employs.fetchTick (h : Employs cb p) (hs : p s.desk) (nowMs : Nat) :
    p (fetchTick cb s nowMs).desk :=
  h.afterTick (h.ticked nowMs hs)

end Employment

def Desk.begin (d : Desk σ) (request : Request) (nowMs : Nat) : Desk σ :=
  ⟨some ⟨none, request.outputPath.getD []⟩, d.app, d.files, .started request nowMs :: d.trace⟩

def Desk.accept (d : Desk σ) (request : Request) : Desk σ :=
  ⟨some ⟨request.onDone, request.outputPath.getD []⟩, d.app, d.files,
    .accepted request.onDone :: d.trace⟩

inductive Begun (request : Request) (nowMs : Nat) (d : Desk σ) : Option Errno → Desk σ → Prop
  | refused (e : Errno) : Begun request nowMs d (some e) d
  | failed (hidle : d.errand = none) (h : (d.begin request nowMs).Works d') (o : Outcome) :
    Begun request nowMs d (some .eio) (d'.ended o)
  | accepted (hidle : d.errand = none) (h : (d.begin request nowMs).Works d') :
    Begun request nowMs d none (d'.accept request)

theorem Begun.refused_errand (h : Begun request nowMs d (some e) d')
    (hidle : d.errand = none) : d'.errand = none := by
  cases h with
  | refused => exact hidle
  | failed => rfl

theorem Begun.leaves (h : Begun request nowMs d e d') :
    d'.app = d.app ∧ (d'.errand = d.errand ∨ d'.errand = none ∨
      e = none ∧ d'.errand = some ⟨request.onDone, request.outputPath.getD []⟩) := by
  cases h with
  | refused => exact ⟨rfl, .inl rfl⟩
  | failed _ hworks => exact ⟨hworks.app, .inr (.inl rfl)⟩
  | accepted _ hworks => exact ⟨hworks.app, .inr (.inr ⟨rfl, rfl⟩)⟩

theorem Begun.accepted_errand (h : Begun request nowMs d none d') :
    d'.errand = some ⟨request.onDone, request.outputPath.getD []⟩ ∧
      owed d'.trace = request.onDone := by
  cases h with
  | accepted => exact ⟨rfl, rfl⟩

theorem Mutely.unasked (h : Mutely t t') : ∃ events, Unasked events ∧ t' = events ++ t := by
  obtain ⟨events, hmute, heq⟩ := h
  refine ⟨events, ?_, heq⟩
  intro e he
  have hmute := hmute e he
  cases e <;> first | rfl | cases hmute

theorem Begun.accepted_asked (h : Begun request nowMs d none d') :
    ∃ events, Unasked events ∧ d'.trace = events ++ .started request nowMs :: d.trace := by
  cases h with
  | accepted _ hworks =>
    obtain ⟨events, hunasked, heq⟩ := hworks.trace.unasked
    exact ⟨.accepted request.onDone :: events, hunasked.cons rfl, congrArg (List.cons _) heq⟩

theorem Begun.asked (h : Begun request nowMs d e d') :
    d'.trace = d.trace ∨
      ∃ events, Unasked events ∧ d'.trace = events ++ .started request nowMs :: d.trace := by
  cases h with
  | refused => exact .inl rfl
  | failed _ hworks o =>
    obtain ⟨events, hunasked, heq⟩ := hworks.trace.unasked
    exact .inr ⟨.completed o :: events, hunasked.cons rfl, congrArg (List.cons _) heq⟩
  | accepted hidle hworks => exact .inr (Begun.accepted hidle hworks).accepted_asked

theorem fetchBegin_begun (s : Sys σ) (hidle : s.fetch.conn = none) (request : Request) (url : Url)
    (nowMs : Nat) :
    Begun request nowMs s.desk (fetchBegin s request url nowMs).1
      (fetchBegin s request url nowMs).2.desk := by
  have hnone : s.desk.errand = none := congrArg (Option.map Conn.errand) hidle
  unfold fetchBegin
  simp only
  have hbegun : (s.desk.begin request nowMs).Works
      ((({ s with fetch := { s.fetch with nowMs } } : Sys σ).log (.started request nowMs)).deskWith
        (connOf s.fetch.userAgent request url nowMs)) := .refl _
  have hhop : Leaves (fun _ _ s => s) (s.desk.begin request nowMs) (fetchHop (fun _ _ s => s)
      (({ s with fetch := { s.fetch with nowMs } } : Sys σ).log (.started request nowMs))
      (connOf s.fetch.userAgent request url nowMs)) := fetchHop_leaves hbegun
  generalize fetchHop (fun _ _ s => s) _ (connOf s.fetch.userAgent request url nowMs) = s' at *
  cases hhop with
  | held hworks =>
    have herrand := hworks.errand
    cases hconn : s'.fetch.conn with
    | none =>
      have hdesk : s'.desk.errand = none := congrArg (Option.map Conn.errand) hconn
      cases hdesk.symm.trans herrand
    | some conn =>
      have hdesk : s'.desk.errand = some conn.errand := congrArg (Option.map Conn.errand) hconn
      have hpath : conn.errand = ⟨none, request.outputPath.getD []⟩ :=
        Option.some.inj (hdesk.symm.trans herrand)
      have haccepted := Begun.accepted hnone hworks
      have hput : ((s'.put { conn with onDone := request.onDone }).log
          (.accepted request.onDone)).desk = s'.desk.accept request := by
        have hsame : conn.outputPath = request.outputPath.getD [] :=
          congrArg Errand.outputPath hpath
        unfold Sys.desk Desk.accept Sys.log Sys.put
        rw [← hsame]
        rfl
      rw [← hput] at haccepted
      exact haccepted
  | unheard hworks _ _ o hs =>
    cases hconn : s'.fetch.conn with
    | none =>
      rw [hs]
      exact .failed hnone hworks o
    | some conn =>
      have hdesk : s'.desk.errand = some conn.errand := congrArg (Option.map Conn.errand) hconn
      rw [hs] at hdesk
      cases hdesk
  | told hworks he _ hid =>
    cases (hworks.errand.symm.trans he)
    cases hid

theorem fetchStart_begun (s : Sys σ) (request : Request) (nowMs : Nat) :
    Begun request nowMs s.desk (fetchStart s request nowMs).1
      (fetchStart s request nowMs).2.desk := by
  have hstarted := fetchStart_started s request nowMs
  generalize fetchStart s request nowMs = w at *
  cases hstarted with
  | refused => exact .refused _
  | begins world url _ hidle => exact fetchBegin_begun { s with world } hidle request url nowMs

def Desk.cancel (d : Desk σ) : Desk σ :=
  if d.errand.isSome then ⟨none, d.app, d.files, .cancelled :: d.trace⟩ else d

theorem fetchCancel_desk (s : Sys σ) : (fetchCancel s).desk = s.desk.cancel := by
  unfold fetchCancel
  split
  · rename_i hnone
    have herrand : s.desk.errand.isSome = false := by
      unfold Sys.desk
      rw [hnone]
      rfl
    rw [Desk.cancel, if_neg (by simp [herrand])]
  · rename_i hconn
    have herrand : s.desk.errand.isSome := by
      unfold Sys.desk
      rw [hconn]
      rfl
    rw [Desk.cancel, if_pos herrand]
    unfold fetchFree
    split <;> rfl

theorem Desk.cancel_app (d : Desk σ) : d.cancel.app = d.app := by
  unfold Desk.cancel
  split <;> rfl

theorem Desk.cancel_errand (d : Desk σ) : d.cancel.errand = none := by
  unfold Desk.cancel
  split
  · rfl
  · rename_i hnone
    simpa using hnone

theorem Desk.cancel_trace (d : Desk σ) :
    ∃ events, Unasked events ∧ d.cancel.trace = events ++ d.trace := by
  unfold Desk.cancel
  split
  · exact ⟨[.cancelled], List.forall_mem_singleton.mpr rfl, rfl⟩
  · exact ⟨[], List.forall_mem_nil _, rfl⟩

theorem fetchCancel_app (s : Sys σ) : (fetchCancel s).app = s.app :=
  (congrArg Desk.app (fetchCancel_desk s)).trans s.desk.cancel_app

end Inkwell.Fetch
