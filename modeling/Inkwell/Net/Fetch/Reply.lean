import Inkwell.Codec.Http.Message
import Inkwell.Net.Fetch.Rounds

namespace Inkwell.Fetch
open Net Http
open List hiding after

def latestRequest : List Event → Option Request
  | [] => none
  | .started request _ :: _ => some request
  | _ :: t => latestRequest t

/-- All that the library has decrypted since the last hop began. -/
def hopBytes : List Event → Bytes
  | [] => []
  | .hop _ :: _ => []
  | .read calls :: t => hopBytes t ++ (calls.map (Tls.SslRead.plaintext readChunk)).flatten
  | _ :: t => hopBytes t

/-- The output file of the last request, if it was created, and what has been written to it. -/
def fileOf : List Event → Option (Bytes × Bytes)
  | [] => none
  | .started _ _ :: _ => none
  | .created path :: _ => some (path, [])
  | .wrote bytes :: t => (fileOf t).map fun file => (file.1, file.2 ++ bytes)
  | _ :: t => fileOf t

def decoded (bytes : Bytes) : Bytes := (byteMachine.run (responseInit false) bytes).output

def Request.cap (request : Request) : Nat :=
  if request.responseMax > 0 then request.responseMax else defaultResponseMax

def Request.toFile (request : Request) : Prop :=
  request.outputPath.getD [] ≠ [] ∧ request.method = .get

def Event.quiet : Event → Bool
  | .started _ _ | .hop _ | .read _ | .created _ | .wrote _ => false
  | _ => true

theorem latestRequest_quiet (h : Event.quiet e) : latestRequest (e :: t) = latestRequest t := by
  cases e <;> first | rfl | cases h

theorem hopBytes_quiet (h : Event.quiet e) : hopBytes (e :: t) = hopBytes t := by
  cases e <;> first | rfl | cases h

theorem fileOf_quiet (h : Event.quiet e) : fileOf (e :: t) = fileOf t := by
  cases e <;> first | rfl | cases h

def Flight.Wanted (f : Flight) : Prop := f.headSeen ∧ responseHeadDone f.response ∧ f.accepts

/-- The body that was decoded is all in memory or all in the file, once the head is in. -/
inductive Kept (f : Flight) (t : List Event) : Bytes → Prop
  | unseen (hseen : f.headSeen = false) (hdone : responseHeadDone f.response = false)
      (hfile : f.file = false) (hbody : f.body = []) : Kept f t []
  | captured (hwanted : f.Wanted) (hto : ¬ f.toFile) (hfile : f.file = false)
      (hcap : f.body.length ≤ f.responseMax) : Kept f t f.body
  | written (hwanted : f.Wanted) (hto : f.toFile) (hfile : f.file) (hbody : f.body = [])
      (hof : fileOf t = some (f.outputPath, bytes)) (hlen : f.written = bytes.length)
      (hcap : f.outputMax > 0 → bytes.length ≤ f.outputMax) : Kept f t bytes

structure Underway (f : Flight) (input : Bytes) (t : List Event) : Prop where
  carries : ∃ request, latestRequest t = some request ∧ f.Carries request
  early : f.phase ≠ .receiving → hopBytes t = []
  fed : ∃ fed body, hopBytes t = fed ++ input ∧
    byteMachine.run (responseInit (f.method = .head)) fed = ⟨f.response, body, fed.length⟩ ∧
      Kept f t body

theorem Kept.along (h : Kept f t body)
    (hsame : g = { f with phase := g.phase, uploadSent := g.uploadSent, onDone := g.onDone })
    (hfiles : fileOf t' = fileOf t) : Kept g t' body := by
  rw [hsame]
  cases h with
  | unseen hseen hdone hfile hbody => exact .unseen hseen hdone hfile hbody
  | captured hwanted hto hfile hcap => exact .captured hwanted hto hfile hcap
  | written hwanted hto hfile hbody hof hlen hcap =>
    exact .written hwanted hto hfile hbody (hfiles.trans hof) hlen hcap

theorem Underway.quiet (h : Underway f input t) (he : Event.quiet e) :
    Underway f input (e :: t) := by
  obtain ⟨request, hrequest, hcarries⟩ := h.carries
  obtain ⟨fed, body, hfed, hrun, hkept⟩ := h.fed
  refine ⟨⟨request, (latestRequest_quiet he).trans hrequest, hcarries⟩, ?_, fed, body, ?_, hrun,
    hkept.along rfl (fileOf_quiet he)⟩
  · rw [hopBytes_quiet he]
    exact h.early
  · rw [hopBytes_quiet he]
    exact hfed

theorem Flight.Carries.congr (h : Flight.Carries f request)
    (hsame : (g.method, g.ranged, g.outputPath, g.responseMax, g.outputMax) =
      (f.method, f.ranged, f.outputPath, f.responseMax, f.outputMax)) :
    Flight.Carries g request := by
  simp only [Prod.mk.injEq] at hsame
  obtain ⟨hmethod, hranged, hpath, hresponse, houtput⟩ := hsame
  exact ⟨hmethod.trans h.method, hranged.trans h.ranged, hpath.trans h.outputPath,
    hresponse.trans h.responseMax, houtput.trans h.outputMax⟩

theorem Flight.Carries.along (h : Flight.Carries f request)
    (hsame : g = { f with phase := g.phase, uploadSent := g.uploadSent, onDone := g.onDone }) :
    Flight.Carries g request := by
  rw [hsame]
  exact h.congr rfl

theorem Flight.Carries.fed (h : Flight.Carries f request) (input : Bytes) :
    (f.fed input).Carries request := h.congr rfl

theorem Underway.along (h : Underway f input t)
    (hsame : g = { f with phase := g.phase, uploadSent := g.uploadSent, onDone := g.onDone })
    (hearly : g.phase ≠ .receiving → f.phase ≠ .receiving) : Underway g input t := by
  obtain ⟨request, hrequest, hcarries⟩ := h.carries
  obtain ⟨fed, body, hfed, hrun, hkept⟩ := h.fed
  have hmethod : g.method = f.method := by rw [hsame]
  have hresponse : g.response = f.response := by rw [hsame]
  refine ⟨⟨request, hrequest, hcarries.along hsame⟩, fun hp => h.early (hearly hp), fed, body, hfed,
    ?_, hkept.along hsame rfl⟩
  rw [hmethod, hresponse]
  exact hrun

theorem Underway.fresh (hrequest : latestRequest t = some request)
    (hcarries : Flight.Carries f request) (hnone : hopBytes t = [])
    (hresponse : f.response = responseInit (f.method = .head)) (hseen : f.headSeen = false)
    (hfile : f.file = false) (hbody : f.body = []) : Underway f [] t := by
  refine ⟨⟨request, hrequest, hcarries⟩, fun _ => hnone, [], [], hnone, ?_, ?_⟩
  · rw [hresponse]
    rfl
  · refine .unseen hseen ?_ hfile hbody
    rw [hresponse]
    rfl

theorem Underway.unread (h : Underway f input t) (hnone : hopBytes t = []) :
    input = [] ∧ f.file = false ∧ f.body = [] := by
  obtain ⟨fed, _, hfed, hrun, hkept⟩ := h.fed
  rw [hnone] at hfed
  obtain ⟨hfed, hinput⟩ := append_eq_nil_iff.mp hfed.symm
  subst hfed
  have hresponse : responseInit (f.method = .head) = f.response :=
    congrArg Library.Outcome.state hrun
  cases hkept with
  | unseen _ _ hfile hbody => exact ⟨hinput, hfile, hbody⟩
  | captured hwanted | written hwanted =>
    have hdone := hwanted.2.1
    rw [← hresponse] at hdone
    cases hdone

theorem Underway.feed (h : Underway f input t) (hg : Going f.response) :
    ∃ fed body, hopBytes t = fed ++ input.drop (responseFeed f.response input).used ∧
      byteMachine.run (responseInit (f.method = .head)) fed =
        ⟨(f.fed input).response, body ++ f.slice input, fed.length⟩ ∧ Kept f t body := by
  obtain ⟨fed, body, hfed, hrun, hkept⟩ := h.fed
  have hcall := feedOutcome_run f.response input hg.counted
  have hused : (responseFeed f.response input).used =
      (input.take (responseFeed f.response input).used).length := by
    have hle := Library.Machine.run_used_le byteMachine f.response
      (input.take (responseFeed f.response input).used)
    rw [← hcall] at hle
    exact le_antisymm hle (length_take_le _ _)
  refine ⟨fed ++ input.take (responseFeed f.response input).used, body, ?_, ?_, hkept⟩
  · rw [append_assoc, take_append_drop]
    exact hfed
  · rw [Library.Machine.run_append, hrun, Library.Outcome.andThen, ← hcall, length_append, ← hused]
    rfl

theorem reading_head (hrun : byteMachine.run (responseInit headRequest) fed = ⟨r, body, fed.length⟩)
    (hok : responseFailed r = false) :
    r.phase = .head ∧ r.status = 0 ∧ body = [] ∨ 200 ≤ r.status ∧ r.phase ≠ .head := by
  have hreading := run_reading headRequest fed hrun
  generalize fed.take fed.length = bytes at hreading
  cases hreading with
  | head hp _ hstatus => exact .inl ⟨hp, hstatus, rfl⟩
  | body hs hb =>
    rcases hb with hp | hb
    · rw [responseFailed, hp] at hok
      cases hok
    · exact .inr ⟨hs.final, hb.phase_ne⟩
  | refused hp =>
    rw [responseFailed, hp] at hok
    cases hok

theorem Going.not_failed (h : Going r) : responseFailed r = false := by
  have hover := h.unfinished
  rw [responseOver, Bool.or_eq_false_iff] at hover
  exact hover.2

theorem Underway.status (h : Underway f input t) (hg : Going f.response)
    (hdone : responseHeadDone f.response) : (f.fed input).response.status = f.response.status := by
  obtain ⟨fed, _, _, hrun, _⟩ := h.fed
  rcases reading_head hrun hg.not_failed with ⟨_, hstatus, _⟩ | ⟨_, hp⟩
  · rw [responseHeadDone, hstatus] at hdone
    cases hdone
  · have hcall := congrArg Library.Outcome.state (feedOutcome_run f.response input hg.counted)
    have hbehind := run_behind hg.counted hp (input.take (responseFeed f.response input).used)
    rw [← hcall] at hbehind
    exact hbehind.status

theorem Flight.Wanted.fed {f : Flight} (h : f.Wanted)
    (hstatus : (f.fed input).response.status = f.response.status) : (f.fed input).Wanted := by
  obtain ⟨hseen, hdone, haccepts⟩ := h
  refine ⟨hseen, ?_, ?_⟩
  · rw [responseHeadDone, hstatus]
    exact hdone
  · rw [Flight.accepts, hstatus]
    exact haccepts

theorem Kept.decided (h : Kept f t body) (hd : Decided (f.fed input) t f₁ t₁)
    (hstatus : responseHeadDone f.response → (f.fed input).response.status = f.response.status) :
    Kept f₁ t₁ body := by
  cases h with
  | unseen hseen _ hfile hbody =>
    cases hd with
    | before hold =>
      rcases hold with hold | hold
      · cases hold.symm.trans hseen
      · exact .unseen hseen hold hfile hbody
    | captures _ hdone' haccepts hto =>
      have hroom : f.body.length ≤ f.responseMax := by
        rw [hbody]
        exact Nat.zero_le _
      have hkept : Kept { f.fed input with headSeen := true }
          (.replied (f.fed input).response.status :: t) f.body :=
        .captured ⟨rfl, hdone', haccepts⟩ hto hfile hroom
      rw [hbody] at hkept
      exact hkept
    | creates _ hdone' haccepts hto =>
      exact .written ⟨rfl, hdone', haccepts⟩ hto rfl hbody rfl rfl fun _ => Nat.zero_le _
  | captured hwanted hto hfile hcap =>
    cases hd with
    | before =>
      have hkept : Kept (f.fed input) t (f.fed input).body :=
        .captured (hwanted.fed (hstatus hwanted.2.1)) hto hfile hcap
      exact hkept
    | captures hseen'
    | creates hseen' => cases hwanted.1.symm.trans hseen'
  | written hwanted hto hfile hbody hof hlen hcap =>
    cases hd with
    | before => exact .written (hwanted.fed (hstatus hwanted.2.1)) hto hfile hbody hof hlen hcap
    | captures hseen'
    | creates hseen' => cases hwanted.1.symm.trans hseen'

theorem Kept.sunk (h : Kept f t body) (hs : Sunk f t bytes f' t')
    (hbefore : f.headSeen = false → bytes = []) : Kept f' t' (body ++ bytes) := by
  cases h with
  | unseen hseen hdone hfile hbody =>
    have hnone := hbefore hseen
    subst hnone
    cases hs with
    | nothing => exact .unseen hseen hdone hfile hbody
    | captured =>
      refine .unseen hseen hdone hfile ?_
      rw [hbody]
      rfl
    | written hfile' => cases hfile.symm.trans hfile'
  | captured hwanted hto hfile hcap =>
    cases hs with
    | nothing hnone =>
      rw [hnone, append_nil]
      exact .captured hwanted hto hfile hcap
    | captured _ hroom =>
      rw [← length_append] at hroom
      have hkept : Kept { f with body := f.body ++ bytes } t (f.body ++ bytes) :=
        .captured hwanted hto hfile hroom
      exact hkept
    | written hfile' => cases hfile.symm.trans hfile'
  | written hwanted hto hfile hbody hof hlen hcap =>
    cases hs with
    | nothing hnone =>
      rw [hnone, append_nil]
      exact .written hwanted hto hfile hbody hof hlen hcap
    | captured hfile' => cases hfile.symm.trans hfile'
    | written =>
      have hcap' : f.outputMax > 0 → (body ++ bytes).length ≤ f.outputMax := by
        rw [length_append]
        omega
      refine .written hwanted hto hfile hbody ?_ ?_ hcap'
      · rw [fileOf, hof]
        rfl
      · rw [length_append, ← hlen]

theorem Decided.past (h : Decided f t f' t') :
    hopBytes t' = hopBytes t ∧ latestRequest t' = latestRequest t := by
  cases h <;> exact ⟨rfl, rfl⟩

theorem Sunk.past (h : Sunk f t bytes f' t') :
    hopBytes t' = hopBytes t ∧ latestRequest t' = latestRequest t := by
  cases h <;> exact ⟨rfl, rfl⟩

theorem Decided.carries (h : Decided f t f' t') (hc : Flight.Carries f request) :
    Flight.Carries f' request := by
  cases h <;> exact hc.congr rfl

theorem Sunk.carries (h : Sunk f t bytes f' t') (hc : Flight.Carries f request) :
    Flight.Carries f' request := by
  cases h <;> exact hc.congr rfl

theorem Underway.decide (h : Underway f input t) (hg : Going f.response)
    (hok : responseFailed (f.fed input).response = false) (hd : Decided (f.fed input) t f₁ t₁) :
    ∃ fed body, hopBytes t₁ = fed ++ input.drop (responseFeed f.response input).used ∧
      byteMachine.run (responseInit (f.method = .head)) fed =
        ⟨f₁.response, body ++ f.slice input, fed.length⟩ ∧
      Kept f₁ t₁ body ∧ (f₁.headSeen = false → f.slice input = []) := by
  obtain ⟨fed, body, hfed, hrun, hkept⟩ := h.feed hg
  have hkept₁ := hkept.decided hd fun hdone => h.status hg hdone
  rw [← hd.same.1] at hrun hok
  refine ⟨fed, body, hd.past.1.trans hfed, hrun, hkept₁, ?_⟩
  intro hseen
  rcases reading_head hrun hok with ⟨_, _, hnone⟩ | ⟨_, _⟩
  · exact (append_eq_nil_iff.mp hnone).2
  · cases hkept₁ with
    | unseen _ hdone =>
      rw [responseHeadDone, bne_eq_false_iff_eq] at hdone
      omega
    | captured hwanted
    | written hwanted => cases hseen.symm.trans hwanted.1

theorem Underway.turn (h : Underway f input t) (hg : Going f.response)
    (hok : responseFailed (f.fed input).response = false) (hd : Decided (f.fed input) t f₁ t₁)
    (hs : Sunk f₁ t₁ (f.slice input) f₂ t₂) :
    Underway f₂ (input.drop (responseFeed f.response input).used) t₂ := by
  obtain ⟨request, hrequest, hcarries⟩ := h.carries
  obtain ⟨fed, body, hfed, hrun, hkept, hbefore⟩ := h.decide hg hok hd
  have hcarries₂ := hs.carries (hd.carries (hcarries.fed input))
  have hmethod : f₂.method = f.method := hcarries₂.method.trans hcarries.method.symm
  have hphase : f₂.phase = f.phase := hs.same.2.trans hd.same.2
  refine ⟨⟨request, ?_, hcarries₂⟩, ?_, fed, body ++ f.slice input, ?_, ?_, hkept.sunk hs hbefore⟩
  · rw [hs.past.2, hd.past.2]
    exact hrequest
  · rw [hs.past.1, hd.past.1, hphase]
    exact h.early
  · rw [hs.past.1]
    exact hfed
  · rw [hmethod, hs.same.1]
    exact hrun

def CapKept (t : List Event) : Prop :=
  ∀ request path bytes, latestRequest t = some request → request.outputMax > 0 →
    fileOf t = some (path, bytes) → bytes.length ≤ request.outputMax

def Closed (t : List Event) : Prop := ∃ calls before, t = .read calls :: before ∧ Tls.Finished calls

/-- The reply of the last hop is whole, with its body where the request wanted it; `closed` says
how a connection has to end that ends a body. -/
structure Whole (closed : List Event → Prop) (request : Request) (t : List Event)
    (result : Result) :
    Prop where
  status : 200 ≤ result.status ∧ result.status ≤ 299
  range : request.ranged → result.status = 206
  reply : ∃ reply after framing, hopBytes t = reply ++ after ∧
    Http.Message false reply result.status framing (decoded (hopBytes t)) ∧
    (framing = .untilClose → after = [] ∧ closed t)
  memory : ¬ request.toFile → result.body = decoded (hopBytes t)
  file : request.toFile →
    result.body = [] ∧ fileOf t = some (request.outputPath.getD [], decoded (hopBytes t))
  cap : result.body.length ≤ request.cap

def Passed (request : Request) (t : List Event) : Prop :=
  (request.toFile → 0 < request.outputMax ∧ request.outputMax < (decoded (hopBytes t)).length) ∧
    (¬ request.toFile → request.cap < (decoded (hopBytes t)).length ∨
      ∃ before, t = .outOfMemory :: before)

def Told (t : List Event) (result : Result) : Prop :=
  ∀ request, latestRequest t = some request → request.method ≠ .head →
    (result.outcome = .ok → Whole Closed request t result) ∧
      (result.outcome = .tooLarge → Passed request t)

structure Good (t : List Event) : Prop where
  cap : CapKept t
  told : ∀ id result o before, t = .done id result :: .completed o :: before → Told before result

/-- All was well at every moment. -/
def Clean (t : List Event) : Prop := ∀ before, before <:+ t → Good before

theorem Clean.nil : Clean [] := by
  intro before h
  rw [suffix_nil.mp h]
  refine ⟨?_, ?_⟩
  · intro _ _ _ hrequest
    cases hrequest
  · intro _ _ o _ heq
    cases heq

theorem Clean.cons (h : Clean t) (hg : Good (e :: t)) : Clean (e :: t) := by
  intro before hbefore
  rcases suffix_cons_iff.mp hbefore with heq | hold
  · rw [heq]
    exact hg
  · exact h before hold

def Event.light : Event → Bool
  | .started _ _ | .created _ | .wrote _ | .done _ _ => false
  | _ => true

theorem Clean.light (h : Clean t) (he : Event.light e) : Clean (e :: t) := by
  have hcap := (h t suffix_rfl).cap
  refine h.cons ⟨?_, ?_⟩
  · cases e <;> first | exact hcap | cases he
  · intro _ _ o _ heq
    cases heq
    cases he

theorem Clean.ended (h : Clean t) (ht : Told t result) (f : Flight) (o : Outcome) :
    Clean (Core.ended t f o result).trace := by
  have hcompleted : Clean (.completed o :: t) := h.light rfl
  unfold Core.ended
  cases f.onDone with
  | none => exact hcompleted
  | some =>
    refine hcompleted.cons ⟨(hcompleted _ suffix_rfl).cap, ?_⟩
    intro _ _ _ _ heq
    cases heq
    exact ht

theorem Clean.decided (h : Clean t) (hd : Decided f t f' t') : Clean t' := by
  cases hd with
  | before => exact h
  | captures => exact h.light rfl
  | creates =>
    have hreplied := h.light (e := .replied f.response.status) rfl
    refine hreplied.cons ⟨?_, ?_⟩
    · intro _ _ _ _ _ hfile
      cases hfile
      exact Nat.zero_le _
    · intro _ _ o _ heq
      cases heq

theorem Clean.wrote (h : Clean t) (hkept : Kept f t body) (hfile : f.file)
    (hrequest : latestRequest t = some request) (hcarries : f.Carries request)
    (hroom : f.outputMax > 0 → chunk.length ≤ f.outputMax - f.written) :
    Clean (.wrote chunk :: t) := by
  refine h.cons ⟨?_, ?_⟩
  · intro _ _ _ hrequest' hmax hof
    cases hrequest.symm.trans hrequest'
    rw [← hcarries.outputMax] at hmax ⊢
    cases hkept with
    | unseen _ _ hfile'
    | captured _ _ hfile' => cases hfile.symm.trans hfile'
    | written _ _ _ _ hof' =>
      rw [fileOf, hof'] at hof
      cases hof
      show (body ++ chunk).length ≤ f.outputMax
      rw [length_append]
      omega
  · intro _ _ o _ heq
    cases heq

theorem Clean.sunk (h : Clean t) (hkept : Kept f t body) (hrequest : latestRequest t = some request)
    (hcarries : f.Carries request) (hs : Sunk f t bytes f' t') : Clean t' := by
  cases hs with
  | nothing | captured => exact h
  | written hfile hroom => exact h.wrote hkept hfile hrequest hcarries hroom

theorem decoded_append : decoded reply <+: decoded (reply ++ after) := by
  unfold decoded
  rw [Library.Machine.run_append]
  exact prefix_append _ _

theorem Flight.Carries.toFile_iff (h : Flight.Carries f request) : f.toFile ↔ request.toFile := by
  rw [Flight.toFile, Request.toFile, h.outputPath, h.method]

theorem Spilled.told (hs : Spilled f t bytes o t') (hkept : Kept f t body)
    (hrequest : latestRequest t = some request) (hcarries : f.Carries request)
    (hfed : hopBytes t = fed ++ after)
    (hrun : byteMachine.run (responseInit (f.method = .head)) fed =
      ⟨f.response, body ++ bytes, fed.length⟩)
    (hseen : f.headSeen) (hr : Result.Of result f o) : Told t' result := by
  have hlatest : latestRequest t' = latestRequest t := by cases hs <;> rfl
  intro _ hrequest' hmethod
  cases (hlatest.trans hrequest).symm.trans hrequest'
  have hbody : (f.method = .head : Bool) = false := by
    rw [hcarries.method]
    exact decide_eq_false hmethod
  rw [hbody] at hrun
  have hmore : body.length + bytes.length ≤ (decoded (hopBytes t)).length := by
    have hdecoded : decoded fed = body ++ bytes := congrArg Library.Outcome.output hrun
    rw [← length_append, ← hdecoded, hfed]
    exact decoded_append.length_le
  have hfile := hcarries.toFile_iff
  refine ⟨?_, ?_⟩
  · intro hok
    cases hs <;> cases hr.outcome.symm.trans hok
  · intro hlarge
    cases hkept with
    | unseen hseen' => cases hseen.symm.trans hseen'
    | captured _ hto hmemory =>
      refine ⟨fun h => absurd (hfile.mpr h) hto, fun _ => ?_⟩
      cases hs with
      | passed _ hcap =>
        rw [hcarries.responseMax] at hcap
        exact .inl (lt_of_lt_of_le hcap hmore)
      | noMemory => exact .inr ⟨t, rfl⟩
      | filePassed hopen => cases hopen.symm.trans hmemory
      | failed => cases hr.outcome.symm.trans hlarge
    | written _ hto hopen _ _ _ hroom =>
      refine ⟨fun _ => ?_, fun h => absurd (hfile.mp hto) h⟩
      cases hs with
      | passed hmemory | noMemory hmemory => cases hopen.symm.trans hmemory
      | filePassed _ hmax hcap =>
        have hle := hroom hmax
        rw [hcarries.outputMax] at hmax hcap hle
        exact ⟨hmax, by omega⟩
      | failed => cases hr.outcome.symm.trans hlarge

theorem Kept.whole (hkept : Kept f t body) (hcarries : f.Carries request)
    (hfed : hopBytes t = reply ++ after)
    (hrun : byteMachine.run (responseInit false) reply = ⟨r, body, reply.length⟩)
    (hend : r.phase = .done ∨
      r.phase = .untilClose ∧ after = [] ∧ (r.framing = .untilClose → Closed t))
    (hstatus : r.status = f.response.status) (hr : Result.Of result f .ok) :
    Whole Closed request t result := by
  have hmessage := run_message hrun (hend.imp_right And.left)
  rw [take_length] at hmessage
  have hdecoded : decoded (hopBytes t) = body := by
    unfold decoded
    rw [hfed, Library.Machine.run_append, hrun]
    rcases hend with hdone | ⟨_, hnone, _⟩
    · have hhalt : byteMachine.halted r := by
        show responseOver r = true
        rw [responseOver, responseDone, hdone]
        rfl
      simp only [Library.Outcome.andThen]
      rw [Library.Machine.run_halted _ hhalt]
      exact append_nil body
    · rw [hnone]
      exact append_nil body
  have hhead (hwanted : f.Wanted) : (200 ≤ result.status ∧ result.status ≤ 299) ∧
      (request.ranged → result.status = 206) ∧ ∃ reply after framing,
        hopBytes t = reply ++ after ∧
        Http.Message false reply result.status framing (decoded (hopBytes t)) ∧
        (framing = .untilClose → after = [] ∧ Closed t) := by
    obtain ⟨_, hdone, hleast, hmost, hranged⟩ := hwanted
    rw [hr.status, if_pos hdone, ← hcarries.ranged]
    refine ⟨⟨hleast, hmost⟩, hranged, reply, after, r.framing, hfed, ?_, ?_⟩
    · rw [hdecoded, ← hstatus]
      exact hmessage.1
    · intro hclose
      have hphase := hmessage.2.mp hclose
      rcases hend with hdone | ⟨_, hnone, hclosed⟩
      · cases hdone.symm.trans hphase
      · exact ⟨hnone, hclosed hclose⟩
  have hfile := hcarries.toFile_iff
  have hbody : result.body = f.body := by rw [hr.body, if_neg (not_not.mpr rfl)]
  cases hkept with
  | unseen _ hdone =>
    have hfinal := hmessage.1.final
    rw [responseHeadDone, ← hstatus, bne_eq_false_iff_eq] at hdone
    omega
  | captured hwanted hto _ hcap =>
    obtain ⟨hcode, hrange, hreply⟩ := hhead hwanted
    refine ⟨hcode, hrange, hreply, ?_, fun h => absurd (hfile.mpr h) hto, ?_⟩
    · rw [hdecoded]
      exact fun _ => hbody
    · rw [hbody]
      rw [hcarries.responseMax] at hcap
      exact hcap
  | written hwanted hto _ hnone hof =>
    obtain ⟨hcode, hrange, hreply⟩ := hhead hwanted
    refine ⟨hcode, hrange, hreply, fun h => absurd (hfile.mp hto) h, ?_, ?_⟩
    · rw [hdecoded, ← hcarries.outputPath]
      exact fun _ => ⟨hbody.trans hnone, hof⟩
    · rw [hbody, hnone]
      exact Nat.zero_le _

structure Sound (c : Core) : Prop where
  ready : Ready c
  underway : ∀ f, c.flight = some f → Underway f c.input c.trace
  clean : Clean c.trace

theorem Sound.held (hr : Ready c') (hc : c'.flight = some f) (hu : Underway f c'.input c'.trace)
    (hclean : Clean c'.trace) : Sound c' := by
  refine ⟨hr, ?_, hclean⟩
  intro _ hf'
  cases hc.symm.trans hf'
  exact hu

theorem Sound.idle (hr : Ready c') (hc : c'.flight = none) (hclean : Clean c'.trace) :
    Sound c' := by
  refine ⟨hr, ?_, hclean⟩
  intro f hf
  cases hc.symm.trans hf

theorem Sound.ended (hclean : Clean t) (ht : Told t result) (f : Flight) (o : Outcome) :
    Sound (.ended t f o result) :=
  .idle (.idle rfl) rfl (hclean.ended ht f o)

theorem Sound.quiet (h : Sound c) (he : Event.quiet e) (hl : Event.light e) : Sound (c.log e) := by
  refine ⟨h.ready, ?_, h.clean.light hl⟩
  intro f hf
  exact (h.underway f hf).quiet he

end Inkwell.Fetch
