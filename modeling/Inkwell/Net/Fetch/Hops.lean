import Inkwell.Library.History
import Inkwell.Net.Fetch.Rounds

namespace Inkwell.Fetch
open Net Http Library

def hops : List Event → Nat
  | [] => 0
  | .started _ _ :: _ => 0
  | .hop _ :: t => hops t + 1
  | _ :: t => hops t

def hopUrl : List Event → Option Url
  | [] => none
  | .hop url :: _ => some url
  | _ :: t => hopUrl t

/-- The name that the TLS session of the last connection is to be verified for, once it has one. -/
def securing : List Event → Option Bytes
  | [] => none
  | .tlsStarted host :: _ => some host
  | .tried _ :: _ | .hop _ :: _ => none
  | _ :: t => securing t

/-- The name that it has been verified for, once its handshake is done. -/
def secured : List Event → Option Bytes
  | [] => none
  | .handshaked :: t => securing t
  | .tlsStarted _ :: _ | .tried _ :: _ | .hop _ :: _ => none
  | _ :: t => secured t

def shookHands : List Event → Bool
  | [] => false
  | .handshaked :: _ => true
  | .hop _ :: _ => false
  | _ :: t => shookHands t

def bodySent : List Event → Bool
  | [] => false
  | .started _ _ :: _ => false
  | .sentUpload bytes :: t => bytes ≠ [] || bodySent t
  | _ :: t => bodySent t

def pointedAway : List Event → Bool
  | [] => false
  | .started _ _ :: _ => false
  | .replied status :: t => 300 ≤ status && status ≤ 399 || pointedAway t
  | _ :: t => pointedAway t

def Event.aside : Event → Bool
  | .accepted _ | .read _ | .created _ | .wrote _ | .outOfMemory | .completed _ | .done _ _
  | .cancelled | .ticked _ => true
  | _ => false

def Event.leaves : Event → Prop
  | .hop url => url.tls
  | .completed o => o ≠ .ok
  | _ => False

def Answered : List Event → Prop
  | .replied status :: _ => redirects status = false
  | _ => True

def Verified (t : List Event) : Prop := ∃ url, hopUrl t = some url ∧ secured t = some url.host

def Proper (e : Event) (t : List Event) : Prop :=
  (Answered t ∨ e.leaves) ∧
  match e with
  | .hop url => url.tls ∧ hops t ≤ redirectsMax
  | .tried _ => shookHands t = false ∧ bodySent t = false
  | .sentRequest _ => Verified t
  | .sentUpload bytes => Verified t ∧ (bytes ≠ [] → pointedAway t = false)
  | _ => True

structure OnHop (f : Flight) (input : Bytes) (t : List Event) : Prop where
  count : hops t = f.redirects + 1
  bound : f.redirects ≤ redirectsMax
  url : hopUrl t = some f.url
  https : f.url.tls
  once : f.method = .post → f.redirects = 0
  upload : f.method ≠ .post → f.upload = []
  bodiless : f.method ≠ .post → bodySent t = false
  unshaken : f.phase.dialling → shookHands t = false
  unsent : f.phase.dialling ∨ f.phase = .handshake → bodySent t = false
  straight : f.method = .post → f.phase ≠ .receiving → pointedAway t = false
  securing : f.phase = .handshake → securing t = some f.url.host
  secured : f.phase = .sending ∨ f.phase = .receiving → secured t = some f.url.host
  hearing : input ≠ [] → f.phase = .receiving

theorem OnHop.verified (h : OnHop f input t) (hp : f.phase = .sending) : Verified t :=
  ⟨f.url, h.url, h.secured (.inl hp)⟩

theorem OnHop.aside (h : OnHop f input t) (he : Event.aside e) : OnHop f input (e :: t) := by
  cases e <;> first
    | exact ⟨h.count, h.bound, h.url, h.https, h.once, h.upload, h.bodiless, h.unshaken, h.unsent,
        h.straight, h.securing, h.secured, h.hearing⟩
    | cases he

theorem OnHop.along (h : OnHop f input t) (hterms : f'.terms = f.terms)
    (hphase : f'.phase = f.phase) (hurl : f'.url = f.url)
    (hredirects : f'.redirects = f.redirects) : OnHop f' input t := by
  have hmethod : f'.method = f.method := congrArg Terms.method hterms
  have hupload : f'.upload = f.upload := congrArg Terms.upload hterms
  refine ⟨?_, ?_, ?_, ?_, ?_, ?_, ?_, ?_, ?_, ?_, ?_, ?_, ?_⟩ <;>
    simp only [hmethod, hupload, hphase, hurl, hredirects]
  · exact h.count
  · exact h.bound
  · exact h.url
  · exact h.https
  · exact h.once
  · exact h.upload
  · exact h.bodiless
  · exact h.unshaken
  · exact h.unsent
  · exact h.straight
  · exact h.securing
  · exact h.secured
  · exact h.hearing

theorem OnHop.drained (h : OnHop f input t) (hp : f.phase = .receiving) : OnHop f input' t :=
  { h with hearing := fun _ => hp }

theorem OnHop.replied (h : OnHop f input t) (hp : f.phase = .receiving) :
    OnHop f input (.replied status :: t) :=
  { h with straight := fun _ hne => absurd hp hne }

theorem redirects_success (hlow : 200 ≤ status) (hhigh : status ≤ 299) :
    redirects status = false := by
  simp only [redirects, Bool.or_eq_false_iff, beq_eq_false_iff_ne]
  omega

structure Hopping (c : Core) : Prop where
  onHop : ∀ f, c.flight = some f → OnHop f c.input c.trace
  orderly : Always Proper c.trace
  answered : Answered c.trace

theorem Hopping.held (hf : c.flight = some f) (h : OnHop f c.input c.trace)
    (ho : Always Proper c.trace) (ha : Answered c.trace) : Hopping c := by
  refine ⟨?_, ho, ha⟩
  intro _ hf'
  cases hf.symm.trans hf'
  exact h

theorem Hopping.idle (hf : c.flight = none) (ho : Always Proper c.trace) (ha : Answered c.trace) :
    Hopping c := by
  refine ⟨?_, ho, ha⟩
  intro f hf'
  cases hf.symm.trans hf'

theorem Proper.aside (ha : Answered t) (he : Event.aside e) : Proper e t := by
  refine ⟨.inl ha, ?_⟩
  cases e with
  | hop | tried | sentRequest | sentUpload => cases he
  | _ => trivial

theorem Proper.replied (ha : Answered t) : Proper (.replied status) t := ⟨.inl ha, trivial⟩

theorem Decided.onHop (h : Decided f t f' t') (hh : OnHop f input t) (hp : f.phase = .receiving) :
    OnHop f' input t' := by
  have hsame := hh.along h.terms h.same.2
  cases h with
  | before => exact hh
  | captures => exact (hsame rfl rfl).replied hp
  | creates => exact ((hsame rfl rfl).replied hp).aside rfl

theorem Decided.orderly (h : Decided f t f' t') (ho : Always Proper t) (ha : Answered t) :
    Always Proper t' ∧ Answered t' := by
  cases h with
  | before => exact ⟨ho, ha⟩
  | captures _ _ haccepts =>
    exact ⟨ho.cons (.replied ha), redirects_success haccepts.1 haccepts.2.1⟩
  | creates _ _ haccepts =>
    have hsuccess : Answered (.replied f.response.status :: t) :=
      redirects_success haccepts.1 haccepts.2.1
    exact ⟨(ho.cons (.replied ha)).cons (.aside hsuccess rfl), trivial⟩

theorem Sunk.onHop (h : Sunk f t bytes f' t') (hh : OnHop f input t) : OnHop f' input t' := by
  have hsame := hh.along h.terms h.same.2
  cases h with
  | nothing => exact hh
  | captured => exact hsame rfl rfl
  | written => exact (hsame rfl rfl).aside rfl

theorem Sunk.orderly (h : Sunk f t bytes f' t') (ho : Always Proper t) (ha : Answered t) :
    Always Proper t' ∧ Answered t' := by
  cases h with
  | nothing | captured => exact ⟨ho, ha⟩
  | written => exact ⟨ho.cons (.aside ha rfl), trivial⟩

theorem Spilled.orderly (h : Spilled f t bytes o t') (ho : Always Proper t) (ha : Answered t) :
    Always Proper t' ∧ Answered t' := by
  cases h with
  | passed | filePassed => exact ⟨ho, ha⟩
  | noMemory | failed => exact ⟨ho.cons (.aside ha rfl), trivial⟩

theorem Hopping.ended (ho : Always Proper t) (ha : Answered t ∨ o ≠ .ok) (f : Flight)
    (result : Result) : Hopping (.ended t f o result) := by
  have hcompleted : Always Proper (.completed o :: t) := ho.cons ⟨ha, trivial⟩
  cases hid : f.onDone with
  | none =>
    exact .idle rfl (by rw [Core.ended, hid]; exact hcompleted) (by rw [Core.ended, hid]; trivial)
  | some =>
    refine .idle rfl ?_ ?_ <;> rw [Core.ended, hid]
    · exact hcompleted.cons (.aside trivial rfl)
    · trivial

theorem LastWords.orderly (he : LastWords events) (ho : Always Proper t) (ha : Answered t) :
    Always Proper (events ++ t) := by
  cases he with
  | none => exact ho
  | replied => exact ho.cons (.replied ha)
  | outOfMemory => exact ho.cons (.aside ha rfl)

theorem Phase.dialling_early {p : Phase} (h : p.dialling) :
    p ≠ .handshake ∧ p ≠ .sending ∧ p ≠ .receiving := by
  cases p with
  | resolving | connecting => exact ⟨nofun, nofun, nofun⟩
  | _ => cases h

theorem Act.hopping (h : Act c c') (hc : Hopping c) : Hopping c' := by
  have ho := hc.orderly
  have ha := hc.answered
  cases h with
  | tried hf hp =>
    have hh := hc.onHop _ hf
    obtain ⟨hhandshake, hsending, hreceiving⟩ := Phase.dialling_early hp
    refine .held hf { hh with
      securing := fun h => absurd h hhandshake
      secured := fun h => (h.elim hsending hreceiving).elim } (ho.cons ⟨.inl ha, ?_⟩) trivial
    exact ⟨hh.unshaken hp, hh.unsent (.inl hp)⟩
  | dialled hf hp =>
    have hh := hc.onHop _ hf
    obtain ⟨_, _, hreceiving⟩ := Phase.dialling_early hp
    exact .held rfl { hh with
      unshaken := fun _ => hh.unshaken hp
      unsent := fun _ => hh.unsent (.inl hp)
      straight := fun hpost _ => hh.straight hpost hreceiving
      securing := nofun
      secured := nofun
      hearing := fun hne => absurd (hh.hearing hne) hreceiving } ho ha
  | @secured f hf hp =>
    have hh := hc.onHop _ hf
    have hdialling : f.phase.dialling := by
      rw [hp]
      rfl
    obtain ⟨_, _, hreceiving⟩ := Phase.dialling_early hdialling
    exact .held rfl { hh with
      unshaken := nofun
      unsent := fun _ => hh.unsent (.inl hdialling)
      straight := fun hpost _ => hh.straight hpost hreceiving
      securing := fun _ => rfl
      secured := nofun
      hearing := fun hne => absurd (hh.hearing hne) hreceiving }
      (ho.cons ⟨.inl ha, trivial⟩) trivial
  | @shook f hf hp =>
    have hh := hc.onHop _ hf
    have hreceiving : f.phase ≠ .receiving := by
      rw [hp]
      nofun
    exact .held rfl { hh with
      unshaken := nofun
      unsent := nofun
      straight := fun hpost _ => hh.straight hpost hreceiving
      securing := nofun
      secured := fun _ => hh.securing hp
      hearing := fun hne => absurd (hh.hearing hne) hreceiving }
      (ho.cons ⟨.inl ha, trivial⟩) trivial
  | shookInVain hf hp =>
    have hh := hc.onHop _ hf
    exact .held hf { hh with
      unshaken := by
        rw [hp]
        nofun
      secured := by
        rw [hp]
        nofun } (ho.cons ⟨.inl ha, trivial⟩) trivial
  | requested hf hp =>
    have hh := hc.onHop _ hf
    exact .held hf { hh with } (ho.cons ⟨.inl ha, hh.verified hp⟩) trivial
  | @uploaded f hf hp =>
    have hh := hc.onHop _ hf
    refine .held rfl { hh with
      bodiless := ?_
      unsent := ?_ } (ho.cons ⟨.inl ha, hh.verified hp, ?_⟩) trivial
    · intro hpost
      simp [bodySent, hh.upload hpost, hh.bodiless hpost]
    · rw [hp]
      nofun
    · intro hne
      have hpost : f.method = .post := by
        by_contra hpost
        rw [hh.upload hpost, List.drop_nil, List.take_nil] at hne
        exact hne rfl
      apply hh.straight hpost
      rw [hp]
      nofun
  | listened hf hp =>
    have hh := hc.onHop _ hf
    exact .held rfl { hh with
      unshaken := nofun
      unsent := nofun
      straight := fun _ hne => absurd rfl hne
      securing := nofun
      secured := fun _ => hh.secured (.inl hp)
      hearing := fun _ => rfl } ho ha
  | read hf hp =>
    exact .held hf (((hc.onHop _ hf).drained hp).aside rfl) (ho.cons (.aside ha rfl)) trivial
  | turned hf hi hd hs =>
    have hh := hc.onHop _ hf
    have hp := hh.hearing hi
    have hfed : OnHop (Flight.fed _ c.input) c.input c.trace := hh.along rfl rfl rfl rfl
    obtain ⟨ho₁, ha₁⟩ := hd.orderly ho ha
    obtain ⟨ho₂, ha₂⟩ := hs.orderly ho₁ ha₁
    refine .held rfl ((hs.onHop (hd.onHop hfed hp)).drained ?_) ho₂ ha₂
    rw [hs.same.2, hd.same.2]
    exact hp
  | redirected hf _ _ _ hpost _ htls hmax =>
    have hh := hc.onHop _ hf
    refine .held rfl ⟨?_, hmax, rfl, htls, fun h => absurd h hpost, hh.upload,
      hh.bodiless, fun _ => rfl, fun _ => hh.bodiless hpost, fun h => absurd h hpost, nofun, nofun,
      nofun⟩ ((ho.cons (.replied ha)).cons ⟨.inr htls, htls, ?_⟩) trivial
    · change hops c.trace + 1 = _
      rw [hh.count]
      rfl
    · change hops c.trace ≤ _
      rw [hh.count]
      exact hmax
  | spilled _ _ _ _ hd hs
  | whole _ _ hd hs =>
    obtain ⟨ho₁, ha₁⟩ := hd.orderly ho ha
    obtain ⟨ho₂, ha₂⟩ := hs.orderly ho₁ ha₁
    exact .ended ho₂ (.inl ha₂) _ _
  | brimmed _ _ hd hs _ _ he =>
    obtain ⟨ho₁, ha₁⟩ := hd.orderly ho ha
    obtain ⟨ho₂, ha₂⟩ := hs.orderly ho₁ ha₁
    exact .ended (he.orderly ho₂ ha₂) (.inr Outcome.noConfusion) _ _
  | hungUp => exact .ended ho (.inl ha) _ _
  | failed _ he o hout => exact .ended (he.orderly ho ha) (.inr hout) _ _

theorem hopping_upheld : Upheld Hopping where
  act := Act.hopping
  begin {c f request nowMs} _ hnew hc := by
    have hstarted : Always Proper (.started request nowMs :: c.trace) :=
      hc.orderly.cons ⟨.inl hc.answered, trivial⟩
    refine .held rfl ⟨?_, ?_, rfl, hnew.https, fun _ => hnew.redirects, hnew.upload, fun _ => rfl,
      fun _ => rfl, fun _ => rfl, fun _ _ => rfl, nofun, nofun, nofun⟩
      (hstarted.cons ⟨.inl trivial, hnew.https, Nat.zero_le _⟩) trivial
    · change 0 + 1 = f.redirects + 1
      rw [hnew.redirects]
    · change f.redirects ≤ redirectsMax
      rw [hnew.redirects]
      exact Nat.zero_le _
  accept {c f id} hf _ _ hc := by
    have hh := (hc.onHop _ hf).aside (e := .accepted id) rfl
    exact .held rfl { hh with } (hc.orderly.cons (.aside hc.answered rfl)) trivial
  cancel _ _ hc := .idle rfl (hc.orderly.cons (.aside hc.answered rfl)) trivial

theorem boot_hopping : Hopping (boot hasLoop world files app).core := .idle rfl .nil trivial

theorem Hopping.ticked (hc : Hopping c) : Hopping (c.log (.ticked nowMs)) := by
  refine ⟨?_, hc.orderly.cons (.aside hc.answered rfl), trivial⟩
  intro f hf
  exact (hc.onHop f hf).aside rfl

theorem run_hopping (cb : Callback σ) (hasLoop : Bool) (world : World)
    (files : Bytes → Option Bytes) (app : σ) (ops : List (Op σ)) :
    Hopping (run cb (boot hasLoop world files app) ops).core :=
  run_upholds hopping_upheld (fun _ _ h => h.ticked) cb _
    (boot_resting hasLoop world files app) boot_hopping ops

/-- The body of a request is written on one connection at most, with none tried after it, and none
of it after a 3xx. -/
theorem run_sends_body_once (cb : Callback σ) (hasLoop : Bool) (world : World)
    (files : Bytes → Option Bytes) (app : σ) (ops : List (Op σ)) :
    (∀ address t, .tried address :: t <:+ (run cb (boot hasLoop world files app) ops).trace →
      bodySent t = false ∧ shookHands t = false) ∧
    ∀ bytes t, .sentUpload bytes :: t <:+ (run cb (boot hasLoop world files app) ops).trace →
      bytes ≠ [] → pointedAway t = false := by
  have horderly := (run_hopping cb hasLoop world files app ops).orderly
  refine ⟨?_, ?_⟩
  · intro _ t ht
    exact (horderly _ _ ht).2.symm
  · intro _ t ht
    exact (horderly _ _ ht).2.2

theorem hops_le (h : Always Proper t) : hops t ≤ redirectsMax + 1 := by
  induction t with
  | nil => exact Nat.zero_le _
  | cons e t ih =>
    cases e with
    | started => exact Nat.zero_le _
    | hop => exact Nat.succ_le_succ h.head.2.2
    | _ => exact ih h.tail

theorem fetchRedirect_off_https
    (hlocation : responseHeader conn.response (ascii "location") = some location)
    (hresolve : urlResolve conn.url location = some url) (htls : url.tls = false) :
    ∃ message, fetchRedirect cb s conn = fetchFail cb s conn .protocol message := by
  unfold fetchRedirect
  rw [hlocation]
  simp only
  split
  · exact ⟨_, rfl⟩
  split
  · exact ⟨_, rfl⟩
  · rw [hresolve]
    simp only [htls, Bool.not_false, if_true]
    exact ⟨_, rfl⟩

/-- A fetch makes six hops at most, each over https and a session verified for its host. A
redirect is followed by such a hop or by a failure, and by a failure if it leaves https. -/
theorem run_hops_over_https (cb : Callback σ) (hasLoop : Bool) (world : World)
    (files : Bytes → Option Bytes) (app : σ) (ops : List (Op σ)) :
    (∀ t, t <:+ (run cb (boot hasLoop world files app) ops).trace → hops t ≤ 6) ∧
    (∀ url t, .hop url :: t <:+ (run cb (boot hasLoop world files app) ops).trace → url.tls) ∧
    (∀ bytes t, .sentRequest bytes :: t <:+ (run cb (boot hasLoop world files app) ops).trace ∨
      .sentUpload bytes :: t <:+ (run cb (boot hasLoop world files app) ops).trace → Verified t) ∧
    (∀ e status t, e :: .replied status :: t <:+ (run cb (boot hasLoop world files app) ops).trace →
      redirects status → e.leaves) ∧
    Answered (run cb (boot hasLoop world files app) ops).trace ∧
    ∀ (onDone : Nat → Result → Sys σ → Sys σ) (s : Sys σ) conn location url,
      responseHeader conn.response (ascii "location") = some location →
      urlResolve conn.url location = some url → url.tls = false →
      ∃ result idle, result.outcome = .protocol ∧
        idle.core = .ended s.trace conn.flight .protocol result ∧
        fetchRedirect onDone s conn =
          match conn.onDone with
          | none => idle
          | some id => onDone id result idle := by
  have hhopping := run_hopping cb hasLoop world files app ops
  have horderly := hhopping.orderly
  refine ⟨?_, ?_, ?_, ?_, hhopping.answered, ?_⟩
  · intro t ht
    exact hops_le (horderly.suffix ht)
  · intro _ t ht
    exact (horderly _ _ ht).2.1
  · intro _ t ht
    rcases ht with ht | ht
    · exact (horderly _ _ ht).2
    · exact (horderly _ _ ht).2.1
  · intro e _ t ht hredirects
    refine (horderly _ _ ht).1.resolve_left ?_
    intro hanswered
    cases hredirects.symm.trans hanswered
  · intro onDone s conn _ _ hlocation hresolve htls
    obtain ⟨message, heq⟩ := fetchRedirect_off_https hlocation hresolve htls
    obtain ⟨o, result, idle, ho, hof, hidle, _, _, hcomplete⟩ :=
      fetchComplete_spec onDone s { conn with detail := message } .protocol
    have hfailed : o = .protocol := ho.resolve_right fun h => Outcome.noConfusion h.1
    subst hfailed
    exact ⟨result, idle, hof.outcome, hidle, heq.trans hcomplete⟩

end Inkwell.Fetch
