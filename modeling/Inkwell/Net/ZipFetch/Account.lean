import Inkwell.Net.ZipFetch.Course

namespace Inkwell.ZipFetch
open Net Http Zip Fetch Library
open List hiding after zip

def Deed.starts : Deed → Bool
  | .started _ => true
  | _ => false

def Deed.ends : Deed → Bool
  | .ended .. => true
  | _ => false

/-- The completion of the download that has neither ended nor been cancelled, if there is one. -/
def current : List Deed → Option (Option Nat)
  | .started onDone :: _ => some onDone
  | _ => none

/-- What was so when a download was started and when it ended. -/
def Rightful (deed : Deed) (t : List Deed) : Prop :=
  match deed with
  | .started _ => current t = none
  | .ended told _ _ _ => current t = some told
  | .cancelled _ _ => True

/-- Nothing yet; it ended, with its completion called once; or it was cancelled, and it is never
called. -/
inductive Fate (onDone : Option Nat) (after : List Deed) : Prop
  | unsettled (h : after = [])
  | ended (h : lifetime Deed.starts after = .ended onDone zip said files :: later)
      (honce : ∀ deed ∈ later, deed.ends = false)
  | cancelled (h : lifetime Deed.starts after = .cancelled zip files :: later)
      (hnever : ∀ deed ∈ later, deed.ends = false)

theorem Fate.cons_cancelled (h : Fate onDone after)
    (hopen : ∀ deed ∈ after, Deed.starts deed = false) :
    Fate onDone (.cancelled zip files :: after) := by
  have hlife := lifetime_open (e := .cancelled zip files) hopen
  have hmore : ∀ {later : List Deed}, (∀ deed ∈ later, deed.ends = false) →
      ∀ deed ∈ later ++ [.cancelled zip files], deed.ends = false := by
    intro _ hlater
    exact forall_mem_append.mpr ⟨hlater, forall_mem_singleton.mpr rfl⟩
  cases h with
  | unsettled h =>
    subst h
    exact .cancelled hlife (forall_mem_nil _)
  | ended h honce =>
    rw [h] at hlife
    exact .ended hlife (hmore honce)
  | cancelled h hnever =>
    rw [h] at hlife
    exact .cancelled hlife (hmore hnever)

theorem Fate.of_eq (h : Fate onDone after) (hne : after ≠ [])
    (heq : lifetime Deed.starts after' = lifetime Deed.starts after) : Fate onDone after' := by
  cases h with
  | unsettled h => exact absurd h hne
  | ended h honce => exact .ended (heq.trans h) honce
  | cancelled h hnever => exact .cancelled (heq.trans h) hnever

theorem Always.fate (h : Always Rightful (after ++ .started onDone :: before)) :
    Fate onDone after ∧ (after ≠ [] → (∀ deed ∈ after, Deed.starts deed = false) →
      current (after ++ .started onDone :: before) = none) := by
  induction after with
  | nil => exact ⟨.unsettled rfl, fun hne => absurd rfl hne⟩
  | cons deed after ih =>
    obtain ⟨hfate, hcurrent⟩ := ih h.tail
    have hrightful : Rightful deed (after ++ .started onDone :: before) := h.head
    by_cases hopen : ∀ deed ∈ after, Deed.starts deed = false
    · cases deed with
      | started =>
        by_cases hne : after = []
        · subst hne
          cases hrightful
        · refine ⟨hfate.of_eq hne ?_, fun _ hall => ?_⟩
          · rw [lifetime_open hopen]
            exact append_nil _
          · cases hall _ mem_cons_self
      | ended =>
        by_cases hne : after = []
        · subst hne
          cases hrightful
          exact ⟨.ended rfl (forall_mem_nil _), fun _ _ => rfl⟩
        · cases (hcurrent hne hopen).symm.trans hrightful
      | cancelled => exact ⟨hfate.cons_cancelled hopen, fun _ _ => rfl⟩
    · have hne : after ≠ [] := by
        rintro rfl
        exact hopen (forall_mem_nil _)
      refine ⟨hfate.of_eq hne (lifetime_closed hopen), fun _ hall => ?_⟩
      exact absurd (fun deed hmem => hall deed (mem_cons_of_mem _ hmem)) hopen

def stopped : List Event → Bool
  | [] => false
  | .cancelled :: t => owed t == some zipCallback || stopped t
  | .started request _ :: t => request.onDone != some zipCallback && stopped t
  | _ :: t => stopped t

theorem stopped_mute (he : Event.mute e) : stopped (e :: t) = stopped t := by
  cases e <;> first | rfl | cases he

theorem Mutely.stopped (h : Mutely t t') : stopped t' = stopped t :=
  h.keeps (P := fun t' => ZipFetch.stopped t' = ZipFetch.stopped t)
    (fun _ _ he hsame => (stopped_mute he).trans hsame) rfl

theorem Mutely.owed (h : Mutely t t') : owed t' = owed t :=
  h.keeps (P := fun t' => Fetch.owed t' = Fetch.owed t)
    (fun _ _ he hsame => (owed_mute he).trans hsame) rfl

/-- The downloads started are accounted for. The current one is busy with a request, with a member
to inflate, or in vain, once its request was given up. -/
structure Accounted (d : Desk (Host τ)) : Prop where
  lawful : Always Rightful d.app.deeds
  busy : ∀ onDone, current d.app.deeds = some onDone →
    zipFetchBusy d.app.zip ∧ d.app.zip.onDone = onDone ∧
      (OwnErrand d.errand ∨ d.app.zip.inflatePending ∨ stopped d.trace)
  settled : current d.app.deeds = none →
    zipFetchBusy d.app.zip = false ∧ ¬ OwnErrand d.errand ∧ d.app.zip.inflatePending = false
  owed : OwnErrand d.errand → Fetch.owed d.trace = some zipCallback

section Accounted
variable {d d' : Desk (Host τ)}

theorem Accounted.current (h : Accounted d)
    (hwork : OwnErrand d.errand ∨ d.app.zip.inflatePending) :
    current d.app.deeds = some d.app.zip.onDone := by
  cases hcurrent : ZipFetch.current d.app.deeds with
  | none =>
    obtain ⟨_, herrand, hpending⟩ := h.settled hcurrent
    rcases hwork with hown | htrue
    · exact absurd hown herrand
    · cases hpending.symm.trans htrue
  | some onDone => rw [(h.busy onDone hcurrent).2.1]

theorem Accounted.current_none (h : Accounted d) (hbusy : zipFetchBusy d.app.zip = false) :
    ZipFetch.current d.app.deeds = none := by
  cases hcurrent : ZipFetch.current d.app.deeds with
  | none => rfl
  | some onDone => cases hbusy.symm.trans (h.busy onDone hcurrent).1

theorem Accounted.aside (hd : Accounted d) (hdeeds : d'.app.deeds = d.app.deeds)
    (hzip : d'.app.zip = d.app.zip)
    (hown : OwnErrand d'.errand → OwnErrand d.errand ∧ Fetch.owed d'.trace = Fetch.owed d.trace)
    (hlost : OwnErrand d.errand → OwnErrand d'.errand ∨ stopped d'.trace)
    (hstopped : stopped d.trace → stopped d'.trace) : Accounted d' := by
  refine ⟨?_, ?_, ?_, ?_⟩
  · rw [hdeeds]
    exact hd.lawful
  · rw [hdeeds, hzip]
    intro onDone hcurrent
    obtain ⟨hbusy, hdone, hwork⟩ := hd.busy onDone hcurrent
    refine ⟨hbusy, hdone, ?_⟩
    rcases hwork with herrand | hpending | hgiven
    · exact (hlost herrand).imp_right .inr
    · exact .inr (.inl hpending)
    · exact .inr (.inr (hstopped hgiven))
  · rw [hdeeds, hzip]
    intro hcurrent
    obtain ⟨hbusy, herrand, hpending⟩ := hd.settled hcurrent
    exact ⟨hbusy, fun h => herrand (hown h).1, hpending⟩
  · intro herrand
    obtain ⟨hbefore, hsame⟩ := hown herrand
    exact hsame.trans (hd.owed hbefore)

theorem Accounted.idle (hlawful : Always Rightful d.app.deeds)
    (hcurrent : ZipFetch.current d.app.deeds = none) (hbusy : zipFetchBusy d.app.zip = false)
    (herrand : ¬ OwnErrand d.errand) (hpending : d.app.zip.inflatePending = false) :
    Accounted d := by
  refine ⟨hlawful, ?_, fun _ => ⟨hbusy, herrand, hpending⟩, fun hown => absurd hown herrand⟩
  intro _ hsome
  cases hcurrent.symm.trans hsome

theorem Accounted.working (hlawful : Always Rightful d.app.deeds)
    (hcurrent : ZipFetch.current d.app.deeds = some d.app.zip.onDone)
    (hbusy : zipFetchBusy d.app.zip) (herrand : OwnErrand d.errand)
    (howed : Fetch.owed d.trace = some zipCallback) : Accounted d := by
  refine ⟨hlawful, fun onDone heq => ?_, fun hnone => ?_, fun _ => howed⟩
  · exact ⟨hbusy, Option.some.inj (hcurrent.symm.trans heq), .inl herrand⟩
  · cases hcurrent.symm.trans hnone

theorem Closes.accounted (h : Closes state error d d') (hlawful : Always Rightful d.app.deeds)
    (hcurrent : ZipFetch.current d.app.deeds = some d.app.zip.onDone)
    (hstate : state = .failed ∨ state = .ready) (herrand : ¬ OwnErrand d.errand)
    (hpending : d.app.zip.inflatePending = false) : Accounted d' := by
  cases h with
  | intro =>
    refine .idle (hlawful.cons hcurrent) rfl ?_ herrand hpending
    rcases hstate with rfl | rfl <;> rfl

theorem Asked.accounted {d₁ : Desk (Host τ)} {e : Option Errno} {step : Step} (h : Asked d₁ e d')
    (hbegun : Begun (step.request zip path) nowMs d e d₁) (hidle : d.errand = none)
    (hlawful : Always Rightful d.app.deeds)
    (hcurrent : ZipFetch.current d.app.deeds = some d.app.zip.onDone)
    (hheading : Heading d.app.zip d.app.said step) : Accounted d' := by
  have happ := hbegun.leaves.1
  rw [← happ] at hlawful hcurrent hheading
  cases h with
  | accepted =>
    obtain ⟨herrand, howed⟩ := hbegun.accepted_errand
    refine .working hlawful hcurrent ?_ ⟨_, herrand⟩ howed
    rw [zipFetchBusy, hheading.state]
    cases step <;> rfl
  | refused e hcloses =>
    refine hcloses.accounted hlawful hcurrent (.inl rfl) ?_ hheading.pending
    rw [hbegun.refused_errand hidle]
    exact not_ownErrand_none

theorem Begun.accounted {refused : Option Errno} (h : Begun request nowMs d refused d')
    (hforeign : request.onDone ≠ some zipCallback) (hd : Accounted d) : Accounted d' := by
  have hstarted :
      ∀ {t}, Mutely (.started request nowMs :: d.trace) t → stopped t = stopped d.trace := by
    intro t hmute
    have hother : (request.onDone != some zipCallback) := bne_iff_ne.mpr hforeign
    rw [Mutely.stopped hmute, stopped, hother, Bool.true_and]
  cases h with
  | refused => exact hd
  | failed hidle hworks =>
    refine hd.aside (congrArg Host.deeds hworks.app) (congrArg Host.zip hworks.app)
      (fun hown => absurd hown not_ownErrand_none) (fun hown => ?_) (fun hgiven => ?_)
    · rw [hidle] at hown
      exact absurd hown not_ownErrand_none
    · exact (hstarted hworks.trace).trans hgiven
  | accepted hidle hworks =>
    refine hd.aside (congrArg Host.deeds hworks.app) (congrArg Host.zip hworks.app)
      (fun hown => ?_) (fun hown => ?_) (fun hgiven => ?_)
    · obtain ⟨_, herrand⟩ := hown
      exact absurd (congrArg Errand.onDone (Option.some.inj herrand)) hforeign
    · rw [hidle] at hown
      exact absurd hown not_ownErrand_none
    · exact (hstarted hworks.trace).trans hgiven

theorem Accounted.cancel (hd : Accounted d) : Accounted d.cancel := by
  unfold Desk.cancel
  split
  · refine hd.aside rfl rfl (fun hown => absurd hown not_ownErrand_none) (fun hown => .inr ?_)
      (fun hgiven => ?_)
    · rw [stopped, hd.owed hown]
      rfl
    · rw [stopped, hgiven, Bool.or_true]
  · exact hd

theorem Move.accounted (h : Move d d') (hc : OnCourse d) (hd : Accounted d) : Accounted d' := by
  cases h with
  | works hworks =>
    refine hd.aside (congrArg Host.deeds hworks.app) (congrArg Host.zip hworks.app) (fun hown => ?_)
      (fun hown => .inl ?_) (fun hgiven => (Mutely.stopped hworks.trace).trans hgiven)
    · rw [hworks.errand] at hown
      exact ⟨hown, Mutely.owed hworks.trace⟩
    · rw [hworks.errand]
      exact hown
  | ticked | own => exact hd.aside rfl rfl (fun hown => ⟨hown, rfl⟩) .inl id
  | unheard o herrand hid =>
    refine hd.aside rfl rfl (fun hown => absurd hown not_ownErrand_none) (fun hown => ?_) id
    obtain ⟨_, heq⟩ := hown
    cases herrand.symm.trans heq
    cases hid
  | heard _ _ herrand hother =>
    refine hd.aside rfl rfl (fun hown => absurd hown not_ownErrand_none) (fun hown => ?_) id
    obtain ⟨_, heq⟩ := hown
    cases herrand.symm.trans heq
    exact absurd rfl hother
  | fetches hforeign hbegun => exact Begun.accounted hbegun hforeign hd
  | drops => exact hd.cancel
  | starts request hbusy _ _ hbegun =>
    have happ := hbegun.leaves.1
    obtain ⟨herrand, howed⟩ := hbegun.accepted_errand
    have hrightful : Rightful (.started request.onDone) d.app.deeds := hd.current_none hbusy
    refine .working ?_ ?_ ?_ ⟨_, herrand⟩ howed
    · rw [happ]
      exact hd.lawful.cons hrightful
    · rw [happ]
      rfl
    · rw [happ]
      rfl
  | fallsThrough _ hbusy hidle _ hbegun =>
    have happ := hbegun.leaves.1
    refine .idle ?_ ?_ rfl ?_ ?_
    · rw [congrArg Host.deeds happ]
      exact hd.lawful
    · rw [congrArg Host.deeds happ]
      exact hd.current_none hbusy
    · rw [hbegun.refused_errand hidle]
      exact not_ownErrand_none
    · exact congrArg (·.zip.inflatePending) happ
  | cancels => exact .idle (hd.lawful.cons trivial) rfl rfl hc.let_go rfl
  | stalls _ herrand _ _ hdues hcloses =>
    have hown : OwnErrand d.errand := ⟨_, herrand⟩
    refine hcloses.accounted hd.lawful ?_ (.inl rfl) not_ownErrand_none ?_
    · rw [hd.current (.inl hown)]
      exact congrArg some (congrArg Prod.fst hdues).symm
    · exact (congrArg Prod.snd hdues).trans (hc.underway hown).held.2
  | @asks _ app _ _ _ _ _ _ _ _ herrand step hnext _ _ hbegun hasked =>
    have hown : OwnErrand d.errand := ⟨_, herrand⟩
    have hheading := hnext.heading (hc.underway hown)
    have hdone := congrArg Prod.fst ((step.enter_dues _).trans hnext.dues)
    have hdeeds : app.deeds = d.app.deeds := hnext.user.2
    refine Asked.accounted hasked hbegun rfl (hdeeds.symm ▸ hd.lawful) ?_ hheading
    have hcurrent : current app.deeds = some (step.enter app.zip).onDone := by
      rw [hdeeds, hd.current (.inl hown)]
      exact congrArg some hdone.symm
    exact hcurrent
  | lands _ herrand =>
    have hown : OwnErrand d.errand := ⟨_, herrand⟩
    have hcurrent := hd.current (.inl hown)
    refine ⟨hd.lawful, fun onDone heq => ?_, fun hnone => ?_, fun h => absurd h not_ownErrand_none⟩
    · refine ⟨rfl, ?_, .inr (.inl rfl)⟩
      exact Option.some.inj (hcurrent.symm.trans heq)
    · cases hcurrent.symm.trans hnone
  | ignores _ herrand hmeasuring hreading hlocating hfetching =>
    have hexpects := (hc.underway ⟨_, herrand⟩).expects
    simp only [hmeasuring, hreading, hlocating, hfetching, or_self] at hexpects
  | inflates hpending _ hstate hcloses =>
    refine hcloses.accounted hd.lawful (hd.current (.inr hpending)) ?_ (hc.landed hpending).2.2 rfl
    exact hstate.imp_right And.left

end Accounted

end Inkwell.ZipFetch
