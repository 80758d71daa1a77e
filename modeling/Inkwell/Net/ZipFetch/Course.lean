import Inkwell.Net.ZipFetch.Moves

namespace Inkwell.ZipFetch
open Net Http Zip Fetch
open List hiding zip

def OwnErrand (errand : Option Errand) : Prop := ∃ path, errand = some ⟨some zipCallback, path⟩

structure Listed (member : Bytes) (entry : ZipEntry) : Prop where
  found : ∃ central entries, findMember central entries member = some (.found, entry)
  size : 0 < entry.compressedSize

/-- The local header has put the bytes where they are to be read. -/
def Lengths (zip : Download) (said : List Finding) : Prop :=
  ∃ nameLen extraLen earlier, zip.dataOffset = memberStart zip.entry nameLen extraLen ∧
    said = .data zip.zipSize zip.entry nameLen extraLen ::
      .member zip.zipSize zip.centralOffset zip.entry :: earlier

/-- What the archive has said of the member and of its bytes by the time a step is made. -/
def Basis (zip : Download) (said : List Finding) : Step → Prop
  | .window | .central => True
  | .header => Listed zip.member zip.entry ∧
      ∃ earlier, said = .member zip.zipSize zip.centralOffset zip.entry :: earlier
  | .member => Listed zip.member zip.entry ∧ zip.dataOffset < 2 ^ 33 ∧ Lengths zip said

structure Heading (zip : Download) (said : List Finding) (step : Step) : Prop where
  state : zip.state = step.state
  latest : zip.step = some step
  borrowed : zip.borrowed
  pending : zip.inflatePending = false
  window : step = .window → zip.directoryOnly = false
  central : step = .central → zip.directoryOnly
  basis : Basis zip said step

/-- A download with a request in flight, for the length of the archive or for a range of it. -/
inductive Underway (zip : Download) (said : List Finding) : Prop
  | head (hstate : zip.state = .measuring) (hborrowed : zip.borrowed)
      (hpending : zip.inflatePending = false) (hstep : zip.step = none)
      (hretried : zip.retried = false) (hpass : zip.directoryOnly = false)
  | range (step : Step) (h : Heading zip said step)

structure OnCourse (d : Desk (Host τ)) : Prop where
  underway : OwnErrand d.errand → Underway d.app.zip d.app.said
  landed : d.app.zip.inflatePending → d.app.zip.state = .inflating ∧
    Basis d.app.zip d.app.said .member ∧ ¬ OwnErrand d.errand

theorem not_ownErrand_none : ¬ OwnErrand none := nofun

theorem Underway.held (h : Underway zip said) : zip.borrowed ∧ zip.inflatePending = false := by
  cases h with
  | head _ hborrowed hpending => exact ⟨hborrowed, hpending⟩
  | range _ h => exact ⟨h.borrowed, h.pending⟩

theorem Underway.expects (h : Underway zip said) : zip.state = .measuring ∨ zip.state = .reading ∨
    zip.state = .locating ∨ zip.state = .fetching := by
  cases h with
  | head hstate => exact .inl hstate
  | range step h =>
    rw [h.state]
    cases step <;> decide

theorem Underway.at_step (h : Underway zip said) (hstate : zip.state = state)
    (hmeasuring : state ≠ .measuring) : ∃ step, Heading zip said step ∧ step.state = state := by
  cases h with
  | head hhead => exact absurd (hstate.symm.trans hhead) hmeasuring
  | range step h => exact ⟨step, h, h.state.symm.trans hstate⟩

theorem Next.heading {step : Step} (h : Next result app step app')
    (hd : Underway app.zip app.said) : Heading (step.enter app'.zip) app'.said step := by
  obtain ⟨hborrowed, hpending⟩ := hd.held
  cases h with
  | again _ _ step hstep =>
    cases hd with
    | head _ _ _ hnone => cases hstep.symm.trans hnone
    | range _ h =>
      cases hstep.symm.trans h.latest
      cases step with
      | window => exact ⟨rfl, rfl, hborrowed, hpending, h.window, h.central, h.basis⟩
      | central => exact ⟨rfl, rfl, hborrowed, hpending, nofun, fun _ => rfl, h.basis⟩
      | header | member => exact ⟨rfl, rfl, hborrowed, hpending, nofun, nofun, h.basis⟩
  | measured _ hstate =>
    cases hd with
    | head _ _ _ _ _ hpass => exact ⟨rfl, rfl, hborrowed, hpending, fun _ => hpass, nofun, trivial⟩
    | range step h =>
      have hstep := h.state.symm.trans hstate
      cases step <;> cases hstep
  | apart => exact ⟨rfl, rfl, hborrowed, hpending, nofun, fun _ => rfl, trivial⟩
  | chosen _ _ _ _ hchosen =>
    obtain ⟨central, entries, _, hfound⟩ := hchosen.listed
    exact ⟨rfl, rfl, hborrowed, hpending, nofun, nofun,
      ⟨⟨central, entries, hfound⟩, hchosen.compressed.1⟩, _, rfl⟩
  | placed _ hstate header _ _ hdata =>
    obtain ⟨step, h, hstep⟩ := hd.at_step hstate nofun
    cases step with
    | window | central | member => cases hstep
    | header =>
      obtain ⟨hlisted, earlier, hsaid⟩ := h.basis
      obtain ⟨_, _, hfound⟩ := hlisted.found
      have hoffset := (findMember_found hfound).2.2
      obtain ⟨hplace, _, _⟩ := localDataStart_place hdata
      have hstart : memberStart app.zip.entry (headerNameLen header) (headerExtraLen header) <
          2 ^ 33 := by
        unfold memberStart localHeaderSize
        omega
      rw [u64, Nat.mod_eq_of_lt (by omega)] at hplace
      refine ⟨rfl, rfl, hborrowed, hpending, nofun, nofun, hlisted, hplace ▸ hstart, _, _, earlier,
        hplace, ?_⟩
      rw [hsaid]
      rfl

theorem OnCourse.fresh (h : d.app.zip = ZipRequest.zip request) : OnCourse d := by
  refine ⟨?_, ?_⟩
  · rw [h]
    exact fun _ => .head rfl rfl rfl rfl rfl rfl
  · rw [h]
    nofun

theorem OnCourse.free (herrand : ¬ OwnErrand d.errand)
    (hpending : d.app.zip.inflatePending = false) : OnCourse d := by
  refine ⟨fun hown => absurd hown herrand, ?_⟩
  intro htrue
  cases hpending.symm.trans htrue

theorem Closes.onCourse (h : Closes state error d d') (herrand : ¬ OwnErrand d.errand)
    (hpending : d.app.zip.inflatePending = false) : OnCourse d' := by
  cases h with
  | intro =>
    apply OnCourse.free
    · exact herrand
    · exact hpending

theorem Asked.onCourse {d d₁ d' : Desk (Host τ)} {e : Option Errno} {step : Step}
    (h : Asked d₁ e d') (hbegun : Begun request nowMs d e d₁) (hidle : d.errand = none)
    (hheading : Heading d.app.zip d.app.said step) : OnCourse d' := by
  have happ := hbegun.leaves.1
  cases h with
  | accepted =>
    refine ⟨fun _ => ?_, fun hpending => ?_⟩
    · rw [happ]
      exact .range step hheading
    · rw [happ] at hpending
      cases hheading.pending.symm.trans hpending
  | refused e hcloses =>
    apply hcloses.onCourse
    · rw [hbegun.refused_errand hidle]
      exact not_ownErrand_none
    · rw [happ]
      exact hheading.pending

theorem OnCourse.let_go {d : Desk (Host τ)} (h : OnCourse d) :
    ¬ OwnErrand (if d.app.zip.borrowed then d.cancel else d).errand := by
  split
  · rw [d.cancel_errand]
    exact not_ownErrand_none
  · rename_i hborrowed
    exact fun hown => hborrowed (h.underway hown).held.1

theorem Move.onCourse {d d' : Desk (Host τ)} (h : Move d d') (hd : OnCourse d) : OnCourse d' := by
  -- Nothing of the download's is in flight any more, and nothing else of it has changed.
  have hfree : ∀ d' : Desk (Host τ), d'.app.zip = d.app.zip → d'.app.said = d.app.said →
      ¬ OwnErrand d'.errand → OnCourse d' := by
    intro _ hzip hsaid herrand
    refine ⟨fun hown => absurd hown herrand, ?_⟩
    rw [hzip, hsaid]
    intro hpending
    obtain ⟨hstate, hbasis, _⟩ := hd.landed hpending
    exact ⟨hstate, hbasis, herrand⟩
  have hsame : ∀ d' : Desk (Host τ), d'.app.zip = d.app.zip → d'.app.said = d.app.said →
      d'.errand = d.errand → OnCourse d' := by
    intro _ hzip hsaid herrand
    refine ⟨?_, ?_⟩
    · rw [herrand, hzip, hsaid]
      exact hd.underway
    · rw [herrand, hzip, hsaid]
      exact hd.landed
  cases h with
  | works hworks =>
    exact hsame _ (congrArg Host.zip hworks.app) (congrArg Host.said hworks.app) hworks.errand
  | ticked | own => exact hsame _ rfl rfl rfl
  | unheard | heard => exact hfree _ rfl rfl not_ownErrand_none
  | fetches hforeign hbegun =>
    obtain ⟨happ, herrand | hnone | ⟨_, hsome⟩⟩ := hbegun.leaves
    · exact hsame _ (congrArg Host.zip happ) (congrArg Host.said happ) herrand
    · refine hfree _ (congrArg Host.zip happ) (congrArg Host.said happ) ?_
      rw [hnone]
      exact not_ownErrand_none
    · refine hfree _ (congrArg Host.zip happ) (congrArg Host.said happ) ?_
      rw [hsome]
      rintro ⟨_, hown⟩
      exact hforeign (congrArg Errand.onDone (Option.some.inj hown))
  | drops =>
    unfold Desk.cancel
    split
    · exact hfree _ rfl rfl not_ownErrand_none
    · exact hd
  | starts _ _ _ _ hbegun => exact .fresh (congrArg Host.zip hbegun.leaves.1)
  | fallsThrough _ _ hidle _ hbegun =>
    apply OnCourse.free
    · have hnone := hbegun.refused_errand hidle
      rw [hnone]
      exact not_ownErrand_none
    · exact congrArg (·.zip.inflatePending) hbegun.leaves.1
  | cancels => exact .free hd.let_go rfl
  | stalls _ herrand _ _ hdues hcloses =>
    apply hcloses.onCourse not_ownErrand_none
    have hpending := (hd.underway ⟨_, herrand⟩).held.2
    have hdues := congrArg Prod.snd hdues
    exact hdues.trans hpending
  | asks _ herrand _ hnext _ _ hbegun hasked =>
    have hheading := hnext.heading (hd.underway ⟨_, herrand⟩)
    exact hasked.onCourse hbegun rfl hheading
  | lands _ herrand _ hstate =>
    obtain ⟨step, hheading, hstep⟩ := (hd.underway ⟨_, herrand⟩).at_step hstate nofun
    refine ⟨fun hown => absurd hown not_ownErrand_none, fun _ => ⟨rfl, ?_, not_ownErrand_none⟩⟩
    cases step with
    | window | central | header => cases hstep
    | member => exact hheading.basis
  | ignores _ herrand hmeasuring hreading hlocating hfetching =>
    have hexpects := (hd.underway ⟨_, herrand⟩).expects
    simp only [hmeasuring, hreading, hlocating, hfetching, or_self] at hexpects
  | inflates hpending _ _ hcloses => exact hcloses.onCourse (hd.landed hpending).2.2 rfl

/-- A move begins somebody else's request, one for the length of an archive, or one for the range
of a step. -/
inductive Begins (d d' : Desk (Host τ)) (request : Request) : Prop
  | foreign (h : request.onDone ≠ some zipCallback)
  | head (hbusy : zipFetchBusy d.app.zip = false) (zip : ZipRequest)
      (h : request = headRequest zip.zip)
  | range (hown : OwnErrand d.errand) (step : Step) (hnext : Next result d.app step app)
      (hpath : zipPath (step.enter app.zip) step.staged = some path)
      (h : request = step.request (step.enter app.zip) path) (hsaid : d'.app.said = app.said)

inductive Adds (d d' : Desk (Host τ)) : Prop
  | nothing (hunasked : Unasked events) (htrace : d'.trace = events ++ d.trace)
  | request (hnewer : Unasked newer) (holder : Unasked older)
      (htrace : d'.trace = newer ++ .started request nowMs :: (older ++ d.trace))
      (hbegins : Begins d d' request)

theorem Closes.same (h : Closes state error d d') :
    d'.trace = d.trace ∧ d'.app.said = d.app.said := by
  cases h with
  | intro => exact ⟨rfl, rfl⟩

theorem Asked.same (h : Asked d e d') : d'.trace = d.trace ∧ d'.app.said = d.app.said := by
  cases h with
  | accepted => exact ⟨rfl, rfl⟩
  | refused _ hcloses => exact hcloses.same

theorem Move.adds (h : Move d d') : Adds d d' := by
  have hnone : Unasked [] := forall_mem_nil _
  have hone : ∀ e, Event.starts e = false → Unasked [e] := fun e he => hnone.cons he
  have htold : ∀ (result : Result) id, Unasked [.done id result, .completed result.outcome] :=
    fun result id => (hone _ rfl).cons rfl
  cases h with
  | works hworks =>
    obtain ⟨_, hunasked, heq⟩ := hworks.trace.unasked
    exact .nothing hunasked heq
  | ticked | unheard => exact .nothing (hone _ rfl) rfl
  | heard result id => exact .nothing (htold result id) rfl
  | own => exact .nothing hnone rfl
  | fetches hforeign hbegun =>
    rcases hbegun.asked with heq | ⟨_, hunasked, heq⟩
    · exact .nothing hnone heq
    · exact .request hunasked hnone heq (.foreign hforeign)
  | drops =>
    obtain ⟨_, hunasked, heq⟩ := d.cancel_trace
    exact .nothing hunasked heq
  | starts request hbusy _ _ hbegun | fallsThrough request hbusy _ _ hbegun =>
    rcases hbegun.asked with heq | ⟨_, hunasked, heq⟩
    · exact .nothing hnone heq
    · exact .request hunasked hnone heq (.head hbusy request rfl)
  | cancels =>
    split
    · obtain ⟨_, hunasked, heq⟩ := d.cancel_trace
      exact .nothing hunasked heq
    · exact .nothing hnone rfl
  | stalls result _ _ _ _ hcloses => exact .nothing (htold result _) hcloses.same.1
  | asks result herrand step hnext _ hpath hbegun hasked =>
    obtain ⟨htrace, hsaid⟩ := hasked.same
    have hsaid := hsaid.trans (congrArg Host.said hbegun.leaves.1)
    rcases hbegun.asked with heq | ⟨_, hunasked, heq⟩
    · exact .nothing (htold result _) (htrace.trans heq)
    · exact .request hunasked (htold result _) (htrace.trans heq)
        (.range ⟨_, herrand⟩ step hnext hpath rfl hsaid)
  | lands result | ignores result => exact .nothing (htold result _) rfl
  | inflates _ _ _ hcloses => exact .nothing hnone hcloses.same.1

/-- A request of the download's own was in flight before a move, or the download was started or
has come to a step. -/
inductive Owns (d d' : Desk (Host τ)) : Prop
  | kept (hown : OwnErrand d.errand) (hzip : d'.app.zip = d.app.zip) (hunasked : Unasked events)
      (htrace : d'.trace = events ++ d.trace)
  | head (request : ZipRequest) (hzip : d'.app.zip = request.zip)
      (hdeeds : d'.app.deeds = .started request.onDone :: d.app.deeds) (hnewer : Unasked newer)
      (htrace : d'.trace = newer ++ .started (headRequest request.zip) nowMs :: d.trace)
  | range (hown : OwnErrand d.errand) (step : Step) (hnext : Next result d.app step app)
      (hzip : d'.app.zip = step.enter app.zip)
      (hpath : zipPath (step.enter app.zip) step.staged = some path) (hnewer : Unasked newer)
      (holder : Unasked older)
      (htrace : d'.trace = newer ++
        .started (step.request (step.enter app.zip) path) nowMs :: (older ++ d.trace))

theorem Closes.errand (h : Closes state error d d') : d'.errand = d.errand := by
  cases h with
  | intro => rfl

theorem Move.owns (h : Move d d') (hc : OnCourse d) (hown : OwnErrand d'.errand) : Owns d d' := by
  have hnone : Unasked [] := forall_mem_nil _
  cases h with
  | works hworks =>
    obtain ⟨_, hunasked, heq⟩ := hworks.trace.unasked
    exact .kept (hworks.errand ▸ hown) (congrArg Host.zip hworks.app) hunasked heq
  | ticked => exact .kept hown rfl (hnone.cons rfl) rfl
  | own => exact .kept hown rfl hnone rfl
  | unheard | heard | lands | ignores => exact absurd hown not_ownErrand_none
  | fetches hforeign hbegun =>
    cases hbegun with
    | refused => exact .kept hown rfl hnone rfl
    | failed => exact absurd hown not_ownErrand_none
    | accepted =>
      obtain ⟨_, herrand⟩ := hown
      exact absurd (congrArg Errand.onDone (Option.some.inj herrand)) hforeign
  | drops =>
    rw [d.cancel_errand] at hown
    exact absurd hown not_ownErrand_none
  | starts request _ _ _ hbegun =>
    have happ := hbegun.leaves.1
    obtain ⟨_, hunasked, heq⟩ := hbegun.accepted_asked
    have hdeeds := congrArg Host.deeds happ
    exact .head request (congrArg Host.zip happ) (congrArg (List.cons _) hdeeds) hunasked heq
  | fallsThrough _ _ hidle _ hbegun =>
    have hown : OwnErrand _ := hbegun.refused_errand hidle ▸ hown
    exact absurd hown not_ownErrand_none
  | cancels => exact absurd hown hc.let_go
  | stalls _ _ _ _ _ hcloses =>
    rw [hcloses.errand] at hown
    exact absurd hown not_ownErrand_none
  | asks result herrand step hnext _ hpath hbegun hasked =>
    cases hasked with
    | accepted =>
      obtain ⟨_, hunasked, heq⟩ := hbegun.accepted_asked
      have htold : Unasked [.done zipCallback result, .completed result.outcome] :=
        (hnone.cons rfl).cons rfl
      exact .range ⟨_, herrand⟩ step hnext (congrArg Host.zip hbegun.leaves.1) hpath hunasked
        htold heq
    | refused e hcloses =>
      rw [hcloses.errand, hbegun.refused_errand rfl] at hown
      exact absurd hown not_ownErrand_none
  | inflates hpending _ _ hcloses =>
    rw [hcloses.errand] at hown
    exact absurd hown (hc.landed hpending).2.2

theorem Move.said (h : Move d d') : d.app.said <:+ d'.app.said := by
  have hsame : ∀ {said}, said = d.app.said → d.app.said <:+ said := by
    rintro _ rfl
    exact suffix_rfl
  cases h with
  | works hworks => exact hsame (congrArg Host.said hworks.app)
  | fetches _ hbegun => exact hsame (congrArg Host.said hbegun.leaves.1)
  | starts _ _ _ _ hbegun | fallsThrough _ _ _ _ hbegun =>
    have hsaid := congrArg Host.said hbegun.leaves.1
    exact hsame hsaid
  | drops => exact hsame (congrArg Host.said d.cancel_app)
  | stalls _ _ hsaid _ _ hcloses =>
    rw [hcloses.same.2]
    exact hsaid
  | asks _ _ _ hnext _ _ hbegun hasked =>
    rw [hasked.same.2, hbegun.leaves.1]
    exact hnext.said
  | inflates _ _ _ hcloses => exact hsame hcloses.same.2
  | _ => exact suffix_rfl

theorem Moves.trace (h : Moves d d') : d.trace <:+ d'.trace := by
  apply h.keeps
  · intro _ _ hmove htrace
    cases hmove.adds with
    | nothing _ heq =>
      rw [heq]
      exact htrace.trans (suffix_append _ _)
    | request _ _ heq =>
      rw [heq]
      apply htrace.trans
      exact (suffix_append _ _).trans ((suffix_cons _ _).trans (suffix_append _ _))
  · exact suffix_rfl

end Inkwell.ZipFetch
