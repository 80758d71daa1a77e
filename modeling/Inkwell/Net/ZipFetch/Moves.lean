import Inkwell.Net.ZipFetch.Host

namespace Inkwell.ZipFetch
open Net Http Zip Fetch

def Step.state : Step → State
  | .window | .central => .reading
  | .header => .locating
  | .member => .fetching

def Step.staged : Step → Staged
  | .window => .window
  | .central => .central
  | .header => .header
  | .member => .member

def Step.enter : Step → Download → Download
  | .window, zip => { zip with
      step := some .window
      windowOffset := tailOffset zip.zipSize
      windowLen := zip.zipSize - tailOffset zip.zipSize
      state := .reading }
  | .central, zip => { zip with step := some .central, state := .reading, directoryOnly := true }
  | .header, zip => { zip with step := some .header, state := .locating }
  | .member, zip => { zip with step := some .member, state := .fetching }

def Step.range (zip : Download) : Step → Nat × Nat
  | .window => (zip.windowOffset, sub64 zip.zipSize 1)
  | .central => (zip.windowOffset, sub64 (zip.windowOffset + zip.windowLen) 1)
  | .header => (zip.entry.localHeaderOffset,
      sub64 (zip.entry.localHeaderOffset + localHeaderSize) 1)
  | .member => (zip.dataOffset, sub64 (zip.dataOffset + zip.entry.compressedSize) 1)

def Step.timeoutMs (zip : Download) : Step → Nat
  | .member => zip.memberTimeoutMs
  | _ => zip.stepTimeoutMs

def Step.request (step : Step) (zip : Download) (path : Bytes) : Request :=
  rangeRequest zip path (step.range zip).1 (step.range zip).2 (step.timeoutMs zip)

theorem localDataStart_place (h : localDataStart header entry = some (some dataOffset)) :
    dataOffset = u64 (memberStart entry (headerNameLen header) (headerExtraLen header)) ∧
      headerNameLen header < 2 ^ 16 ∧ headerExtraLen header < 2 ^ 16 := by
  unfold localDataStart at h
  split at h
  · cases h
  simp only [Option.bind_eq_bind, Option.pure_def, Option.bind_eq_some_iff] at h
  obtain ⟨_, _, h⟩ := h
  split at h
  · cases h
  simp only [Option.bind_eq_some_iff, Option.some.injEq] at h
  obtain ⟨_, hname, _, hextra, rfl⟩ := h
  rw [headerNameLen, headerExtraLen, hname, hextra]
  exact ⟨rfl, zipU16_lt hname, zipU16_lt hextra⟩

theorem zipStep_asks (done : Nat → System τ → System τ) (step : Step) (s : System τ) :
    zipStep done step s =
      zipAsk done step.staged (step.range (step.enter s.app.zip)).1
        (step.range (step.enter s.app.zip)).2 (step.timeoutMs (step.enter s.app.zip))
        (edit s step.enter) := by
  cases step <;> rfl

inductive Asked (d : Desk (Host τ)) : Option Errno → Desk (Host τ) → Prop
  | accepted : Asked d none d
  | refused (e : Errno) (h : Closes .failed .staging d d') : Asked d (some e) d'

/-- What the fetcher does, what the owner does, and what the download does when a fetch ends, when
it is started or cancelled, and when it inflates. -/
inductive Move (d : Desk (Host τ)) : Desk (Host τ) → Prop
  | works (h : d.Works d') : Move d d'
  | ticked (nowMs : Nat) : Move d { d with trace := .ticked nowMs :: d.trace }
  | unheard (o : Outcome) (herrand : d.errand = some e) (hid : e.onDone = none) : Move d (d.ended o)
  | heard (result : Result) (id : Nat) (herrand : d.errand = some ⟨some id, path⟩)
      (hother : id ≠ zipCallback) :
    Move d (d.told result.outcome id result)
  | own (user : τ) (files : Bytes → Option Bytes) :
    Move d { d with app := { d.app with user }, files }
  | fetches (hforeign : request.onDone ≠ some zipCallback) (h : Begun request nowMs d refused d') :
    Move d d'
  | drops : Move d d.cancel
  | starts (request : ZipRequest) (hbusy : zipFetchBusy d.app.zip = false) (hidle : d.errand = none)
      (hspends : d.app.around.Spends around)
      (h : Begun (headRequest request.zip) nowMs
        { d with app := { d.app with zip := request.zip, around } } none d') :
    Move d { d' with app := { d'.app with deeds := .started request.onDone :: d'.app.deeds } }
  | fallsThrough (request : ZipRequest) (hbusy : zipFetchBusy d.app.zip = false)
      (hidle : d.errand = none) (hspends : d.app.around.Spends around)
      (h : Begun (headRequest request.zip) nowMs
        { d with app := { d.app with zip := request.zip, around } } (some e) d') :
    Move d { d' with app := { d'.app with
      zip := { d'.app.zip with state := .idle, onDone := none } } }
  | cancels (hspends : d.app.around.Spends around)
      (hgone : d.app.around.Removes → ∀ name path, zipPath d.app.zip name = some path →
        files path = none) :
    Move d { (if d.app.zip.borrowed then d.cancel else d) with
      app := { d.app with
        zip := d.app.zip.idle
        around
        deeds := .cancelled d.app.zip.idle files :: d.app.deeds }
      files }
  | stalls (result : Result) (herrand : d.errand = some ⟨some zipCallback, path⟩)
      (hsaid : d.app.said <:+ said) (hspends : d.app.around.Spends around)
      (hsame : zip.dues = d.app.zip.dues)
      (h : Closes .failed error { d.told result.outcome zipCallback result with
        app := { d.app with zip, said, around }, files } d') : Move d d'
  | asks (result : Result) (herrand : d.errand = some ⟨some zipCallback, path⟩) (step : Step)
      (hnext : Next result d.app step app) (hspends : app.around.Spends around)
      (hpath : zipPath (step.enter app.zip) step.staged = some staged)
      (hbegun : Begun (step.request (step.enter app.zip) staged) nowMs
        { d.told result.outcome zipCallback result with
          app := { app with zip := step.enter app.zip, around }, files } refused d₁)
      (h : Asked d₁ refused d') : Move d d'
  | lands (result : Result) (herrand : d.errand = some ⟨some zipCallback, path⟩)
      (hout : result.outcome = .ok) (hstate : d.app.zip.state = .fetching) :
    Move d { d.told result.outcome zipCallback result with
      app := { d.app with
        zip := { d.app.zip with retried := false, state := .inflating, inflatePending := true } } }
  | ignores (result : Result) (herrand : d.errand = some ⟨some zipCallback, path⟩)
      (hmeasuring : d.app.zip.state ≠ .measuring) (hreading : d.app.zip.state ≠ .reading)
      (hlocating : d.app.zip.state ≠ .locating) (hfetching : d.app.zip.state ≠ .fetching) :
    Move d { d.told result.outcome zipCallback result with
      app := { d.app with zip := { d.app.zip with retried := false } } }
  | inflates (hpending : d.app.zip.inflatePending) (hspends : d.app.around.Spends around)
      (hstate : state = .failed ∨ state = .ready ∧ Ready d.app files)
      (h : Closes state error { d with
        app :=
          { d.app with zip := { d.app.zip with inflatePending := false }, around }, files } d') :
    Move d d'

theorem Move.of_eq (h : Move d d') (heq : d'' = d') : Move d d'' := heq ▸ h

abbrev Moves : Desk (Host τ) → Desk (Host τ) → Prop := Relation.ReflTransGen Move

theorem Moves.keeps {p : Desk (Host τ) → Prop} (hp : ∀ d d', Move d d' → p d → p d')
    (h : Moves d d') (hd : p d) : p d' := by
  induction h with
  | refl => exact hd
  | tail _ hmove ih => exact hp _ _ hmove ih

theorem desk_with {s : System τ} (hs : s.desk = d) (app : Host τ) (files : Bytes → Option Bytes) :
    ({ s with app, files } : System τ).desk = { d with app, files } := by
  subst hs
  rfl

theorem desk_edit (hs : s.desk = d) :
    (edit s f).desk = { d with app := { d.app with zip := f d.app.zip } } := by
  subst hs
  rfl

section Download
variable {done : Nat → System τ → System τ} {s : System τ} {d : Desk (Host τ)}
variable (hdone : ∀ id (s : System τ), Moves s.desk (done id s).desk)
include hdone

theorem zipFinish_moves (state : State) (error : Error)
    (h : ∀ d', Closes state error s.desk d' → Move d d') :
    Moves d (zipFinish done state error s).desk := by
  obtain ⟨_, _, hcloses, hend⟩ := zipFinish_ends
  have hmove := Relation.ReflTransGen.single (h _ hcloses)
  rcases hend with hend | ⟨id, hend⟩
  · rw [hend]
    exact hmove
  · rw [hend]
    exact hmove.trans (hdone id _)

theorem zipAsk_moves (hfails : ∀ d', Closes .failed .staging s.desk d' → Move d d')
    (hasks : ∀ {around path nowMs refused d₁ d'}, s.app.around.Spends around →
      zipPath s.app.zip name = some path →
      Begun (rangeRequest s.app.zip path first last timeoutMs) nowMs
        { s.desk with app := { s.app with around } } refused d₁ →
      Asked d₁ refused d' → Move d d') :
    Moves d (zipAsk done name first last timeoutMs s).desk := by
  have hrange := zipRange_begun name first last timeoutMs s
  unfold zipAsk
  generalize zipRange name first last timeoutMs s = asked at *
  obtain ⟨_, _⟩ := asked
  rcases hrange with heq | ⟨_, _, _, refused, hspends, hpath, hflag, hbegun⟩
  · cases heq
    exact zipFinish_moves hdone _ _ hfails
  cases hflag
  cases refused with
  | none => exact .single (hasks hspends hpath hbegun .accepted)
  | some e =>
    apply zipFinish_moves hdone
    intro _ hcloses
    exact hasks hspends hpath hbegun (.refused e hcloses)

omit hdone in
theorem Next.said {step : Step} (h : Next result app step app') : app.said <:+ app'.said := by
  cases h with
  | again | measured => exact List.suffix_rfl
  | apart | chosen | placed => exact List.suffix_cons _ _

omit hdone in
theorem Next.around {step : Step} (h : Next result app step app') : app'.around = app.around := by
  cases h <;> rfl

omit hdone in
theorem Next.dues {step : Step} (h : Next result app step app') : app'.zip.dues = app.zip.dues := by
  cases h <;> rfl

omit hdone in
theorem Next.user {step : Step} (h : Next result app step app') :
    app'.user = app.user ∧ app'.deeds = app.deeds := by
  cases h <;> exact ⟨rfl, rfl⟩

omit hdone in
theorem Step.enter_dues (step : Step) (zip : Download) : (step.enter zip).dues = zip.dues := by
  cases step <;> rfl

theorem zipOnFetch_moves (hs : s.desk = d.told result.outcome zipCallback result)
    (herrand : d.errand = some ⟨some zipCallback, path⟩) :
    Moves d (zipOnFetch done result s).desk := by
  have hturn := zipOnFetch_turn done result s
  generalize zipOnFetch done result s = s' at hturn
  have happ : s.app = d.app := congrArg Desk.app hs
  cases hturn with
  | failed zip error h hsame =>
    obtain ⟨around, files, hspends, rfl⟩ := h
    apply zipFinish_moves hdone
    intro d' hcloses
    have hcloses : Closes .failed error ({ s with app := { s.app with zip, around }, files } :
      System τ).desk d' := hcloses
    have hspends : s.app.around.Spends around := hspends
    rw [desk_with hs, happ] at hcloses
    rw [happ] at hspends hsame
    exact .stalls result herrand List.suffix_rfl hspends hsame hcloses
  | @next app _ step hnext haside =>
    obtain ⟨around, files, hspent, rfl⟩ := haside
    have hspends : app.around.Spends around := hspent
    rw [happ] at hnext
    rw [zipStep_asks]
    have hdesk : ∀ around, (edit ({ s with app := { app with around }, files } : System τ)
        step.enter).desk = { d.told result.outcome zipCallback result with
          app := { app with zip := step.enter app.zip, around }, files } :=
      fun around => desk_with hs _ files
    apply zipAsk_moves hdone
    · intro _ hcloses
      have hsame := (step.enter_dues app.zip).trans hnext.dues
      rw [hdesk] at hcloses
      rw [hnext.around] at hspends
      obtain ⟨_, _, user, said, _⟩ := app
      obtain ⟨huser, hdeeds⟩ := hnext.user
      cases huser
      cases hdeeds
      exact .stalls result herrand hnext.said hspends hsame hcloses
    · intro _ _ _ _ _ _ hspends' hpath hbegun hasked
      rw [hdesk] at hbegun
      exact .asks result herrand step hnext (hspends.trans hspends') hpath hbegun hasked
  | landed hout hstate =>
    rw [happ] at hstate
    exact .single (.of_eq (.lands result herrand hout hstate) (desk_edit (desk_edit hs)))
  | ignored _ hmeasuring hreading hlocating hfetching =>
    rw [happ] at hmeasuring hreading hlocating hfetching
    have hmove := Move.ignores result herrand hmeasuring hreading hlocating hfetching
    exact .single (.of_eq hmove (desk_edit hs))

end Download

theorem errand_none {s : Sys σ} (h : ¬ s.fetch.conn.isSome) : s.desk.errand = none := by
  have hnone : s.fetch.conn = none := by simpa using h
  exact congrArg (Option.map Conn.errand) hnone

theorem zipFetchStart_moves : Moves s.desk (zipFetchStart s request).2.desk := by
  unfold zipFetchStart
  iterate 4
    split
    · exact .refl
  rename_i hbusy _ hconn
  have hbusy : zipFetchBusy s.app.zip = false := by simpa using hbusy
  have hspends : ∀ clock, s.app.around.Spends { s.app.around with clock } :=
    fun _ => ⟨List.suffix_rfl, rfl⟩
  simp only
  generalize hs' : answer (edit s fun _ => request.zip) _ = s'
  have hbegun := fetchStart_begun s' (headRequest request.zip) (next 0 s.app.around.clock).1
  generalize fetchStart s' (headRequest request.zip) (next 0 s.app.around.clock).1 = started at *
  obtain ⟨refused, _⟩ := started
  subst hs'
  cases refused with
  | none => exact .single (.starts request hbusy (errand_none hconn) (hspends _) hbegun)
  | some => exact .single (.fallsThrough request hbusy (errand_none hconn) (hspends _) hbegun)

theorem zipFetchCancel_moves : Moves s.desk (zipFetchCancel s).desk := by
  obtain ⟨_, files, hspends, hgone, heq⟩ := zipFetchCancel_ends
  have hdesk : (if s.app.zip.borrowed then fetchCancel s else s).desk =
      if s.desk.app.zip.borrowed then s.desk.cancel else s.desk := by
    rw [apply_ite Sys.desk, fetchCancel_desk]
    rfl
  rw [heq]
  exact .single (.of_eq (.cancels hspends hgone) (desk_with hdesk _ files))

theorem hostCall_moves : Moves s.desk (hostCall s c).desk := by
  cases c with
  | start => exact zipFetchStart_moves
  | cancel => exact zipFetchCancel_moves
  | fetcher c hforeign =>
    cases c with
    | start request nowMs => exact .single (.fetches hforeign (fetchStart_begun s request nowMs))
    | cancel | shutdown => exact .single (.of_eq .drops (fetchCancel_desk s))
    | connectTo | setUserAgent => exact .refl
  | own user files => exact .single (.own user files)

theorem hostSteps_moves (h : Relation.ReflTransGen HostStep s s') : Moves s.desk s'.desk := by
  induction h with
  | refl => exact .refl
  | tail _ hstep ih =>
    obtain ⟨c, rfl⟩ := hstep
    exact ih.trans hostCall_moves

theorem Customer.done_moves (customer : Customer τ) (id : Nat) (s : System τ) :
    Moves s.desk (customer.done id s).desk :=
  hostSteps_moves (customer.done_steps id s)

theorem moves_employs (customer : Customer τ) (d₀ : Desk (Host τ)) :
    Employs customer.run (Moves d₀) where
  works hworks h := h.tail (.works hworks)
  ticked nowMs h := h.tail (.ticked nowMs)
  unheard o herrand hid h := h.tail (.unheard o herrand hid)
  told {d e id o result idle} herrand hid hout hs h := by
    obtain ⟨_, _⟩ := e
    cases hid
    cases hout
    unfold Customer.run
    split
    · rename_i heq
      subst heq
      exact h.trans (zipOnFetch_moves customer.done_moves hs herrand)
    · rename_i hother
      apply (h.tail (.heard result id herrand hother)).trans
      rw [← hs]
      exact hostSteps_moves (customer.fetched_steps id result idle)

theorem zipInflate_moves {s : System τ} (customer : Customer τ)
    (hpending : d.app.zip.inflatePending)
    (hs : s.desk =
      { d with app := { d.app with zip := { d.app.zip with inflatePending := false } } }) :
    Moves d (zipInflate customer.done s).desk := by
  obtain ⟨_, _, _, ⟨_, _, hspends, rfl⟩, hend, hstate⟩ := zipInflate_ends customer.done s
  have happ : s.app = { d.app with zip := { d.app.zip with inflatePending := false } } :=
    congrArg Desk.app hs
  rw [hend]
  apply zipFinish_moves customer.done_moves
  intro _ hcloses
  rw [desk_with hs] at hcloses
  rw [happ] at hcloses hspends hstate
  exact .inflates hpending hspends hstate hcloses

theorem hostStep_moves (customer : Customer τ) (s : System τ) (op : HostOp τ) :
    Moves s.desk (hostStep customer s op).desk := by
  cases op with
  | call => exact hostCall_moves
  | zipTick =>
    unfold hostStep zipFetchTick
    simp only
    split
    · exact .refl
    · rename_i hpending
      have hpending : s.app.zip.inflatePending = true := by simpa using hpending
      exact zipInflate_moves customer hpending rfl
  | tick nowMs => exact (moves_employs customer s.desk).fetchTick .refl nowMs
  | socketEvent => exact (moves_employs customer s.desk).fetchOnFd .refl
  | lookupEvent => exact (moves_employs customer s.desk).resolveTryFinish .refl

theorem hostRun_moves (customer : Customer τ) (s : System τ) (ops : List (HostOp τ)) :
    Moves s.desk (hostRun customer s ops).desk := by
  induction ops generalizing s with
  | nil => exact .refl
  | cons op _ ih => exact (hostStep_moves customer s op).trans (ih _)

end Inkwell.ZipFetch
