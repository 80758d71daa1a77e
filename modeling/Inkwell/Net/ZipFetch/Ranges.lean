import Inkwell.Net.Fetch.Run
import Inkwell.Net.ZipFetch.Moves

namespace Inkwell.ZipFetch
open Net Http Zip Fetch Library
open List hiding zip

def headSize : List Event → Option Nat
  | [] => none
  | .done id result :: t =>
    if id = zipCallback ∧ (latestRequest t).any (·.method == .head) then
      fetchContentLength result.body
    else headSize t
  | _ :: t => headSize t

def RangeRead (request : Request) : Prop :=
  request.onDone = some zipCallback ∧ request.method = .get

/-- A directory read apart is not empty, the header of a member in front of a directory at the
very start is inside the archive, and so are the member's bytes where its local header puts
them. -/
def Finding.Fits : Finding → Prop
  | .apart e => e.centralSize ≠ 0
  | .member zipSize centralOffset entry =>
    centralOffset = 0 → entry.localHeaderOffset + localHeaderSize ≤ zipSize
  | .data zipSize entry nameLen extraLen =>
    memberStart entry nameLen extraLen + entry.compressedSize ≤ zipSize

instance (finding : Finding) : Decidable finding.Fits :=
  match finding with
  | .apart e => inferInstanceAs (Decidable (e.centralSize ≠ 0))
  | .member zipSize centralOffset entry => inferInstanceAs (Decidable
      (centralOffset = 0 → entry.localHeaderOffset + localHeaderSize ≤ zipSize))
  | .data zipSize entry nameLen extraLen => inferInstanceAs (Decidable
      (memberStart entry nameLen extraLen + entry.compressedSize ≤ zipSize))

def AllFit (said : List Finding) : Prop := ∀ finding ∈ said, finding.Fits

instance (said : List Finding) : Decidable (AllFit said) :=
  inferInstanceAs (Decidable (∀ finding ∈ said, finding.Fits))

/-- A range request asks for bytes of the archive, and caps its file at their number. -/
def Within (e : Event) (t : List Event) : Prop :=
  match e with
  | .started request _ => RangeRead request → ∃ first last size,
      request.headers = [rangeLine first last] ∧ headSize t = some size ∧ first ≤ last ∧
        last < size ∧ request.outputMax = last - first + 1
  | _ => True

def Fit (zip : Download) : Step → Prop
  | .window => zip.directoryOnly = false ∧ localHeaderSize ≤ zip.zipSize
  | .central => 0 < zip.windowLen ∧ zip.windowOffset = zip.centralOffset ∧
      zip.centralOffset + zip.windowLen + eocdSize ≤ zip.zipSize
  | .header => 0 < zip.entry.compressedSize ∧
      zip.entry.localHeaderOffset + localHeaderSize ≤ zip.zipSize
  | .member => 0 < zip.entry.compressedSize ∧
      zip.dataOffset + zip.entry.compressedSize ≤ zip.zipSize

structure Poised (zip : Download) (step : Step) : Prop where
  state : zip.state = step.state
  latest : zip.step = some step
  borrowed : zip.borrowed
  pending : zip.inflatePending = false
  fit : Fit zip step
  size : zip.zipSize < 2 ^ 64
  window : step = .window → zip.windowOffset + zip.windowLen = zip.zipSize
  central : step = .central → zip.directoryOnly

inductive Awaiting (zip : Download) (t : List Event) : Prop
  | head (hstate : zip.state = .measuring) (hborrowed : zip.borrowed)
      (hpending : zip.inflatePending = false) (hstep : zip.step = none)
      (hpass : zip.directoryOnly = false)
      (hrequest : latestRequest t = some request) (hmethod : request.method = .head)
  | range (step : Step) (h : Poised zip step) (hsize : headSize t = some zip.zipSize)
      (hrequest : latestRequest t = some request) (hmethod : request.method = .get)

/-- Every range asked for is in the archive, and a download with a request in flight is ready for
its end, unless an archive has said something that does not fit. -/
def Kept (d : Desk (Host τ)) : Prop :=
  AllFit d.app.said → Always Within d.trace ∧
    ∀ path, d.errand = some ⟨some zipCallback, path⟩ → Awaiting d.app.zip d.trace

def Calm (d : Desk (Host τ)) : Prop :=
  AllFit d.app.said → Always Within d.trace ∧ ∀ path, d.errand ≠ some ⟨some zipCallback, path⟩

theorem Step.enter_zipSize (step : Step) (zip : Download) :
    (step.enter zip).zipSize = zip.zipSize := by
  cases step <;> rfl

theorem tailOffset_lt (h : localHeaderSize ≤ zipSize) : tailOffset zipSize < zipSize := by
  unfold tailOffset tailWindow localHeaderSize at *
  split <;> omega

theorem Fit.poised {step : Step} (h : Fit zip step) (hborrowed : zip.borrowed)
    (hpending : zip.inflatePending = false) (hsize : zip.zipSize < 2 ^ 64) :
    Poised (step.enter zip) step := by
  cases step with
  | window =>
    refine ⟨rfl, rfl, hborrowed, hpending, h, hsize, ?_, nofun⟩
    have hlt := tailOffset_lt h.2
    simp only [Step.enter]
    omega
  | central => exact ⟨rfl, rfl, hborrowed, hpending, h, hsize, nofun, fun _ => rfl⟩
  | header | member => exact ⟨rfl, rfl, hborrowed, hpending, h, hsize, nofun, nofun⟩

theorem sub64_one (hpos : 0 < n) (hn : n < 2 ^ 64) : sub64 n 1 = n - 1 := by
  unfold sub64 u64
  omega

theorem Fit.bounds {step : Step} (h : Fit zip step) (hsize : zip.zipSize < 2 ^ 64) :
    (step.range (step.enter zip)).1 ≤ (step.range (step.enter zip)).2 ∧
      (step.range (step.enter zip)).2 < zip.zipSize := by
  cases step with
  | window =>
    have hlt := tailOffset_lt h.2
    simp only [Step.range, Step.enter]
    rw [sub64_one (by omega) hsize]
    omega
  | central =>
    obtain ⟨_, _, _⟩ := h
    simp only [Step.range, Step.enter]
    rw [sub64_one (by omega) (by omega)]
    omega
  | header =>
    obtain ⟨_, hend⟩ := h
    unfold localHeaderSize at hend
    simp only [Step.range, Step.enter, localHeaderSize]
    rw [sub64_one (by omega) (by omega)]
    omega
  | member =>
    obtain ⟨_, _⟩ := h
    simp only [Step.range, Step.enter]
    rw [sub64_one (by omega) (by omega)]
    omega

theorem leadingNumber_le (h : leadingNumber parsed bytes = some n) (hp : parsed ≤ uint64Max) :
    n ≤ uint64Max := by
  induction bytes generalizing parsed with
  | nil =>
    cases h
    exact hp
  | cons c _ ih =>
    unfold leadingNumber at h
    split at h
    · cases h
      exact hp
    rename_i hc
    have hdigit : digit c = true := by simpa using hc
    split at h
    · cases h
    · have hlt := digit_lt hdigit
      apply ih h
      unfold uint64Max at *
      omega

theorem contentLengthFrom_le (h : contentLengthFrom begins bytes = some n) : n ≤ uint64Max := by
  induction bytes generalizing begins with
  | nil => cases h
  | cons c _ ih =>
    unfold contentLengthFrom at h
    split at h
    · unfold contentLengthValue at h
      simp only at h
      split at h
      · exact leadingNumber_le h (Nat.zero_le _)
      · cases h
    · exact ih h

theorem fetchContentLength_lt (h : fetchContentLength bytes = some n) : n < 2 ^ 64 := by
  have hle := contentLengthFrom_le h
  unfold uint64Max at hle
  omega

theorem latestRequest_mute (he : Event.mute e) : latestRequest (e :: t) = latestRequest t := by
  cases e <;> first | rfl | cases he

theorem headSize_mute (he : Event.mute e) : headSize (e :: t) = headSize t := by
  cases e <;> first | rfl | cases he

theorem Within.mute (he : Event.mute e) : Within e t := by
  cases e with
  | started => cases he
  | _ => trivial

theorem headSize_done (hrequest : latestRequest t = some request) (hmethod : request.method = .get)
    (id : Nat) (result : Result) : headSize (.done id result :: t) = headSize t := by
  apply if_neg
  rintro ⟨_, hhead⟩
  rw [hrequest] at hhead
  simp [hmethod] at hhead

theorem Awaiting.after (h : Awaiting zip t) (hrequest : latestRequest t' = latestRequest t)
    (hsize : headSize t' = headSize t) : Awaiting zip t' := by
  cases h with
  | head hstate hborrowed hpending hstep hpass hlast hmethod =>
    exact .head hstate hborrowed hpending hstep hpass (hrequest.trans hlast) hmethod
  | range step hpoised hzip hlast hmethod =>
    exact .range step hpoised (hsize.trans hzip) (hrequest.trans hlast) hmethod

theorem Awaiting.mutely (h : Awaiting zip t) (hm : Mutely t t') : Awaiting zip t' :=
  hm.keeps (fun _ _ he h => h.after (latestRequest_mute he) (headSize_mute he)) h

theorem Within.mutely (h : Always Within t) (hm : Mutely t t') : Always Within t' :=
  hm.keeps (fun _ _ he h => h.cons (.mute he)) h

theorem Calm.kept (h : Calm d) : Kept d := by
  intro hfit
  obtain ⟨hwithin, hfree⟩ := h hfit
  exact ⟨hwithin, fun path herrand => absurd herrand (hfree path)⟩

theorem Calm.move (h : Calm d) (hsaid : d'.app.said = d.app.said)
    (htrace : d'.trace = d.trace) (herrand : d'.errand = d.errand) : Calm d' := by
  intro hfit
  rw [hsaid] at hfit
  rw [htrace, herrand]
  exact h hfit

theorem Calm.idle (h : AllFit d.app.said → Always Within d.trace)
    (hidle : d.errand = none) : Calm d := by
  intro hfit
  refine ⟨h hfit, ?_⟩
  rw [hidle]
  nofun

section Start
variable {d d' : Desk (Host τ)}

theorem begun_calm (h : Begun request nowMs d (some e) d') (hidle : d.errand = none)
    (hwithin : AllFit d.app.said → Always Within d.trace)
    (hrequest : AllFit d.app.said → Within (.started request nowMs) d.trace) : Calm d' := by
  cases h with
  | refused => exact .idle hwithin hidle
  | failed _ hworks o =>
    refine .idle ?_ rfl
    intro hfit
    have happ : (Desk.ended _ o).app = d.app := hworks.app
    rw [happ] at hfit
    have hstarted := (hwithin hfit).cons (hrequest hfit)
    exact (Within.mutely hstarted hworks.trace).cons trivial

theorem begun_kept (h : Begun request nowMs d refused d') (hd : Kept d)
    (hrequest : AllFit d.app.said → Within (.started request nowMs) d.trace)
    (hawaiting : AllFit d.app.said → request.onDone = some zipCallback →
      Awaiting d.app.zip (.started request nowMs :: d.trace)) : Kept d' := by
  cases h with
  | refused => exact hd
  | failed hidle hworks o =>
    have hfailed : Begun request nowMs d (some .eio) _ := .failed hidle hworks o
    exact (begun_calm hfailed hidle (fun hfit => (hd hfit).1) hrequest).kept
  | accepted _ hworks =>
    intro hfit
    have happ : (Desk.accept _ request).app = d.app := hworks.app
    rw [happ] at hfit ⊢
    have hstarted := (hd hfit).1.cons (hrequest hfit)
    refine ⟨(Within.mutely hstarted hworks.trace).cons trivial, ?_⟩
    intro _ herrand
    have hid : request.onDone = some zipCallback := congrArg Errand.onDone (Option.some.inj herrand)
    exact ((hawaiting hfit hid).mutely hworks.trace).after rfl rfl

end Start

theorem Closes.kept (h : Closes state error d d') (hd : Calm d) : Kept d' := by
  cases h with
  | intro =>
    apply Calm.kept
    exact hd.move rfl rfl rfl

theorem Asked.kept {d d₁ d' : Desk (Host τ)} {step : Step} {e : Option Errno} (h : Asked d₁ e d')
    (hbegun : Begun (step.request (step.enter zip) path) nowMs d e d₁)
    (hzip : d.app.zip = step.enter zip) (hidle : d.errand = none)
    (hinside : AllFit d.app.said → Always Within d.trace ∧ headSize d.trace = some zip.zipSize ∧
      zip.borrowed ∧ zip.inflatePending = false ∧ zip.zipSize < 2 ^ 64 ∧ Fit zip step) :
    Kept d' := by
  have hwithin : AllFit d.app.said → Always Within d.trace := fun hfit => (hinside hfit).1
  have hrequest : AllFit d.app.said →
      Within (.started (step.request (step.enter zip) path) nowMs) d.trace := by
    intro hfit _
    obtain ⟨_, hsize, _, _, hlt, hrange⟩ := hinside hfit
    obtain ⟨hfirst, hlast⟩ := hrange.bounds hlt
    refine ⟨_, _, _, rfl, hsize, hfirst, hlast, ?_⟩
    simp only [Step.request, rangeRequest, sub64, u64]
    omega
  cases h with
  | refused e hcloses => exact hcloses.kept (begun_calm hbegun hidle hwithin hrequest)
  | accepted =>
    apply begun_kept hbegun
    · apply Calm.kept
      exact .idle hwithin hidle
    · exact hrequest
    · intro hfit _
      obtain ⟨_, hsize, hborrowed, hpending, hlt, hrange⟩ := hinside hfit
      have hsame : (step.enter zip).zipSize = zip.zipSize := step.enter_zipSize zip
      rw [← hsame] at hsize
      rw [hzip]
      exact .range step (hrange.poised hborrowed hpending hlt) hsize rfl rfl

theorem AllFit.cons (h : AllFit (finding :: said)) : finding.Fits ∧ AllFit said :=
  ⟨h finding mem_cons_self, fun other hother => h other (mem_cons_of_mem _ hother)⟩

theorem findEnd_inside (hend : findEnd window windowOffset = some (some e))
    (hwindow : windowOffset + window.length = zipSize) :
    e.centralOffset + e.centralSize + eocdSize ≤ zipSize := by
  obtain ⟨_, _, hplace⟩ := findEnd_found hend
  unfold u64 at hplace
  omega

theorem Directory.inside {step : Step} (h : Directory zip centralOffset central entries)
    (hp : Poised zip step) (hstate : zip.state = .reading) :
    centralOffset + central.length + eocdSize ≤ zip.zipSize := by
  cases step with
  | header | member => cases hp.state.symm.trans hstate
  | window =>
    cases h with
    | tail _ window hwindow e hend hslice =>
      rw [centralSlice_length hslice]
      apply findEnd_inside hend
      rw [hwindow]
      exact hp.window rfl
    | apart hpass => cases hpass.symm.trans hp.fit.1
  | central =>
    cases h with
    | tail hpass => cases hpass.symm.trans (hp.central rfl)
    | apart _ hwindow =>
      rw [hwindow]
      exact hp.fit.2.2

/-- The header of a member chosen is in the archive: the directory is behind it, or the archive
says so. -/
theorem Chosen.fit {step : Step} (h : Chosen zip centralOffset entry) (hp : Poised zip step)
    (hstate : zip.state = .reading)
    (hfits : (Finding.member zip.zipSize centralOffset entry).Fits) :
    entry.localHeaderOffset + localHeaderSize ≤ zip.zipSize := by
  obtain ⟨_, _, hdirectory, hfind⟩ := h.listed
  obtain ⟨hheader, _, _⟩ := findMember_found hfind
  have hinside := hdirectory.inside hp hstate
  rcases h.placed with hzero | hplaced
  · exact hfits hzero
  · unfold u64 at hplaced
    unfold centralHeaderSize at hheader
    unfold localHeaderSize
    omega

theorem Awaiting.poised (h : Awaiting zip t) (hstate : zip.state ≠ .measuring) :
    ∃ step, Poised zip step ∧
      ∀ id result o, headSize (.done id result :: .completed o :: t) = some zip.zipSize := by
  cases h with
  | head hmeasuring => exact absurd hmeasuring hstate
  | range step hpoised hsize hrequest hmethod =>
    refine ⟨step, hpoised, ?_⟩
    intro _ _ o
    have hlast : latestRequest (.completed o :: t) = some _ := hrequest
    rw [headSize_done hlast hmethod]
    exact hsize

theorem Awaiting.measured (h : Awaiting zip t) (hstate : zip.state = .measuring) :
    zip.borrowed ∧ zip.inflatePending = false ∧ zip.directoryOnly = false ∧
      headSize (.done zipCallback result :: .completed o :: t) =
        fetchContentLength result.body := by
  cases h with
  | head _ hborrowed hpending _ hpass hrequest hmethod =>
    refine ⟨hborrowed, hpending, hpass, if_pos ⟨rfl, ?_⟩⟩
    have hlast : latestRequest (.completed o :: t) = some _ := hrequest
    rw [hlast]
    simp [hmethod]
  | range step hpoised =>
    have hstep := hpoised.state.symm.trans hstate
    cases step <;> cases hstep

theorem Next.fit {step : Step} (h : Next result app step app')
    (hawaiting : Awaiting app.zip t) (hfit : AllFit app'.said) :
    headSize (.done zipCallback result :: .completed result.outcome :: t) = some app'.zip.zipSize ∧
      app'.zip.borrowed ∧ app'.zip.inflatePending = false ∧ app'.zip.zipSize < 2 ^ 64 ∧
      Fit app'.zip step := by
  -- What is found out of an archive is found out by a range read, a step of the download.
  have hfound : app.zip.state ≠ .measuring →
      headSize (.done zipCallback result :: .completed result.outcome :: t) = some app.zip.zipSize ∧
        ∃ step, Poised app.zip step := by
    intro hstate
    obtain ⟨step, hpoised, hreported⟩ := hawaiting.poised hstate
    exact ⟨hreported _ _ _, step, hpoised⟩
  cases h with
  | again _ _ _ hstep =>
    cases hawaiting with
    | head _ _ _ hnone => cases hstep.symm.trans hnone
    | range _ hpoised hsize hrequest hmethod =>
      cases hstep.symm.trans hpoised.latest
      have hlast : latestRequest (.completed result.outcome :: t) = some _ := hrequest
      rw [headSize_done hlast hmethod]
      exact ⟨hsize, hpoised.borrowed, hpoised.pending, hpoised.size, hpoised.fit⟩
  | measured _ hstate _ hsize hleast =>
    obtain ⟨hborrowed, hpending, hpass, hreported⟩ := hawaiting.measured hstate
    rw [hsize] at hreported
    exact ⟨hreported, hborrowed, hpending, fetchContentLength_lt hsize, hpass, hleast⟩
  | apart _ hstate hpass window hwindow e hend =>
    obtain ⟨hfits, _⟩ := AllFit.cons hfit
    obtain ⟨hreported, step, hpoised⟩ := hfound (by rw [hstate]; nofun)
    have hinside : e.centralOffset + e.centralSize + eocdSize ≤ app.zip.zipSize := by
      cases step with
      | header | member => cases hpoised.state.symm.trans hstate
      | central => cases hpass.symm.trans (hpoised.central rfl)
      | window =>
        apply findEnd_inside hend
        rw [hwindow]
        exact hpoised.window rfl
    exact ⟨hreported, hpoised.borrowed, hpoised.pending, hpoised.size, Nat.pos_of_ne_zero hfits,
      rfl, hinside⟩
  | chosen _ hstate _ _ hchosen =>
    obtain ⟨hfits, _⟩ := AllFit.cons hfit
    obtain ⟨hreported, _, hpoised⟩ := hfound (by rw [hstate]; nofun)
    exact ⟨hreported, hpoised.borrowed, hpoised.pending, hpoised.size, hchosen.compressed.1,
      hchosen.fit hpoised hstate hfits⟩
  | placed _ hstate header _ _ hdata =>
    obtain ⟨hfits, _⟩ := AllFit.cons hfit
    obtain ⟨hreported, step, hpoised⟩ := hfound (by rw [hstate]; nofun)
    cases step with
    | window | central | member => cases hpoised.state.symm.trans hstate
    | header =>
      have hle := (localDataStart_place hdata).1.trans_le (Nat.mod_le _ _)
      exact ⟨hreported, hpoised.borrowed, hpoised.pending, hpoised.size, hpoised.fit.1,
        (Nat.add_le_add_right hle _).trans hfits⟩

theorem Awaiting.held (h : Awaiting zip t) : zip.borrowed ∧ zip.inflatePending = false := by
  cases h with
  | head _ hborrowed hpending => exact ⟨hborrowed, hpending⟩
  | range _ hpoised => exact ⟨hpoised.borrowed, hpoised.pending⟩

theorem Kept.cancel (h : Kept d) : Calm d.cancel := by
  unfold Desk.cancel
  split
  · refine .idle ?_ rfl
    intro hfit
    exact (h hfit).1.cons trivial
  · rename_i hnone
    refine .idle (fun hfit => (h hfit).1) ?_
    simpa using hnone

theorem AllFit.suffix (h : AllFit said) (hs : said' <:+ said) : AllFit said' :=
  fun finding hmem => h finding (hs.subset hmem)

theorem Move.kept (h : Move d d') (hd : Kept d) : Kept d' := by
  -- The desk as the completion of the download finds it.
  have htold : ∀ id (result : Result) said, d.app.said <:+ said → AllFit said →
      Always Within (.done id result :: .completed result.outcome :: d.trace) := by
    intro _ result _ hsaid hfit
    have hcompleted : Always Within (.completed result.outcome :: d.trace) :=
      (hd (hfit.suffix hsaid)).1.cons trivial
    exact hcompleted.cons trivial
  cases h with
  | works hworks =>
    intro hfit
    rw [hworks.app] at hfit ⊢
    obtain ⟨hwithin, hawaiting⟩ := hd hfit
    refine ⟨Within.mutely hwithin hworks.trace, ?_⟩
    intro path herrand
    rw [hworks.errand] at herrand
    exact (hawaiting path herrand).mutely hworks.trace
  | ticked =>
    intro hfit
    obtain ⟨hwithin, hawaiting⟩ := hd hfit
    refine ⟨hwithin.cons trivial, ?_⟩
    intro path herrand
    exact (hawaiting path herrand).after rfl rfl
  | unheard =>
    apply Calm.kept
    exact .idle (fun hfit => (hd hfit).1.cons trivial) rfl
  | heard result id =>
    apply Calm.kept
    exact .idle (htold id result d.app.said suffix_rfl) rfl
  | own => exact hd
  | fetches hforeign hbegun =>
    apply begun_kept hbegun hd
    · intro _ hread
      exact absurd hread.1 hforeign
    · intro _ hid
      exact absurd hid hforeign
  | drops => exact hd.cancel.kept
  | starts _ _ hidle _ hbegun =>
    apply begun_kept hbegun
    · apply Calm.kept
      exact .idle (fun hfit => (hd hfit).1) hidle
    · intro _ hread
      cases hread.2
    · intro _ _
      exact .head rfl rfl rfl rfl rfl rfl rfl
  | fallsThrough _ _ hidle _ hbegun =>
    have hcalm := begun_calm hbegun hidle (fun hfit => (hd hfit).1) (fun _ hread => nomatch hread.2)
    apply Calm.kept
    exact hcalm.move rfl rfl rfl
  | cancels =>
    have hcalm : Calm (if d.app.zip.borrowed then d.cancel else d) := by
      split
      · exact hd.cancel
      · rename_i hborrowed
        intro hfit
        obtain ⟨hwithin, hawaiting⟩ := hd hfit
        refine ⟨hwithin, ?_⟩
        intro path herrand
        exact hborrowed (hawaiting path herrand).held.1
    have happ : (if d.app.zip.borrowed then d.cancel else d).app = d.app := by
      split
      · exact d.cancel_app
      · rfl
    apply Calm.kept
    exact hcalm.move (congrArg Host.said happ).symm rfl rfl
  | stalls result _ hsaid _ _ hcloses =>
    apply hcloses.kept
    exact .idle (htold _ result _ hsaid) rfl
  | asks result herrand _ hnext _ _ hbegun hasked =>
    apply hasked.kept hbegun rfl rfl
    intro hfit
    refine ⟨htold _ result _ hnext.said hfit, ?_⟩
    obtain ⟨_, hawaiting⟩ := hd (hfit.suffix hnext.said)
    exact hnext.fit (hawaiting _ herrand) hfit
  | lands result | ignores result =>
    apply Calm.kept
    exact .idle (htold _ result d.app.said suffix_rfl) rfl
  | inflates hpending _ _ hcloses =>
    apply hcloses.kept
    intro hfit
    obtain ⟨hwithin, hawaiting⟩ := hd hfit
    refine ⟨hwithin, ?_⟩
    intro path herrand
    rw [(hawaiting path herrand).held.2] at hpending
    cases hpending

theorem hostBoot_kept : Kept (hostBoot hasLoop world around files user).desk := by
  apply Calm.kept
  exact .idle (fun _ => .nil) rfl

theorem latestRequest_started (h : latestRequest t = some request)
    (hmethod : request.method = .get) :
    ∃ nowMs before, .started request nowMs :: before <:+ t ∧ headSize t = headSize before := by
  induction t with
  | nil => cases h
  | cons e t ih =>
    cases e with
    | started _ nowMs =>
      cases h
      exact ⟨nowMs, t, suffix_rfl, rfl⟩
    | done =>
      have hold : latestRequest t = some request := h
      obtain ⟨nowMs, before, hsuffix, hsize⟩ := ih hold
      refine ⟨nowMs, before, hsuffix.trans (suffix_cons _ _), ?_⟩
      rw [headSize_done hold hmethod]
      exact hsize
    | _ =>
      obtain ⟨nowMs, before, hsuffix, hsize⟩ := ih h
      exact ⟨nowMs, before, hsuffix.trans (suffix_cons _ _), hsize⟩

/-- Every range a download asks for is one of the archive the HEAD reported, and its file as short
as the range, if what the archives say fits where the code does not look. -/
theorem run_ranges_within (customer : Customer τ) (hasLoop : Bool) (world : World)
    (around : Surroundings) (files : Bytes → Option Bytes) (user : τ) (ops : List (HostOp τ))
    (hfit : AllFit (hostRun customer (hostBoot hasLoop world around files user) ops).app.said) :
    ∀ t request, t <:+ (hostRun customer (hostBoot hasLoop world around files user) ops).trace →
      latestRequest t = some request → RangeRead request →
      ∃ first last size, request.headers = [rangeLine first last] ∧ headSize t = some size ∧
        first ≤ last ∧ last < size ∧
        ∀ path bytes, fileOf t = some (path, bytes) → bytes.length ≤ last - first + 1 := by
  have hkept := (hostRun_moves customer (hostBoot hasLoop world around files user) ops).keeps
    (fun _ _ hmove => hmove.kept) hostBoot_kept
  obtain ⟨ops', hrun⟩ := hostRun_run customer (hostBoot hasLoop world around files user) ops
  have hsound := run_upholds sound_upheld (fun _ _ h => h.quiet rfl rfl) customer.callback _
    (boot_resting hasLoop world files ({ around, user } : Host τ))
    (boot_sound hasLoop world files ({ around, user } : Host τ)) ops'
  have hboot : boot hasLoop world files ({ around, user } : Host τ) =
      hostBoot hasLoop world around files user := rfl
  rw [hboot, ← hrun] at hsound
  intro t request ht hrequest hread
  obtain ⟨_, _, hsuffix, hsize⟩ := latestRequest_started hrequest hread.2
  obtain ⟨first, last, size, hheaders, hreported, hfirst, hlast, hcap⟩ :=
    (hkept hfit).1 _ _ (hsuffix.trans ht) hread
  refine ⟨first, last, size, hheaders, hsize.trans hreported, hfirst, hlast, ?_⟩
  intro path bytes hfile
  rw [← hcap]
  have hpos : request.outputMax > 0 := by omega
  exact (hsound.clean t ht).cap request path bytes hrequest hpos hfile

def le16 (n : Nat) : Bytes := [UInt8.ofNat n, UInt8.ofNat (n / 256)]
def le32 (n : Nat) : Bytes := le16 n ++ le16 (n / 65536)

def sampleLocal : Bytes :=
  le32 sigLocal ++ List.replicate 22 0 ++ le16 1 ++ le16 0 ++ ascii "m" ++ ascii "!"

def sampleCentral (localHeaderOffset : Nat) : Bytes :=
  le32 sigCentral ++ List.replicate 16 0 ++ le32 1 ++ le32 1 ++ le16 1 ++ List.replicate 12 0 ++
    le32 localHeaderOffset ++ ascii "m"

def sampleEnd (centralSize centralOffset : Nat) : Bytes :=
  le32 sigEocd ++ List.replicate 6 0 ++ le16 1 ++ le32 centralSize ++ le32 centralOffset ++ le16 0

def idleCustomer : Customer Unit where
  done _ s := s
  fetched _ _ s := s
  done_steps _ _ := .refl
  fetched_steps _ _ _ := .refl

def sampleWorld (replies : List Bytes) : World :=
  { literal := fun _ _ => some ⟨2, [127, 0, 0, 1]⟩
    opens := replies.map fun _ => .ok 3
    watches := replies.map fun _ => .ok 0
    handshakes := replies.map fun _ => .ok ()
    sslReads := replies.map fun reply => { answer := .ok reply } }

def sampleLength (length : Nat) : Bytes :=
  ascii "HTTP/1.1 200 OK\r\nContent-Length: " ++ ascii (toString length) ++ ascii "\r\n\r\n"

def sampleRange (bytes : Bytes) : Bytes :=
  ascii "HTTP/1.1 206 Partial Content\r\nContent-Length: " ++ ascii (toString bytes.length) ++
    ascii "\r\n\r\n" ++ bytes

def sampleRequest : ZipRequest :=
  { url := ascii "https://h/z", member := ascii "m", stagingDir := ascii "/s", maxMemberBytes := 9 }

def sampleRun (replies : List Bytes) : System Unit :=
  hostRun idleCustomer (hostBoot true (sampleWorld replies) {} (fun _ => none) ())
    (.call (.start sampleRequest) :: replies.map fun _ => .socketEvent Runtime.OUT)

def sampleReplies : List Bytes :=
  [sampleLength 101, sampleRange (sampleLocal ++ sampleCentral 0 ++ sampleEnd 47 32),
    sampleRange (sampleLocal.take 30), sampleRange (ascii "!")]

def sampleAsked (file : String) (first last : Nat) : Request :=
  { url := ascii "https://h/z", headers := [rangeLine first last]
    outputPath := some (ascii file), outputMax := last - first + 1, onDone := some zipCallback }

/-- There all fits: the last byte asked for is the member's, and is staged. -/
theorem run_ranges_within_sample :
    let s := sampleRun sampleReplies
    ∃ request path, latestRequest s.trace = some request ∧ RangeRead request ∧
      request.headers = [rangeLine 31 31] ∧ fileOf s.trace = some (path, ascii "!") ∧
      ∃ first last size, request.headers = [rangeLine first last] ∧ headSize s.trace = some size ∧
        first ≤ last ∧ last < size ∧
        ∀ path bytes, fileOf s.trace = some (path, bytes) → bytes.length ≤ last - first + 1 := by
  intro s
  have hrun : AllFit s.app.said ∧
      latestRequest s.trace = some (sampleAsked "/s/zip_fetch.member" 31 31) ∧
      fileOf s.trace = some (ascii "/s/zip_fetch.member", ascii "!") := by
    decide +kernel
  obtain ⟨hfit, hrequest, hfile⟩ := hrun
  refine ⟨_, _, hrequest, ⟨rfl, rfl⟩, rfl, hfile, ?_⟩
  apply run_ranges_within idleCustomer true (sampleWorld sampleReplies) {} (fun _ => none) ()
    (.call (.start sampleRequest) :: sampleReplies.map fun _ => .socketEvent Runtime.OUT)
  · unfold s sampleRun at hfit
    exact hfit
  · exact suffix_rfl
  · exact hrequest
  · exact ⟨rfl, rfl⟩

/-- A directory at the start of an archive of 69 bytes lists a member a million bytes on, whose
header is asked for. -/
theorem header_outside_archive :
    let s := sampleRun [sampleLength 69, sampleRange (sampleCentral 1000000 ++ sampleEnd 47 0), []]
    (sampleCentral 1000000 ++ sampleEnd 47 0).length = 69 ∧
    ∃ request, latestRequest s.trace = some request ∧ RangeRead request ∧
      request.headers = [rangeLine 1000000 1000029] ∧ headSize s.trace = some 69 := by
  intro s
  have hrun : latestRequest s.trace = some (sampleAsked "/s/zip_fetch.header" 1000000 1000029) ∧
      headSize s.trace = some 69 := by
    decide +kernel
  refine ⟨by decide, _, hrun.1, ⟨rfl, rfl⟩, ?_, hrun.2⟩
  rfl

end Inkwell.ZipFetch
