import Inkwell.Net.ZipFetch.Course

namespace Inkwell.ZipFetch
open Net Http Zip Fetch List

/-- How often the range staged at a path was asked for, since the length of the archive was. -/
def attempts (path : Bytes) : List Event → Nat
  | [] => 0
  | .started request _ :: t =>
    if request.onDone ≠ some zipCallback then attempts path t
    else if request.method = .head then 0
    else if request.outputPath = some path then attempts path t + 1
    else attempts path t
  | _ :: t => attempts path t

def Step.rank : Step → Nat
  | .window => 0
  | .central => 1
  | .header => 2
  | .member => 3

/-- Twice if the download has come past the step, and once at the step unless it has tried again. -/
def Download.tries (zip : Download) (step : Step) : Nat :=
  match zip.step with
  | none => 0
  | some now =>
    if step.rank < now.rank then 2
    else if step = now then if zip.retried then 2 else 1
    else 0

theorem Download.tries_le (zip : Download) (step : Step) : zip.tries step ≤ 2 := by
  unfold Download.tries
  split
  · decide
  · split
    · exact le_refl 2
    · split
      · split <;> decide
      · decide

theorem attempts_unasked (h : Unasked events) : attempts path (events ++ t) = attempts path t := by
  refine h.skipped fun e _ he => ?_
  cases e with
  | started => cases he
  | _ => rfl

theorem attempts_foreign (h : request.onDone ≠ some zipCallback) :
    attempts path (.started request nowMs :: t) = attempts path t :=
  if_pos h

theorem attempts_head (zip : Download) :
    attempts path (.started (headRequest zip) nowMs :: t) = 0 := rfl

theorem attempts_range (step : Step) (zip : Download) :
    attempts path (.started (step.request zip staged) nowMs :: t) =
      attempts path t + if staged = path then 1 else 0 := by
  have hown : (step.request zip staged).onDone = some zipCallback := rfl
  have hpath : (step.request zip staged).outputPath = some staged := rfl
  rw [attempts, if_neg (not_not.mpr hown), if_neg nofun, hpath]
  simp only [Option.some.injEq]
  split <;> rfl

theorem Step.staged_injective {step step' : Step} (h : step.staged = step'.staged) :
    step = step' := by
  cases step <;> cases step' <;> first | rfl | cases h

theorem Next.names {step : Step} (h : Next result app step app') :
    zipPath (step.enter app'.zip) name = zipPath app.zip name := by
  cases h with
  | again _ _ step => cases step <;> rfl
  | measured | apart | chosen | placed => rfl

theorem Next.onward {step : Step} (h : Next result app step app') (hd : Underway app.zip app.said) :
    (step.enter app'.zip).step = some step ∧
    (app.zip.step = some step ∧ app.zip.retried = false ∧ (step.enter app'.zip).retried ∨
      (∀ now, app.zip.step = some now → now.rank < step.rank) ∧
        (step.enter app'.zip).retried = false) := by
  cases h with
  | again _ hretried step hstep => cases step <;> exact ⟨rfl, .inl ⟨hstep, hretried, rfl⟩⟩
  | measured _ hstate =>
    refine ⟨rfl, .inr ⟨?_, rfl⟩⟩
    cases hd with
    | head _ _ _ hnone =>
      rw [hnone]
      nofun
    | range step h =>
      have hstep := h.state.symm.trans hstate
      cases step <;> cases hstep
  | apart _ hstate hpass =>
    obtain ⟨now, h, hnow⟩ := hd.at_step hstate nofun
    refine ⟨rfl, .inr ⟨?_, rfl⟩⟩
    rw [h.latest]
    cases now with
    | window => decide
    | central => cases hpass.symm.trans (h.central rfl)
    | header | member => cases hnow
  | chosen _ hstate =>
    obtain ⟨now, h, hnow⟩ := hd.at_step hstate nofun
    refine ⟨rfl, .inr ⟨?_, rfl⟩⟩
    rw [h.latest]
    cases now with
    | window | central => decide
    | header | member => cases hnow
  | placed _ hstate =>
    obtain ⟨now, h, hnow⟩ := hd.at_step hstate nofun
    refine ⟨rfl, .inr ⟨?_, rfl⟩⟩
    rw [h.latest]
    cases now with
    | header => decide
    | window | central | member => cases hnow

theorem Download.tries_at {zip : Download} {step : Step} (h : zip.step = some step) :
    zip.tries step = if zip.retried then 2 else 1 := by
  rw [Download.tries, h]
  simp

theorem Download.tries_past {zip : Download} {step : Step} (h : zip.step = some now)
    (hlt : step.rank < now.rank) : zip.tries step = 2 := by
  rw [Download.tries, h]
  exact if_pos hlt

theorem Download.tries_ahead {zip : Download} {step : Step}
    (h : ∀ now, zip.step = some now → now.rank < step.rank) : zip.tries step = 0 := by
  unfold Download.tries
  split
  · rfl
  · rename_i now hnow
    have hlt := h now hnow
    have hne : step ≠ now := by
      rintro rfl
      exact lt_irrefl _ hlt
    rw [if_neg (by omega), if_neg hne]

theorem Step.rank_injective {step step' : Step} (h : step.rank = step'.rank) : step = step' := by
  cases step <;> cases step' <;> first | rfl | cases h

theorem Next.tries {step : Step} (h : Next result app step app') (hd : Underway app.zip app.said)
    (other : Step) : app.zip.tries other + (if other = step then 1 else 0) ≤
      (step.enter app'.zip).tries other := by
  obtain ⟨hlatest, hcases⟩ := h.onward hd
  rcases Nat.lt_trichotomy other.rank step.rank with hlt | heq | hgt
  · have hne : other ≠ step := by
      rintro rfl
      exact Nat.lt_irrefl _ hlt
    rw [if_neg hne, Download.tries_past hlatest hlt]
    exact app.zip.tries_le other
  · cases Step.rank_injective heq
    rw [if_pos rfl, Download.tries_at hlatest]
    rcases hcases with ⟨hstep, hfirst, hagain⟩ | ⟨hahead, hfirst⟩
    · rw [Download.tries_at hstep, hfirst, hagain]
      rfl
    · rw [Download.tries_ahead hahead, hfirst]
      rfl
  · have hne : other ≠ step := by
      rintro rfl
      exact Nat.lt_irrefl _ hgt
    have hahead : ∀ now, app.zip.step = some now → now.rank < other.rank := by
      intro now hnow
      rcases hcases with ⟨hstep, _⟩ | ⟨hahead, _⟩
      · cases hstep.symm.trans hnow
        exact hgt
      · exact Nat.lt_trans (hahead now hnow) hgt
    rw [if_neg hne, Download.tries_ahead hahead]
    exact Nat.zero_le _

/-- Each range is attempted twice at most, and those of the current download as often as it may
have been. -/
structure Counted (d : Desk (Host τ)) : Prop where
  most : ∀ t, t <:+ d.trace → ∀ path, attempts path t ≤ 2
  used : OwnErrand d.errand → ∀ step path, zipPath d.app.zip (Step.staged step) = some path →
    attempts path d.trace ≤ d.app.zip.tries step

section Counted
variable {d d' : Desk (Host τ)}

theorem Counted.range {step : Step} (hd : Counted d) (hown : OwnErrand d.errand) (hc : OnCourse d)
    (hnext : Next result d.app step app)
    (hpath : zipPath (step.enter app.zip) step.staged = some staged)
    (hother : zipPath (step.enter app.zip) other.staged = some path) :
    attempts path d.trace + (if staged = path then 1 else 0) ≤ (step.enter app.zip).tries
      other := by
  have htries := hnext.tries (hc.underway hown) other
  have hused := hd.used hown other path (hnext.names.symm.trans hother)
  have hsame : (if staged = path then 1 else 0) = if other = step then 1 else 0 := by
    apply if_congr _ rfl rfl
    constructor
    · rintro rfl
      exact Step.staged_injective (zipPath_injective hother hpath)
    · rintro rfl
      exact Option.some.inj (hpath.symm.trans hother)
  omega

theorem suffix_unasked {p : List Event → Prop}
    (hp : ∀ e t, Event.starts e = false → p t → p (e :: t)) (h : Unasked events)
    (ht : ∀ t', t' <:+ t → p t') : ∀ t', t' <:+ events ++ t → p t' := by
  induction events with
  | nil => exact ht
  | cons e _ ih =>
    obtain ⟨he, hevents⟩ := forall_mem_cons.mp h
    intro t' hsuffix
    rcases suffix_cons_iff.mp hsuffix with rfl | hold
    · exact hp e _ he (ih hevents _ suffix_rfl)
    · exact ih hevents t' hold

theorem attempts_le_unasked (h : Unasked events)
    (ht : ∀ t', t' <:+ t → ∀ path, attempts path t' ≤ 2) :
    ∀ t', t' <:+ events ++ t → ∀ path, attempts path t' ≤ 2 := by
  apply suffix_unasked _ h ht
  intro e t he hle path
  have hone : Unasked [e] := forall_mem_singleton.mpr he
  rw [← singleton_append, attempts_unasked hone]
  exact hle path

theorem Move.counted (h : Move d d') (hc : OnCourse d) (hd : Counted d) : Counted d' := by
  refine ⟨?_, ?_⟩
  · cases h.adds with
    | nothing hunasked htrace =>
      rw [htrace]
      exact attempts_le_unasked hunasked hd.most
    | request hnewer holder htrace hbegins =>
      have hmost := attempts_le_unasked holder hd.most
      rw [htrace]
      apply attempts_le_unasked hnewer
      intro t' hsuffix path
      rcases suffix_cons_iff.mp hsuffix with rfl | hold
      · have hle := hmost _ suffix_rfl path
        cases hbegins with
        | foreign hforeign =>
          rw [attempts_foreign hforeign]
          exact hle
        | head _ _ heq =>
          rw [heq, attempts_head]
          exact Nat.zero_le 2
        | @range _ _ _ hown step hnext hpath heq =>
          rw [heq, attempts_range]
          split
          · rename_i hsame
            subst hsame
            have hrange := hd.range hown hc hnext hpath hpath
            rw [if_pos rfl] at hrange
            rw [attempts_unasked holder]
            exact hrange.trans (Download.tries_le _ step)
          · exact hle
      · exact hmost t' hold path
  · intro hown step path hpath
    cases h.owns hc hown with
    | kept hown hzip hunasked htrace =>
      rw [htrace, attempts_unasked hunasked, hzip]
      rw [hzip] at hpath
      exact hd.used hown step path hpath
    | head _ _ _ hnewer htrace =>
      rw [htrace, attempts_unasked hnewer, attempts_head]
      exact Nat.zero_le _
    | range hown _ hnext hzip hstaged hnewer holder htrace =>
      rw [htrace, attempts_unasked hnewer, attempts_range, attempts_unasked holder, hzip]
      rw [hzip] at hpath
      exact hd.range hown hc hnext hstaged hpath

end Counted

end Inkwell.ZipFetch
