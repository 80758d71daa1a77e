import Inkwell.Ble.Bluez
import Inkwell.Library.Engagement

namespace Inkwell.Bluez
open List Function
open Library (Always Orderly engaged openings closings)

variable {next next' : Nat}

def Event.stage (slot : Slot) : Event → Library.Stage Nat
  | .began slot' serial => if slot' = slot then .opens serial else .neutral
  | .answered slot' serial _ _ => if slot' = slot then .closes serial else .neutral
  | .cancelled slot' serial => if slot' = slot then .closes serial else .neutral
  | .received _ _ => .neutral

def Replied (slot : Slot) (serial : Nat) (reply : Reply) (log : List Event) : Prop :=
  ∃ before, .received serial reply :: before <:+ log ∧ .began slot serial ∈ before

/-- What a request may come to: the reply to it, decoded, or nothing in time. -/
def Justified (slot : Slot) (serial : Nat) (outcome : Outcome) (log : List Event) : Prop :=
  outcome = timedOut ∨ ∃ reply, Replied slot serial reply log ∧ outcome = decode slot reply

/-- An answer is one to a request that was begun, from what that request may come to. -/
def Rightful (e : Event) (before : List Event) : Prop :=
  match e with
  | .answered slot serial ask answer =>
    ask.slot = slot ∧ .began slot serial ∈ before ∧
      ∃ outcome, Justified slot serial outcome before ∧ answer = ask.answer outcome
  | _ => True

theorem Replied.cons (h : Replied slot serial reply log) :
    Replied slot serial reply (e :: log) := by
  obtain ⟨before, hsuffix, hbegan⟩ := h
  exact ⟨before, hsuffix.trans (suffix_cons e log), hbegan⟩

theorem Justified.cons (h : Justified slot serial outcome log) :
    Justified slot serial outcome (e :: log) := by
  obtain h | ⟨reply, hreply, h⟩ := h
  · exact .inl h
  · exact .inr ⟨reply, hreply.cons, h⟩

structure Fits (slot : Slot) (r : Request) (log : List Event) : Prop where
  idle : r.state = .idle → r.token = 0 ∧ r.timer = none ∧ engaged (Event.stage slot) log = none
  pending : r.state = .pending →
    engaged (Event.stage slot) log = some r.serial ∧ r.token = r.serial ∧ .began slot r.serial ∈ log
  done : r.state = .done →
    engaged (Event.stage slot) log = some r.serial ∧ r.token = 0 ∧
      .began slot r.serial ∈ log ∧ Justified slot r.serial r.outcome log

theorem Fits.cons (h : Fits slot r log) (he : e.stage slot = .neutral) :
    Fits slot r (e :: log) := by
  have hengaged : engaged (Event.stage slot) (e :: log) = engaged (Event.stage slot) log := by
    rw [engaged, he]
  refine ⟨?_, ?_, ?_⟩ <;> rw [hengaged]
  · exact h.idle
  · intro hstate
    obtain ⟨hopen, htoken, hbegan⟩ := h.pending hstate
    exact ⟨hopen, htoken, mem_cons_of_mem _ hbegan⟩
  · intro hstate
    obtain ⟨hopen, htoken, hbegan, hright⟩ := h.done hstate
    exact ⟨hopen, htoken, mem_cons_of_mem _ hbegan, hright.cons⟩

/-- The timers that are open are those of the slots, each of one. -/
structure Clock (d : Desk) : Prop where
  nodup : d.timers.Nodup
  known : ∀ t ∈ d.timers, t < d.nextTimer
  held : ∀ t, t ∈ d.timers ↔ ∃ slot, (d.requests slot).timer = some t
  apart : ∀ slot slot' t, (d.requests slot).timer = some t → (d.requests slot').timer = some t →
    slot = slot'

/-- Every request is in order, what was asked and answered is too, and the serials that will come
are new. -/
structure Books (d : Desk) (next : Nat) : Prop where
  fits : ∀ slot, Fits slot (d.requests slot) d.log
  orderly : ∀ slot, Always (Orderly (Event.stage slot)) d.log
  right : Always Rightful d.log
  known : ∀ slot serial, .began slot serial ∈ d.log → serial < next
  clock : Clock d

section Desk
variable {d : Desk}

@[simp] theorem Desk.set_same : (d.set slot r).requests slot = r := by simp [Desk.set]

theorem Desk.set_other (h : slot' ≠ slot) : (d.set slot r).requests slot' = d.requests slot' := by
  simp [Desk.set, h]

theorem Clock.set (h : Clock d) (hr : r.timer = (d.requests slot).timer) :
    Clock (d.set slot r) := by
  have htimer : ∀ slot', ((d.set slot r).requests slot').timer = (d.requests slot').timer := by
    intro slot'
    by_cases hslot : slot' = slot
    · subst hslot
      rw [Desk.set_same, hr]
    · rw [Desk.set_other hslot]
  refine ⟨h.nodup, h.known, fun t => ?_, fun slot slot' t => ?_⟩
  · simp only [htimer]
    exact h.held t
  · rw [htimer, htimer]
    exact h.apart slot slot' t

theorem Clock.same (h : Clock d) (hrequests : d'.requests = d.requests)
    (htimers : d'.timers = d.timers) (hnext : d'.nextTimer = d.nextTimer) : Clock d' := by
  refine ⟨?_, ?_, ?_, ?_⟩
  · rw [htimers]
    exact h.nodup
  · rw [htimers, hnext]
    exact h.known
  · rw [htimers, hrequests]
    exact h.held
  · rw [hrequests]
    exact h.apart

theorem Clock.opened (h : Clock d) (hr : r.timer = some d.nextTimer)
    (hnone : (d.requests slot).timer = none) :
    Clock
      { d.set slot r with timers := d.nextTimer :: d.timers, nextTimer := d.nextTimer + 1 } := by
  have hnew : d.nextTimer ∉ d.timers := fun hmem => (h.known _ hmem).ne rfl
  have hunheld : ∀ slot', (d.requests slot').timer ≠ some d.nextTimer := fun slot' htimer =>
    hnew ((h.held _).mpr ⟨slot', htimer⟩)
  refine ⟨nodup_cons.mpr ⟨hnew, h.nodup⟩, ?_, fun t => ?_, fun slot₁ slot₂ t h₁ h₂ => ?_⟩
  · intro t hmem
    obtain rfl | hold := mem_cons.mp hmem
    · exact Nat.lt_succ_self _
    · exact (h.known t hold).trans (Nat.lt_succ_self _)
  · constructor
    · intro hmem
      obtain rfl | hold := mem_cons.mp hmem
      · exact ⟨slot, by simp [hr]⟩
      · obtain ⟨slot', htimer⟩ := (h.held t).mp hold
        have hslot : slot' ≠ slot := by
          rintro rfl
          cases hnone.symm.trans htimer
        exact ⟨slot', by simpa [Desk.set_other hslot] using htimer⟩
    · rintro ⟨slot', htimer⟩
      by_cases hslot : slot' = slot
      · subst hslot
        have heq : some d.nextTimer = some t := by simpa [hr] using htimer
        exact mem_cons.mpr (.inl (Option.some.inj heq).symm)
      · refine mem_cons_of_mem _ ((h.held t).mpr ⟨slot', ?_⟩)
        simpa [Desk.set_other hslot] using htimer
  · by_cases hslot₁ : slot₁ = slot <;> by_cases hslot₂ : slot₂ = slot
    · exact hslot₁.trans hslot₂.symm
    · subst hslot₁
      have heq : some d.nextTimer = some t := by simpa [hr] using h₁
      have htimer : (d.requests slot₂).timer = some t := by simpa [Desk.set_other hslot₂] using h₂
      exact absurd (htimer.trans heq.symm) (hunheld slot₂)
    · subst hslot₂
      have heq : some d.nextTimer = some t := by simpa [hr] using h₂
      have htimer : (d.requests slot₁).timer = some t := by simpa [Desk.set_other hslot₁] using h₁
      exact absurd (htimer.trans heq.symm) (hunheld slot₁)
    · have htimer₁ : (d.requests slot₁).timer = some t := by simpa [Desk.set_other hslot₁] using h₁
      have htimer₂ : (d.requests slot₂).timer = some t := by simpa [Desk.set_other hslot₂] using h₂
      exact h.apart slot₁ slot₂ t htimer₁ htimer₂

theorem Clock.closed (h : Clock d) (hr : r.timer = none) (ht : (d.requests slot).timer = some t) :
    Clock { d.set slot r with timers := d.timers.erase t } := by
  have hother : ∀ {slot' u}, (({ d.set slot r with timers := d.timers.erase t } : Desk).requests
      slot').timer = some u → slot' ≠ slot ∧ (d.requests slot').timer = some u := by
    intro slot' u htimer
    by_cases hslot : slot' = slot
    · subst hslot
      simp [hr] at htimer
    · exact ⟨hslot, by simpa [Desk.set_other hslot] using htimer⟩
  refine ⟨h.nodup.erase t, fun u hu => h.known u (mem_of_mem_erase hu), fun u => ?_,
    fun slot₁ slot₂ u h₁ h₂ => h.apart slot₁ slot₂ u (hother h₁).2 (hother h₂).2⟩
  rw [h.nodup.mem_erase_iff, h.held u]
  constructor
  · rintro ⟨hne, slot', htimer⟩
    have hslot : slot' ≠ slot := by
      rintro rfl
      exact hne (Option.some.inj (htimer.symm.trans ht))
    exact ⟨slot', by simpa [Desk.set_other hslot] using htimer⟩
  · rintro ⟨slot', htimer⟩
    obtain ⟨hslot, hold⟩ := hother htimer
    refine ⟨?_, slot', hold⟩
    rintro rfl
    exact hslot (h.apart slot' slot u hold ht)

theorem Clock.cancel (h : Clock d)
    (hidle : (d.requests slot).state = .idle → (d.requests slot).timer = none) :
    Clock (d.pendingCancel slot) := by
  have hclose : ∀ r : Request, r.timer = none →
      Clock (({ d with timers := d.closeTimer (d.requests slot) } : Desk).set slot r) := by
    intro r hr
    cases htimer : (d.requests slot).timer with
    | none =>
      have hsame : d.closeTimer (d.requests slot) = d.timers := by
        unfold Desk.closeTimer
        rw [htimer]
        split <;> trivial
      exact (h.set (hr.trans htimer.symm)).same rfl hsame rfl
    | some t =>
      have hbusy : (d.requests slot).state ≠ .idle := fun hstate => by
        cases (hidle hstate).symm.trans htimer
      have herase : d.closeTimer (d.requests slot) = d.timers.erase t := by
        unfold Desk.closeTimer
        rw [htimer]
        cases hstate : (d.requests slot).state with
        | idle => exact absurd hstate hbusy
        | pending | done => rfl
      exact (h.closed hr htimer).same rfl herase rfl
  cases slot <;> exact hclose _ rfl

structure Changed (d d' : Desk) (slot : Slot) (r : Request) : Prop where
  requests : d'.requests = update d.requests slot r
  log : d'.log = d.log
  clock : Clock d'

structure Request.Retired (r : Request) : Prop where
  state : r.state = .idle
  token : r.token = 0
  timer : r.timer = none

theorem Changed.of_clock (h : Clock d) : Changed d d slot (d.requests slot) :=
  ⟨(update_eq_self slot d.requests).symm, rfl, h⟩

theorem Changed.now (h : Changed d d' slot r) : d'.requests slot = r := by
  rw [h.requests, update_self]

theorem Changed.set (h : Changed d d' slot r) (hr : r'.timer = r.timer) :
    Changed d (d'.set slot r') slot r' := by
  refine ⟨?_, h.log, h.clock.set (hr.trans (congrArg Request.timer h.now.symm))⟩
  simp only [Desk.set, h.requests, update_idem]

theorem Changed.opened (h : Changed d d' slot r) (hr : r.timer = none)
    (hr' : r'.timer = some d'.nextTimer) :
    Changed d
      { d'.set slot r' with timers := d'.nextTimer :: d'.timers, nextTimer := d'.nextTimer + 1 }
      slot r' := by
  refine ⟨?_, h.log, h.clock.opened hr' (by rw [h.now, hr])⟩
  simp only [Desk.set, h.requests, update_idem]

theorem Changed.cancel (h : Changed d d' slot r) (hidle : r.state = .idle → r.timer = none) :
    ∃ r', Changed d (d'.pendingCancel slot) slot r' ∧ r'.Retired := by
  have hclock : Clock (d'.pendingCancel slot) := h.clock.cancel (h.now ▸ hidle)
  have hset : ∀ r', update d'.requests slot r' = update d.requests slot r' := by
    intro _
    rw [h.requests, update_idem]
  cases slot <;> exact ⟨_, ⟨hset _, h.log, hclock⟩, rfl, rfl, rfl⟩

theorem Request.Retired.fits (h : r.Retired) (hnone : engaged (Event.stage slot) log = none) :
    Fits slot r log := by
  refine ⟨fun _ => ⟨h.token, h.timer, hnone⟩, fun hstate => ?_, fun hstate => ?_⟩
  · cases h.state.symm.trans hstate
  · cases h.state.symm.trans hstate

theorem Event.eq_began (h : Event.stage slot e = .opens serial) : e = .began slot serial := by
  cases e with
  | began =>
    simp only [Event.stage] at h
    split at h
    · rename_i hslot
      cases h
      rw [hslot]
    · cases h
  | answered | cancelled =>
    simp only [Event.stage] at h
    split at h <;> cases h
  | received => cases h

section
variable (h : Books d next)
include h

theorem Books.keep (hset : Changed d d' slot r) (hfits : Fits slot r d.log) : Books d' next := by
  refine ⟨fun slot' => ?_, ?_, ?_, ?_, hset.clock⟩
  · rw [hset.log, hset.requests]
    by_cases hslot : slot' = slot
    · subst hslot
      rw [update_self]
      exact hfits
    · rw [update_of_ne hslot]
      exact h.fits slot'
  · rw [hset.log]
    exact h.orderly
  · rw [hset.log]
    exact h.right
  · rw [hset.log]
    exact h.known

theorem Books.noted (hset : Changed d d' slot r) (hle : next ≤ next')
    (hother : ∀ slot' ≠ slot, e.stage slot' = .neutral)
    (horderly : Orderly (Event.stage slot) e d.log) (hright : Rightful e d.log)
    (hknown : ∀ slot' serial, e = .began slot' serial → serial < next')
    (hfits : Fits slot r (e :: d.log)) : Books (d'.note e) next' := by
  have hlog : (d'.note e).log = e :: d.log := congrArg (e :: ·) hset.log
  refine ⟨fun slot' => ?_, fun slot' => ?_, ?_, fun slot' serial hmem => ?_,
    hset.clock.same rfl rfl rfl⟩
  · rw [hlog, show (d'.note e).requests = d'.requests from rfl, hset.requests]
    by_cases hslot : slot' = slot
    · subst hslot
      rw [update_self]
      exact hfits
    · rw [update_of_ne hslot]
      exact (h.fits slot').cons (hother slot' hslot)
  · rw [hlog]
    refine (h.orderly slot').cons ?_
    by_cases hslot : slot' = slot
    · exact hslot ▸ horderly
    · rw [Orderly, hother slot' hslot]
      trivial
  · rw [hlog]
    exact h.right.cons hright
  · rw [hlog] at hmem
    obtain heq | hold := mem_cons.mp hmem
    · exact hknown slot' serial heq.symm
    · exact (h.known slot' serial hold).trans_le hle

theorem Books.mono (hle : next ≤ next') : Books d next' :=
  ⟨h.fits, h.orderly, h.right, fun slot serial hmem =>
    (h.known slot serial hmem).trans_le hle, h.clock⟩

theorem Books.same (hrequests : d'.requests = d.requests) (hlog : d'.log = d.log)
    (htimers : d'.timers = d.timers) (hnext : d'.nextTimer = d.nextTimer) : Books d' next := by
  refine ⟨?_, ?_, ?_, ?_, h.clock.same hrequests htimers hnext⟩
  · rw [hrequests, hlog]
    exact h.fits
  · rw [hlog]
    exact h.orderly
  · rw [hlog]
    exact h.right
  · rw [hlog]
    exact h.known

theorem Books.detached : Books { d with loop := false } next := h.same rfl rfl rfl rfl

theorem Books.closed : Books { d with loop := false, notifyHandle := [] } next :=
  h.same rfl rfl rfl rfl

theorem Books.received (serial : Nat) (reply : Reply) :
    Books (d.note (.received serial reply)) next := by
  refine ⟨fun slot => (h.fits slot).cons rfl, fun slot => (h.orderly slot).cons trivial,
    h.right.cons trivial, fun slot n hmem => ?_, h.clock.same rfl rfl rfl⟩
  exact h.known slot n (mem_of_ne_of_mem (by nofun) hmem)

theorem Books.unchanged : Changed d d slot (d.requests slot) := .of_clock h.clock

theorem Books.finish
    (hright : (d.requests slot).state = .pending →
      Justified slot (d.requests slot).serial outcome d.log) :
    Books (d.pendingFinish slot outcome) next := by
  unfold Desk.pendingFinish
  dsimp only
  split
  · rename_i hstate
    obtain ⟨hopen, -, hbegan⟩ := (h.fits slot).pending hstate
    refine h.keep (h.unchanged.set rfl) ?_
    exact ⟨nofun, nofun, fun _ => ⟨hopen, rfl, hbegan, hright hstate⟩⟩
  · exact h

theorem Books.cancel : ∃ r, Changed d (d.pendingCancel slot) slot r ∧ r.Retired :=
  h.unchanged.cancel fun hidle => ((h.fits slot).idle hidle).2.1

theorem Books.close (hopen : engaged (Event.stage slot) d.log = some serial)
    (hstage : e.stage slot = .closes serial) (hother : ∀ slot' ≠ slot, e.stage slot' = .neutral)
    (hright : Rightful e d.log) : Books ((d.pendingCancel slot).note e) next := by
  obtain ⟨_, hset, hretired⟩ := h.cancel
  refine h.noted hset le_rfl hother ?_ hright ?_ (hretired.fits ?_)
  · rw [Orderly, hstage]
    exact hopen
  · rintro _ n rfl
    simp only [Event.stage] at hstage
    split at hstage <;> cases hstage
  · rw [engaged, hstage]

theorem Books.take (hbusy : (d.requests ask.slot).state ≠ .idle) :
    Books (d.pendingTake ask).2 next := by
  unfold Desk.pendingTake
  dsimp only
  split
  · exact h
  · rename_i hstate
    have hdone : (d.requests ask.slot).state = .done := by
      cases hcase : (d.requests ask.slot).state with
      | idle => exact absurd hcase hbusy
      | pending => exact absurd hcase hstate
      | done => rfl
    obtain ⟨hopen, -, hbegan, hright⟩ := (h.fits ask.slot).done hdone
    refine h.close hopen ?_ (fun slot' hslot => ?_) ⟨rfl, hbegan, _, hright, rfl⟩
    · exact if_pos rfl
    · exact if_neg hslot.symm

theorem Books.giveUp : Books (d.giveUp slot) next := by
  unfold Desk.giveUp
  dsimp only
  split
  · rename_i hstate
    obtain ⟨_, hset, hretired⟩ := h.cancel
    exact h.keep hset (hretired.fits ((h.fits slot).idle hstate).2.2)
  · rename_i hbusy
    have hopen : engaged (Event.stage slot) d.log = some (d.requests slot).serial := by
      cases hstate : (d.requests slot).state with
      | idle => exact absurd hstate hbusy
      | pending => exact ((h.fits slot).pending hstate).1
      | done => exact ((h.fits slot).done hstate).1
    refine h.close hopen ?_ (fun slot' hslot => ?_) trivial
    · exact if_pos rfl
    · exact if_neg hslot.symm

theorem Books.start (hidle : (d.requests slot).state = .idle) :
    ∃ r, Changed d (d.pendingStart slot nowMs timeoutMs opening).2 slot r ∧
      if (d.pendingStart slot nowMs timeoutMs opening).1 = none then r.state = .pending
      else r.Retired := by
  obtain ⟨-, htimer, -⟩ := (h.fits slot).idle hidle
  have hstate : ((d.requests slot).started slot (nowMs + timeoutMs)).state = .pending := by
    cases slot <;> rfl
  have hnone : ((d.requests slot).started slot (nowMs + timeoutMs)).timer = none := by
    cases slot <;> first | rfl | exact htimer
  unfold Desk.pendingStart
  generalize (d.requests slot).started slot (nowMs + timeoutMs) = r at hstate hnone
  have hset : Changed d (d.set slot r) slot r := h.unchanged.set (hnone.trans htimer.symm)
  split
  · split
    · obtain ⟨r', hset', hretired⟩ := hset.cancel fun _ => hnone
      exact ⟨r', hset', hretired⟩
    · have hopened := h.unchanged.opened htimer
        (show ({ r with timer := some d.nextTimer } : Request).timer = some d.nextTimer from rfl)
      split
      · obtain ⟨r', hset', hretired⟩ := hopened.cancel fun hidle => by cases hstate.symm.trans hidle
        exact ⟨r', hset', hretired⟩
      · exact ⟨_, hopened, hstate⟩
  · exact ⟨_, hset, hstate⟩

theorem Books.sent (hset : Changed d d' slot r) (hidle : (d.requests slot).state = .idle)
    (hstate : r.state = .pending) : Books (d'.sent slot next) (next + 1) := by
  obtain ⟨-, -, hnone⟩ := (h.fits slot).idle hidle
  have hstage : (Event.began slot next).stage slot = .opens next := if_pos rfl
  have hnew : ∀ e ∈ d.log, e.stage slot ≠ .opens next := by
    intro e hmem hopens
    rw [Event.eq_began hopens] at hmem
    exact (h.known slot next hmem).ne rfl
  have hset' := hset.set (show ({ r with token := next, serial := next } : Request).timer = r.timer
    from rfl)
  unfold Desk.sent
  rw [hset.now]
  refine h.noted hset' (Nat.le_succ next) ?_ ?_ trivial ?_ ?_
  · intro _ hslot
    exact if_neg hslot.symm
  · rw [Orderly, hstage]
    exact ⟨hnone, hnew⟩
  · rintro _ _ heq
    cases heq
    exact Nat.lt_succ_self next
  · have hopen : engaged (Event.stage slot) (.began slot next :: d.log) = some next := by
      rw [engaged, hstage]
    refine ⟨fun h => ?_, fun _ => ⟨hopen, rfl, mem_cons_self⟩, fun h => ?_⟩
    · cases hstate.symm.trans h
    · cases hstate.symm.trans h

theorem Books.requestsCancel : Books d.requestsCancel next := ((h.giveUp.giveUp).giveUp).giveUp

theorem Books.expire : Books (d.expire slot nowMs) next := by
  unfold Desk.expire
  split
  · exact h.finish fun _ => .inl rfl
  · exact h

theorem Books.timerReady : Books (d.timerReady slot expired) next := by
  unfold Desk.timerReady
  split
  · exact h.finish fun _ => .inl rfl
  · exact h

end

end Desk

section Central
variable {c : Central}

theorem Books.justified (h : Books d next) (hawaits : d.awaits slot serial)
    (hlog : d.log = .received serial reply :: log) :
    Justified slot (d.requests slot).serial (decode slot reply) d.log := by
  simp only [Desk.awaits, Bool.and_eq_true, decide_eq_true_eq] at hawaits
  obtain ⟨-, htoken, hbegan⟩ := (h.fits slot).pending hawaits.1
  rw [← htoken, hawaits.2] at hbegan ⊢
  rw [hlog] at hbegan ⊢
  exact .inr ⟨reply, ⟨log, suffix_rfl, mem_of_ne_of_mem (by nofun) hbegan⟩, rfl⟩

theorem Books.subscribed (h : Books c.desk next)
    (hright : (c.desk.requests .subscribe).state = .pending →
      Justified .subscribe (c.desk.requests .subscribe).serial outcome c.desk.log) :
    Books (c.subscribeFinish outcome).desk next := by
  unfold Central.subscribeFinish
  split
  · exact h
  · split
    · apply Books.finish
      · exact h.same rfl rfl rfl rfl
      · exact hright
    · exact h.finish hright

section
variable (h : Books c.desk c.nextSerial)
include h

theorem Books.startCentral (hidle : (c.desk.requests ask.slot).state = .idle) :
    Books (c.start ask nowMs opening failed).2.desk
      (c.start ask nowMs opening failed).2.nextSerial := by
  obtain ⟨r, hset, hstart⟩ := h.start hidle
  obtain ⟨-, -, hnone⟩ := (h.fits ask.slot).idle hidle
  unfold Central.start
  generalize c.desk.pendingStart ask.slot nowMs ask.timeoutMs opening = started at hset hstart
  obtain ⟨_ | _, desk⟩ := started
  · have hset' : Changed c.desk (desk.remember ask) ask.slot r := by
      cases ask <;> exact ⟨hset.requests, hset.log, hset.clock.same rfl rfl rfl⟩
    dsimp only
    split
    · obtain ⟨_, hcancel, hretired⟩ := hset'.cancel fun hstate => by cases hstart.symm.trans hstate
      exact h.keep hcancel (hretired.fits hnone)
    · exact h.sent hset' hidle hstart
  · exact h.keep hset (Request.Retired.fits hstart hnone)

theorem Books.ask (ask : Ask) :
    Books (c.ask ask nowMs opening failed).2.desk
      (c.ask ask nowMs opening failed).2.nextSerial := by
  unfold Central.ask
  split
  · exact h
  · split
    · rename_i hbusy
      exact h.take hbusy
    · rename_i hidle
      split
      · exact h
      · exact h.startCentral (not_not.mp hidle)

theorem Books.handleReply (hlog : c.desk.log = .received serial reply :: log) :
    Books (c.handleReply serial reply memory).desk
      (c.handleReply serial reply memory).nextSerial := by
  have hfinish : ∀ slot, c.desk.awaits slot serial →
      Books (c.desk.pendingFinish slot (decode slot reply)) c.nextSerial :=
    fun slot hawaits => h.finish fun _ => h.justified hawaits hlog
  unfold Central.handleReply
  split
  · exact h
  split
  · exact h
  split
  · rename_i hawaits
    have hsame : (c.subscribeFinish (decode .subscribe reply)).nextSerial = c.nextSerial := by
      unfold Central.subscribeFinish
      split <;> rfl
    rw [hsame]
    exact h.subscribed fun _ => h.justified hawaits hlog
  split
  · rename_i hawaits
    exact hfinish .write hawaits
  split
  · rename_i hawaits
    exact hfinish .servicesResolved hawaits
  split
  · rename_i hawaits
    exact hfinish .connected hawaits
  split
  · rename_i hawaits
    exact hfinish .read hawaits
  split
  · exact h
  split <;> exact h

theorem Books.calls (hcalls : c.Calls c') : Books c'.desk c'.nextSerial := by
  rw [hcalls.desk]
  exact h.mono hcalls.serial

theorem Books.looks (hlooks : c.Looks c') : Books c'.desk c'.nextSerial := by
  rw [hlooks.desk]
  exact h.mono hlooks.serial

theorem Books.handleMessage :
    Books (c.handleMessage message memory send).desk
      (c.handleMessage message memory send).nextSerial := by
  cases message with
  | agent | value | other => exact h
  | tree => exact h.looks c.looks_handleTree
  | reply serial reply =>
    have hreceived := h.received serial reply
    unfold Central.handleMessage
    dsimp only
    split
    · exact hreceived
    · exact Books.handleReply hreceived rfl

theorem step_books (step : Step) : Books (step.run c).desk (step.run c).nextSerial := by
  have hopen (c' : Central) (h' : Books c'.desk c'.nextSerial) :
      Books (if c.opened then c' else c).desk (if c.opened then c' else c).nextSerial := by
    split
    · exact h'
    · exact h
  cases step with
  | ask request => exact h.ask request
  | readCancel => exact h.giveUp
  | requestsCancel => exact h.requestsCancel
  | attachLoop => exact h.same rfl rfl rfl rfl
  | detachLoop => exact h.giveUp.requestsCancel.detached
  | expire slot nowMs => exact hopen { c with desk := c.desk.expire slot nowMs } h.expire
  | timerReady => exact h.timerReady
  | receive => exact hopen _ h.handleMessage
  | pairBegin => exact h.calls c.calls_pairBegin
  | pairPoll | agentUnregister | submitPasskey | confirm | reject | connectEnd => exact h
  | pairCancel => exact h.calls c.calls_pairCancel
  | agentRegister => exact h.calls c.calls_agentRegister
  | connectBegin => exact h.calls c.calls_connectBegin.1
  | findAdapter => exact hopen _ (h.looks c.looks_findAdapter)
  | list => exact hopen _ (h.looks c.looks_objectsEnsure)
  | discovering => exact hopen _ (h.looks c.looks_discovering)
  | sendLogged => exact hopen _ (h.calls ⟨rfl, rfl, Nat.le_succ _⟩)
  | close => exact h.giveUp.requestsCancel.closed

theorem run_books (steps : List Step) : Books (run c steps).desk (run c steps).nextSerial := by
  induction steps generalizing c with
  | nil => exact h
  | cons step _ ih => exact ih (step_books h step)

end

end Central

theorem books_first : Books ({} : Central).desk ({} : Central).nextSerial := by
  refine ⟨fun slot => ⟨fun _ => ⟨rfl, rfl, rfl⟩, nofun, nofun⟩, fun slot => .nil, .nil, nofun, ?_⟩
  refine ⟨nodup_nil, nofun, fun t => ⟨nofun, ?_⟩, nofun⟩
  rintro ⟨_, htimer⟩
  cases htimer

theorem answer_timedOut (ask : Ask) : ask.answer timedOut = { error := some .etimedout } := by
  cases ask <;> rfl

/-- The answer to a request is the reply to that very request, decoded, or that there was none in
time; a request has a serial of its own and is answered or given up once at most; and an idle slot
waits for no reply and holds no timer. -/
theorem run_requests (steps : List Step) (slot : Slot) :
    (∀ serial ask answer before,
      .answered slot serial ask answer :: before <:+ (run {} steps).desk.log →
        ask.slot = slot ∧ .began slot serial ∈ before ∧
          (answer = { error := some .etimedout } ∨
            ∃ reply, Replied slot serial reply before ∧ answer = ask.answer (decode slot reply))) ∧
      (∀ serial, openings (Event.stage slot) serial (run {} steps).desk.log ≤ 1 ∧
        closings (Event.stage slot) serial (run {} steps).desk.log ≤ 1) ∧
      (((run {} steps).desk.requests slot).state = .idle →
        ((run {} steps).desk.requests slot).token = 0 ∧
          ((run {} steps).desk.requests slot).timer = none) ∧
      ∀ t ∈ (run {} steps).desk.timers, ∃ slot',
        ((run {} steps).desk.requests slot').state ≠ .idle ∧
          ((run {} steps).desk.requests slot').timer = some t := by
  have h := run_books books_first steps
  refine ⟨fun serial ask answer before hsuffix => ?_, fun serial => ?_, fun hidle => ?_,
    fun t ht => ?_⟩
  · obtain ⟨hslot, hbegan, _, hright, hanswer⟩ := (h.right.suffix hsuffix).head
    refine ⟨hslot, hbegan, ?_⟩
    obtain htimeout | ⟨reply, hreply, hdecode⟩ := hright
    · rw [hanswer, htimeout]
      exact .inl (answer_timedOut ask)
    · rw [hanswer, hdecode]
      exact .inr ⟨reply, hreply, rfl⟩
  · have hone := (h.orderly slot).openings_le_one serial
    have hbalance := (h.orderly slot).balance serial
    exact ⟨hone, by omega⟩
  · obtain ⟨htoken, htimer, -⟩ := (h.fits slot).idle hidle
    exact ⟨htoken, htimer⟩
  · obtain ⟨slot', htimer⟩ := (h.clock.held t).mp ht
    refine ⟨slot', fun hidle => ?_, htimer⟩
    cases htimer.symm.trans ((h.fits slot').idle hidle).2.1

def connectedAsk : Ask := .connected (literal "AA:BB:CC:DD:EE:FF")

/-- The reply comes between the call that asks and the one that polls. -/
theorem run_requests_connected :
    let log := (run {} [.ask connectedAsk 0 {} none,
      .receive (.reply 1 (.returned (.boolean true))) true true,
      .ask connectedAsk 0 {} none]).desk.log
    log.head? = some (.answered .connected 1 connectedAsk { value := true }) ∧
      ∃ reply, Replied .connected 1 reply log.tail ∧
        { value := true } = connectedAsk.answer (decode .connected reply) := by
  intro log
  refine ⟨rfl, ?_⟩
  obtain ⟨-, -, hright⟩ := (run_requests _ _).1 1 connectedAsk { value := true } log.tail
    (suffix_refl log)
  exact hright.resolve_left (by decide)

/-- A slot that waits does so for the reply to the one request of its that is open; and every timer
is that of one slot. -/
theorem run_waiting (steps : List Step) :
    let d := (run {} steps).desk
    (∀ slot, (d.requests slot).state = .pending →
      engaged (Event.stage slot) d.log = some (d.requests slot).token ∧
        .began slot (d.requests slot).token ∈ d.log) ∧
    d.timers.Nodup ∧ ∀ t ∈ d.timers, ∃! slot, (d.requests slot).timer = some t := by
  intro d
  have h := run_books books_first steps
  refine ⟨fun slot hpending => ?_, h.clock.nodup, fun t ht => ?_⟩
  · obtain ⟨hopen, htoken, hbegan⟩ := (h.fits slot).pending hpending
    rw [htoken]
    exact ⟨hopen, hbegan⟩
  · obtain ⟨slot, hslot⟩ := (h.clock.held t).mp ht
    exact ⟨slot, hslot, fun slot' hslot' => h.clock.apart slot' slot t hslot' hslot⟩

end Inkwell.Bluez
