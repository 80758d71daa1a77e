import Inkwell.Io.UsbStorage.Write

namespace Inkwell.UsbStorage
open Library

section Site
variable {s t u : Site}

structure Reaped (s t : Site) (n : Nat) : Prop where
  forks : t.forks = s.forks
  claims : t.claims = s.claims
  closes : t.closes = s.closes
  strays : t.strays = s.strays
  others : ∀ m < s.forks, m ≠ n → (s.children m).Later (t.children m)
  image : (t.children n).image = (s.children n).image
  sound : (t.children n).Sound
  synced : (s.children n).synced ≤ (t.children n).synced
  reaps : (t.children n).reaps = 1
  exited : (t.children n).exited.isSome
  write : s.write.Reads t.write (t.children n).synced

def closeUp (s : Site) : Site := releaseFd { s with write := { s.write with child := none } }

theorem closeUp_eq (hfd : s.write.deviceFd = some i) (hopen : s.closes i = 0) :
    closeUp s = { s with
      closes := Function.update s.closes i 1
      write := { s.write with child := none, deviceFd := none, progressFd := none } } := by
  simp [closeUp, releaseFd, Site.closeClaim, hfd, hopen]

def Site.counted (s : Site) (k : Nat) : Site := { s with write := { s.write with written := k } }

theorem Books.ended (h : Books s) (hn : s.write.child = some n) (hr : Reaped s t n)
    (hstate : state ≠ .running) (hk : k ≤ (t.children n).synced) (hk' : k ≤ t.write.total)
    (hdone : state = .done → (t.children n).exited = some (.exit 0)) :
    Books (settle state error ((closeUp t).counted k)) := by
  have hrun := h.running hn
  obtain ⟨i, hi, hdevice⟩ := hrun.deviceFd
  have hsame := hr.write.same
  have hdevice' : t.write.deviceFd = some i := by rw [hsame]; exact hdevice
  have htotal : t.write.total = s.write.total := by rw [hsame]
  have hopen : t.closes i = 0 := by rw [hr.closes, h.closed i hi, if_pos hdevice]
  rw [closeUp_eq hdevice' hopen]
  have hforks : t.forks = n + 1 := hr.forks.trans hrun.last
  refine ⟨?_, ?_, ?_, ?_, hr.strays.trans h.strays, hk', ?_, ?_, hstate, rfl, rfl⟩
  · intro m hm
    by_cases hne : m = n
    · exact hne ▸ hr.sound
    · exact (hr.others m (hr.forks ▸ hm) hne).sound
  · intro m hm _
    by_cases hne : m = n
    · exact hne ▸ ⟨hr.reaps, hr.exited⟩
    · have hm' : m < s.forks := hr.forks ▸ hm
      have hold := h.reaped m hm' fun heq => hne (Option.some.inj (heq.symm.trans hn))
      obtain ⟨status, hstatus⟩ := Option.isSome_iff_exists.mp hold.2
      have hlater := hr.others m hm' hne
      exact ⟨hlater.reaps.trans hold.1,
        Option.isSome_iff_exists.mpr ⟨status, hlater.exited status hstatus⟩⟩
  · intro j hj
    have hj' : j < s.claims := hr.claims ▸ hj
    by_cases hne : j = i
    · simp [settle, Site.counted, hne]
    · have hold := h.closed j hj'
      have hother : s.write.deviceFd ≠ some j := fun heq =>
        hne (Option.some.inj (heq.symm.trans hdevice))
      rw [if_neg hother, ← hr.closes] at hold
      simp [settle, Site.counted, hne, hold]
  · intro j hj
    have hj' : s.claims ≤ j := hr.claims ▸ hj
    have hne : j ≠ i := (hi.trans_le hj').ne'
    have hold := h.unclaimed j hj'
    rw [← hr.closes] at hold
    simp [settle, Site.counted, hne, hold]
  · intro hzero
    cases hzero.symm.trans hforks
  · intro m hm
    obtain rfl : m = n := Nat.succ.inj (hm.symm.trans hforks)
    refine ⟨?_, hk, hdone⟩
    have hlen : (t.children m).len = (s.children m).len := by rw [Child.len, hr.image, ← Child.len]
    exact htotal.trans ((h.last m hrun.last).total.trans hlen.symm)

theorem closeClaim_forks : (s.closeClaim i).forks = s.forks := by
  unfold Site.closeClaim
  split <;> rfl

theorem closeClaim_children : (s.closeClaim i).children = s.children := by
  unfold Site.closeClaim
  split <;> rfl

theorem closeUp_forks : (closeUp t).forks = t.forks := by
  unfold closeUp releaseFd
  split
  · rfl
  · exact closeClaim_forks

theorem closeUp_children : (closeUp t).children = t.children := by
  unfold closeUp releaseFd
  split
  · rfl
  · exact closeClaim_children

theorem closeUp_total : (closeUp t).write.total = t.write.total := by
  unfold closeUp releaseFd
  split <;> rfl

theorem counted_written : (closeUp t).counted t.write.written = closeUp t := by
  unfold closeUp releaseFd
  split <;> rfl

theorem Reaped.written (hr : Reaped s t n) (hl : Last s n) :
    t.write.written ≤ (t.children n).synced :=
  hr.write.upTo.trans (max_le (hl.synced.trans hr.synced) le_rfl)

theorem Books.failed (h : Books s) (hn : s.write.child = some n) (hr : Reaped s t n)
    (hstate : state ≠ .running) (hdone : state ≠ .done) :
    Books (settle state error (closeUp t)) := by
  have hlast := h.last n (h.running hn).last
  have htotal : t.write.written ≤ t.write.total := by
    rw [hr.write.same]
    exact hr.write.total h.bounded
  rw [← counted_written]
  exact h.ended hn hr hstate (hr.written hlast) htotal fun heq => absurd heq hdone

theorem Drains.slain (hd : Drains s t n) (hrun : Running s n) : Reaped s (t.killAndReap n) n := by
  have hkill := hd.trans (Site.atKill_drains hd.flow)
  have hknown : n < s.forks := hrun.last ▸ Nat.lt_succ_self n
  have hlater := hkill.later n hknown
  unfold Site.killAndReap
  generalize t.atKill = u at hkill hlater
  have hreaps : (u.children n).reaps = 0 := hlater.reaps.trans hrun.reaps
  rw [if_pos hreaps]
  refine ⟨hkill.forks, hkill.claims, hkill.closes, hkill.strays, ?_, ?_, ?_, ?_, ?_, ?_, ?_⟩
  · intro m hm hne
    rw [Site.setChild_other _ _ hne]
    exact hkill.later m hm
  · rw [Site.setChild_same]
    exact hlater.image
  · rw [Site.setChild_same]
    obtain ⟨hoffset, hsynced, hdevice, hwriting, hsyncing, hwhole⟩ := hlater.sound
    refine ⟨hoffset, hsynced, hdevice, hwriting, hsyncing, fun hexit => hwhole ?_⟩
    -- who was killed did not exit with a code
    cases hgone : (u.children n).exited with
    | none =>
      rw [hgone] at hexit
      cases hexit
    | some =>
      rw [hgone] at hexit
      exact hexit
  · rw [Site.setChild_same]
    exact hlater.synced
  · rw [Site.setChild_same]
  · rw [Site.setChild_same]
    rfl
  · rw [Site.setChild_same]
    exact hkill.write

def Site.waited (s : Site) (n : Nat) : Site :=
  s.setChild n { s.children n with reaps := (s.children n).reaps + 1 }

theorem Site.waited_same :
    (s.waited n).children n = { s.children n with reaps := (s.children n).reaps + 1 } :=
  Site.setChild_same s n _

theorem Site.waited_other (h : m ≠ n) : (s.waited n).children m = s.children m :=
  Site.setChild_other s _ h

theorem Flow.waited (h : Flow s n) : Flow (s.waited n) n := by
  refine ⟨fun m hm => ?_, h.known, ?_⟩
  · by_cases hne : m = n
    · subst hne
      rw [Site.waited_same]
      obtain ⟨hoffset, hsynced, hdevice, hwriting, hsyncing, hwhole⟩ := h.sound m hm
      exact ⟨hoffset, hsynced, hdevice, hwriting, hsyncing, hwhole⟩
    · rw [Site.waited_other hne]
      exact h.sound m hm
  · rw [Site.waited_same]
    exact h.stream

theorem Drains.waited (hd : Drains s t n) (hrun : Running s n)
    (hexit : (t.children n).exited = some status) : Reaped s (drain nowMs (t.waited n)).2 n ∧
      ((drain nowMs (t.waited n)).2.children n).exited = some status := by
  have hknown : n < s.forks := hrun.last ▸ Nat.lt_succ_self n
  have hlater := hd.later n hknown
  have hfd : t.write.progressFd = some n := by
    rw [hd.write.same]
    exact hrun.progressFd
  have hdrain := drain_drains hd.flow.waited hfd nowMs
  have hown := hdrain.later n hd.flow.known
  rw [Site.waited_same] at hown
  refine ⟨⟨hdrain.forks.trans hd.forks, hdrain.claims.trans hd.claims,
    hdrain.closes.trans hd.closes, hdrain.strays.trans hd.strays, ?_, hown.image.trans hlater.image,
    hown.sound, hlater.synced.trans hown.synced, ?_, ?_, ?_⟩, hown.exited status hexit⟩
  · intro m hm hne
    have hother := hdrain.later m (hd.forks.symm ▸ hm)
    rw [Site.waited_other hne] at hother
    exact (hd.later m hm).trans hother
  · rw [hown.reaps]
    exact congrArg (· + 1) (hlater.reaps.trans hrun.reaps)
  · rw [hown.exited status hexit]
    rfl
  · exact (hd.write.mono_bound hown.synced).trans hdrain.write

theorem finish_eq : finish status t = if status = .exit 0
    then settle .done none ((closeUp t).counted t.write.total)
    else settle .failed (some .eio) (closeUp t) := by
  rw [← closeUp_total]
  rfl

theorem Books.finished (h : Books s) (hn : s.write.child = some n) (hr : Reaped s t n)
    (hexit : (t.children n).exited = some status) : Books (finish status t) := by
  have hrun := h.running hn
  have hlast := h.last n hrun.last
  rw [finish_eq]
  split
  · rename_i hzero
    have hwhole : (t.children n).exited = some (.exit 0) := hzero ▸ hexit
    have htotal : t.write.total = (t.children n).synced := by
      rw [hr.sound.synced, (hr.sound.whole hwhole).1, Child.len, hr.image, ← Child.len,
        ← hlast.total, hr.write.same]
    exact h.ended hn hr (by simp) htotal.le le_rfl fun _ => hwhole
  · exact h.failed hn hr (by simp) (by simp)

structure Onward (s t : Site) : Prop where
  forks : s.forks ≤ t.forks
  image : ∀ m < s.forks, (t.children m).image = (s.children m).image
  written : t.forks = s.forks → s.write.written ≤ t.write.written

theorem Onward.rfl : Onward s s := ⟨le_rfl, fun _ _ => .refl _, fun _ => le_rfl⟩

theorem Onward.trans (h : Onward s t) (h' : Onward t u) : Onward s u where
  forks := h.forks.trans h'.forks
  image m hm := (h'.image m (hm.trans_le h.forks)).trans (h.image m hm)
  written heq := by
    have hmid : t.forks = s.forks := le_antisymm (h'.forks.trans heq.le) h.forks
    exact (h.written hmid).trans (h'.written (heq.trans hmid.symm))

theorem Drains.onward (hd : Drains s t n) : Onward s t :=
  ⟨hd.forks.ge, fun m hm => (hd.later m hm).image, fun _ => hd.write.mono⟩

theorem Reaped.onward (hr : Reaped s t n) (hk : t.write.written ≤ k) :
    Onward s (settle state error ((closeUp t).counted k)) := by
  refine ⟨hr.forks.ge.trans closeUp_forks.ge, fun m hm => ?_, fun _ => hr.write.mono.trans hk⟩
  have hchild : ((settle state error ((closeUp t).counted k)).children m) = t.children m :=
    congrFun closeUp_children m
  rw [hchild]
  by_cases hne : m = n
  · exact hne ▸ hr.image
  · exact (hr.others m hm hne).image

theorem Reaped.onward_failed (hr : Reaped s t n) : Onward s (settle state error (closeUp t)) := by
  rw [← counted_written]
  exact hr.onward le_rfl

theorem Reaped.onward_finish (hr : Reaped s t n) (hle : t.write.written ≤ t.write.total) :
    Onward s (finish status t) := by
  rw [finish_eq]
  split
  · exact hr.onward hle
  · exact hr.onward_failed

def polled (nowMs : UInt64) (n : Nat) (s : Site) : Site :=
  match (s.children n).exited with
  | none => s
  | some status => finish status (drain nowMs (s.waited n)).2

theorem polled_books (h : Books s) (hn : s.write.child = some n) (hd : Drains s t n) :
    Books (polled nowMs n t) ∧ Onward s (polled nowMs n t) := by
  have hrun := h.running hn
  unfold polled
  cases hexit : (t.children n).exited with
  | none => exact ⟨h.drained hn hd, hd.onward⟩
  | some =>
    obtain ⟨hreaped, hexit⟩ := hd.waited hrun hexit
    have hle := hreaped.write.total h.bounded
    refine ⟨h.finished hn hreaped hexit, hreaped.onward_finish ?_⟩
    rw [hreaped.write.same]
    exact hle

theorem tick_books (h : Books s) : Books (tick nowMs s) ∧ Onward s (tick nowMs s) := by
  unfold tick
  split
  · exact ⟨h, .rfl⟩
  · cases hn : s.write.child with
    | none => exact ⟨h, .rfl⟩
    | some =>
      have hrun := h.running hn
      have hdrain := drain_drains (hrun.flow h) hrun.progressFd nowMs
      dsimp only
      split
      · -- the child has been silent for too long
        have hslain := hdrain.slain hrun
        exact ⟨h.failed hn hslain nofun nofun, hslain.onward_failed⟩
      · have hpoll := hdrain.trans (Site.atPoll_drains hdrain.flow)
        exact polled_books h hn hpoll

theorem releaseFd_resting (hprogress : s.write.progressFd = none)
    (hdevice : s.write.deviceFd = none) : releaseFd s = s := by
  unfold releaseFd
  rw [hdevice]
  dsimp only
  rw [← hprogress]

theorem cancel_books (h : Books s) : Books (cancel s) ∧ Onward s (cancel s) := by
  unfold cancel
  cases hn : s.write.child with
  | none =>
    obtain ⟨_, hprogress, hdevice⟩ := h.resting hn
    dsimp only
    rw [releaseFd_resting hprogress hdevice]
    refine ⟨⟨h.sound, h.reaped, h.closed, h.unclaimed, h.strays, h.bounded, fun _ => .refl _, ?_,
      ?_⟩, le_rfl, fun _ _ => .refl _, fun _ => le_rfl⟩
    · intro n hforks
      exact ⟨(h.last n hforks).total, (h.last n hforks).synced, nofun⟩
    · have hgoal : (settle .idle none s).write.child = none := hn
      rw [hgoal]
      exact ⟨nofun, hprogress, hdevice⟩
  | some =>
    have hrun := h.running hn
    have hslain := (Drains.rfl (hrun.flow h)).slain hrun
    exact ⟨h.failed hn hslain nofun nofun, hslain.onward_failed⟩

theorem Books.unstarted (h : Books s) (hn : s.write.child = none) :
    Books ({ s with claims := s.claims + 1 }.closeClaim s.claims) := by
  obtain ⟨-, -, hdevice⟩ := h.resting hn
  have hopen := h.unclaimed s.claims le_rfl
  unfold Site.closeClaim
  rw [if_pos hopen]
  refine ⟨h.sound, h.reaped, fun i hi => ?_, fun i hi => ?_, h.strays, h.bounded, h.idle, ?_, ?_⟩
  · have hne : s.write.deviceFd ≠ some i := by rw [hdevice]; nofun
    dsimp only at hi ⊢
    rw [if_neg hne]
    by_cases heq : i = s.claims
    · rw [heq, Function.update_self]
    · have hold := h.closed i (lt_of_le_of_ne (Nat.lt_succ_iff.mp hi) heq)
      rw [Function.update_of_ne heq, hold, if_neg hne]
  · have hlt : s.claims < i := hi
    dsimp only
    rw [Function.update_of_ne hlt.ne']
    exact h.unclaimed i hlt.le
  · intro n hforks
    exact ⟨(h.last n hforks).total, (h.last n hforks).synced, (h.last n hforks).whole⟩
  · rw [hn]
    exact h.resting hn

theorem Child.sound_new (image : Image) (hne : image.bytes ≠ []) : Child.Sound { image } := by
  have hlen : 0 < image.bytes.length := List.length_pos_iff.mpr hne
  refine ⟨Nat.zero_le _, .refl _, List.take_zero.symm, fun _ => ?_, nofun, nofun⟩
  unfold Child.chunk
  split
  · exact Nat.succ_pos _
  · exact hlen

theorem begun_books (h : Books s) (hn : s.write.child = none) (himage : image.bytes ≠ []) :
    Books (begun s loop image nowMs) := by
  obtain ⟨-, -, hdevice⟩ := h.resting hn
  have hsame : (begun s loop image nowMs).children s.forks = { image } :=
    Site.setChild_same s s.forks { image }
  have hother : ∀ m < s.forks, (begun s loop image nowMs).children m = s.children m := fun m hm =>
    Site.setChild_other s { image } hm.ne
  refine ⟨fun m hm => ?_, fun m hm hne => ?_, fun i hi => ?_, fun i hi => ?_, h.strays,
    Nat.zero_le _, nofun, fun n hforks => ?_, ?_⟩
  · obtain hm | rfl := Nat.lt_succ_iff_lt_or_eq.mp hm
    · rw [hother m hm]
      exact h.sound m hm
    · rw [hsame]
      exact Child.sound_new image himage
  · obtain hm | rfl := Nat.lt_succ_iff_lt_or_eq.mp hm
    · rw [hother m hm]
      exact h.reaped m hm (by rw [hn]; nofun)
    · exact absurd (Eq.refl _) hne
  · obtain hi | rfl := Nat.lt_succ_iff_lt_or_eq.mp hi
    · have hold := h.closed i hi
      rw [hdevice, if_neg nofun] at hold
      exact hold.trans (if_neg fun heq => hi.ne' (Option.some.inj heq)).symm
    · exact (h.unclaimed _ le_rfl).trans (if_pos (Eq.refl _)).symm
  · exact h.unclaimed i ((Nat.le_succ _).trans hi)
  · obtain rfl : s.forks = n := Nat.succ.inj hforks
    refine ⟨?_, Nat.zero_le _, nofun⟩
    rw [hsame]
    exact .refl _
  · refine ⟨.refl _, .refl _, .refl _, ⟨s.claims, Nat.lt_succ_self _, .refl _⟩, ?_, [], ?_⟩
    · rw [hsame]
    · rw [hsame]
      exact ⟨.refl _, List.not_mem_nil, fun _ => nofun⟩

theorem begun_onward : Onward s (begun s loop image nowMs) :=
  ⟨Nat.le_succ _, fun _ hm => congrArg Child.image (Site.setChild_other s { image } hm.ne),
    fun heq => absurd heq (Nat.succ_ne_self _)⟩

theorem unstarted_onward : Onward s ({ s with claims := s.claims + 1 }.closeClaim s.claims) := by
  unfold Site.closeClaim
  split <;> exact ⟨le_rfl, fun _ _ => .refl _, fun _ => le_rfl⟩

theorem start_books (h : Books s) : Books (start s loop image devicePath nowMs launch).2 ∧
      Onward s (start s loop image devicePath nowMs launch).2 := by
  unfold start
  cases image with
  | none => exact ⟨h, .rfl⟩
  | some =>
    dsimp only
    split
    · exact ⟨h, .rfl⟩
    · rename_i hargs
      split
      · exact ⟨h, .rfl⟩
      · rename_i hstate
        have hn : s.write.child = none := by
          cases hn : s.write.child with
          | none => rfl
          | some => exact absurd (h.running hn).state hstate
        split
        · exact ⟨h, .rfl⟩
        · exact ⟨h.unstarted hn, unstarted_onward⟩
        · exact ⟨h.unstarted hn, unstarted_onward⟩
        · exact ⟨begun_books h hn (fun hnil => hargs (.inl hnil)), begun_onward⟩

theorem start_begun {image : Image} {nowMs : UInt64}
    (h : (start s loop (some image) devicePath nowMs launch).1 = none) :
    (start s loop (some image) devicePath nowMs launch).2 =
      begun s (loop && launch.added) image nowMs := by
  unfold start at h ⊢
  dsimp only at h ⊢
  split at h
  · cases h
  · split at h
    · cases h
    · rename_i hargs hstate
      rw [if_neg hargs, if_neg hstate]
      split at h
      · cases h
      · cases h
      · cases h
      · rfl

theorem progress_books (h : Books s) : Books (drain nowMs s).2 ∧ Onward s (drain nowMs s).2 := by
  cases hn : s.write.child with
  | none =>
    unfold drain
    rw [(h.resting hn).2.1]
    exact ⟨h, .rfl⟩
  | some =>
    have hrun := h.running hn
    have hdrain := drain_drains (hrun.flow h) hrun.progressFd nowMs
    exact ⟨h.drained hn hdrain, hdrain.onward⟩

theorem step_books (h : Books s) (call : Call) : Books (call.step s) ∧ Onward s (call.step s) := by
  cases call with
  | start => exact start_books h
  | progress => exact progress_books h
  | tick => exact tick_books h
  | cancel => exact cancel_books h

theorem run_books (h : Books s) : Books (run s calls) ∧ Onward s (run s calls) := by
  induction calls generalizing s with
  | nil => exact ⟨h, .rfl⟩
  | cons call _ ih =>
    obtain ⟨hbooks, honward⟩ := step_books h call
    obtain ⟨hrest, honward'⟩ := ih hbooks
    exact ⟨hrest, honward.trans honward'⟩

theorem Site.Fresh.books (h : s.Fresh) : Books s := by
  have hforks : ∀ m, ¬ m < s.forks := fun _ => by rw [h.forks]; exact Nat.not_lt_zero _
  refine ⟨fun m hm => absurd hm (hforks m), fun m hm => absurd hm (hforks m), fun i hi => ?_,
    fun i _ => h.closes i, h.strays, ?_, fun _ => ?_, fun n hn => ?_, ?_⟩
  · rw [h.claims] at hi
    exact absurd hi (Nat.not_lt_zero i)
  · rw [h.write]
  · rw [h.write]
  · cases h.forks.symm.trans hn
  · rw [h.write]
    exact ⟨nofun, .refl _, .refl _⟩

theorem Child.Sound.whole_device {c : Child} (h : c.Sound) (hexit : c.exited = some (.exit 0)) :
    c.device = c.image.bytes ∧ c.synced = c.image.bytes.length := by
  obtain ⟨hoffset, hphase⟩ := h.whole hexit
  refine ⟨?_, h.synced.trans hoffset⟩
  rw [h.device, Child.reached, hphase]
  exact List.take_of_length_le hoffset.ge

/-- A write that is done has its image on the device, in order and synced. The count does not go
back during a write, nor pass what is synced or the total. Each child was waited for once and each
claim closed once, unless it is at hand, and nothing is at hand when no write is running. -/
theorem run_writes (h : s.Fresh) (calls : List Call) :
    (∀ n < (run s calls).forks,
      ((run s calls).children n).device <+: ((run s calls).children n).image.bytes) ∧
    ((run s calls).write.state = .done → ∃ n, (run s calls).forks = n + 1 ∧
      ((run s calls).children n).device = ((run s calls).children n).image.bytes ∧
      ((run s calls).children n).synced = ((run s calls).children n).image.bytes.length) ∧
    (∀ loop image devicePath nowMs launch,
      (start (run s calls) loop (some image) devicePath nowMs launch).1 = none →
      (start (run s calls) loop (some image) devicePath nowMs launch).2.forks =
        (run s calls).forks + 1 ∧
      ∀ more, ((run (start (run s calls) loop (some image) devicePath nowMs launch).2 more).children
        (run s calls).forks).image = image) ∧
    (∀ more, (run (run s calls) more).forks = (run s calls).forks →
      (run s calls).write.written ≤ (run (run s calls) more).write.written) ∧
    (∀ n, (run s calls).forks = n + 1 →
      (run s calls).write.written ≤ ((run s calls).children n).synced) ∧
    (run s calls).write.written ≤ (run s calls).write.total ∧
    (∀ n < (run s calls).forks, ((run s calls).children n).reaps =
      if (run s calls).write.child = some n then 0 else 1) ∧
    (∀ i < (run s calls).claims, (run s calls).closes i =
      if (run s calls).write.deviceFd = some i then 0 else 1) ∧
    ((run s calls).write.state ≠ .running → (run s calls).write.child = none ∧
      (run s calls).write.deviceFd = none) ∧
    (run s calls).strays = 0 := by
  obtain ⟨hbooks, -⟩ := run_books h.books
  generalize run s calls = t at *
  refine ⟨fun n hn => ?_, fun hdone => ?_, fun loop image devicePath nowMs launch hstart => ?_,
    fun more hforks => (run_books hbooks).2.written hforks, fun n hn => (hbooks.last n hn).synced,
    hbooks.bounded, fun n hn => ?_, hbooks.closed, fun hstate => ?_, hbooks.strays⟩
  · rw [(hbooks.sound n hn).device]
    exact List.take_prefix _ _
  · cases hforks : t.forks with
    | zero => cases hdone.symm.trans (hbooks.idle hforks)
    | succ n =>
      have hexit := (hbooks.last n hforks).whole hdone
      exact ⟨n, .refl _, (hbooks.sound n (hforks ▸ Nat.lt_succ_self n)).whole_device hexit⟩
  · obtain ⟨hstarted, -⟩ := start_books hbooks
    have hbegun := start_begun hstart
    rw [hbegun] at hstarted ⊢
    refine ⟨.refl _, fun more => ?_⟩
    rw [(run_books hstarted).2.image t.forks (lt_add_one _)]
    exact congrArg Child.image (Site.setChild_same t t.forks { image })
  · split
    · rename_i hchild
      exact (hbooks.running hchild).reaps
    · rename_i hchild
      exact (hbooks.reaped n hn hchild).1
  · cases hn : t.write.child with
    | none => exact ⟨.refl _, (hbooks.resting hn).2.2⟩
    | some => exact absurd (hbooks.running hn).state hstate

def image123 : Image := ⟨[1, 2, 3], by decide⟩

/-- A child that is interrupted and writes the image in two parts, and a line read byte by byte. -/
def site123 : Site where
  children _ := { image := image123 }
  reads := [
    ([(0, .call (.put 2)), (0, .call .eintr), (0, .call (.put 5)), (0, .call (.put 0)),
      (0, .call (.put 0))], .upTo 1),
    ([], .eintr), ([], .upTo 1)]

def calls123 : List Call := [.start true (some image123) (some [47]) 0 {}, .tick 1]

theorem run_writes_image123 : (run site123 calls123).write.state = .done ∧
    ∃ n, (run site123 calls123).forks = n + 1 ∧
      ((run site123 calls123).children n).device = ((run site123 calls123).children n).image.bytes ∧
      ((run site123 calls123).children n).synced =
        ((run site123 calls123).children n).image.bytes.length := by
  have hdone : (run site123 calls123).write.state = .done := by decide
  have hfresh : site123.Fresh := ⟨rfl, rfl, rfl, fun _ => rfl, rfl⟩
  exact ⟨hdone, (run_writes hfresh calls123).2.1 hdone⟩

end Site

end Inkwell.UsbStorage
