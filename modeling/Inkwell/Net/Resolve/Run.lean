import Inkwell.Net.Resolve.Lookup

namespace Inkwell.Resolve
open Library List

variable {s t : Site κ}

inductive Reads (s : Site κ) (n room : Nat) : Got × Site κ → Prop
  | data (hsplit : (s.atRead.children n).buffered = bytes ++ rest) (hne : bytes ≠ [])
      (hroom : bytes.length ≤ room) :
      Reads s n room (.data bytes, s.atRead.setChild n { s.atRead.children n with
        buffered := rest, taken := (s.atRead.children n).taken ++ bytes })
  | eof (hempty : (s.atRead.children n).buffered = [])
      (hgone : (s.atRead.children n).exited.isSome) : Reads s n room (.eof, s.atRead)
  | eagain (hempty : (s.atRead.children n).buffered = []) : Reads s n room (.eagain, s.atRead)
  | eintr (hreads : s.reads ≠ []) : Reads s n room (.eintr, s.atRead)
  | error (herror : (acts, .error) ∈ s.reads) : Reads s n room (.error, s.atRead)

theorem read_reads (hroom : 0 < room) : Reads s n room (s.read n room) := by
  have hmem {answer : ReadAnswer} (h : (s.reads.head?.map Prod.snd).getD (.upTo room) = answer)
      (hother : answer ≠ .upTo room) : ∃ acts, (acts, answer) ∈ s.reads := by
    cases hreads : s.reads with
    | nil =>
      rw [hreads] at h
      exact absurd h.symm hother
    | cons m =>
      rw [hreads] at h
      exact ⟨m.1, h ▸ mem_cons_self⟩
  unfold Site.read
  simp only
  split
  · rename_i hanswer
    exact .eintr (ne_nil_of_mem (hmem hanswer nofun).choose_spec)
  · rename_i hanswer
    exact .error (hmem hanswer nofun).choose_spec
  · split
    · rename_i hempty
      cases hgone : (s.atRead.children n).exited.isSome with
      | true => exact .eof (by simpa using hempty) hgone
      | false => exact .eagain (by simpa using hempty)
    · refine .data (take_append_drop _ _).symm ?_ ?_
      · simp_all; omega
      · simp

structure Drains (s t : Site κ) (n : Nat) (more : Bool) : Prop where
  steps : Steps s t
  child : t.resolve.child = some n
  childFd : t.resolve.childFd = some n
  empty : more → (t.children n).buffered = []
  spent : more = false → Spent t n

theorem Drains.after (hstep : Steps s t) (h : Drains t u n more) : Drains s u n more :=
  { h with steps := hstep.trans h.steps }

theorem drainLoop_drains (h : Books s) (hn : s.resolve.child = some n)
    (hfd : s.resolve.childFd = some n)
    (hfuel : s.reads.length + (bufferSize - s.resolve.record.length) < fuel) :
    Drains s (drainLoop n fuel s).2 n (drainLoop n fuel s).1 := by
  -- Each turn uses up an answer that was going to come, or fills the buffer.
  induction fuel generalizing s with
  | zero => omega
  | succ _ ih =>
    rw [drainLoop]
    split
    · rename_i hfull
      exact ⟨.refl, hn, hfd, nofun, fun _ => .inl hfull⟩
    have henv := s.atRead_env
    have hchild : s.atRead.resolve.child = some n := by rw [henv.resolve]; exact hn
    have hchildFd : s.atRead.resolve.childFd = some n := by rw [henv.resolve]; exact hfd
    have hstep : Steps s s.atRead := .single (.env henv)
    have hread : Reads s n (bufferSize - s.resolve.record.length)
        (s.read n (bufferSize - s.resolve.record.length)) := read_reads (by omega)
    generalize s.read n (bufferSize - s.resolve.record.length) = result at hread
    cases hread with
    | eof hempty hgone =>
      exact ⟨hstep, hchild, hchildFd, nofun, fun _ => .inr (.inl ⟨hempty, hgone⟩)⟩
    | eagain hempty => exact ⟨hstep, hchild, hchildFd, fun _ => hempty, nofun⟩
    | eintr hreads =>
      refine (ih (h.env henv) hchild hchildFd ?_).after hstep
      have hlength : s.atRead.reads.length = s.reads.length - 1 := length_tail
      have hpos := length_pos_iff.mpr hreads
      rw [henv.resolve]
      omega
    | error herror =>
      exact ⟨.single (.fail hn henv herror), hchild, hchildFd, nofun, fun _ => .inr (.inr nofun)⟩
    | @data bytes rest hsplit hne =>
      have hfits : s.atRead.resolve.record.length + bytes.length ≤ bufferSize := by
        rw [henv.resolve]
        omega
      have htake : Steps s.atRead (s.atRead.took n bytes rest) :=
        .single (.take hchild hchildFd hsplit hfits)
      refine (ih (s := s.atRead.took n bytes rest) ?_ hchild hchildFd ?_).after (hstep.trans htake)
      · exact Steps.books htake (h.env henv)
      · have hreads : (s.atRead.took n bytes rest).reads.length ≤ s.reads.length :=
          henv.reads.length_le
        have hrecord : (s.atRead.took n bytes rest).resolve.record.length =
            s.resolve.record.length + bytes.length := by
          simp [Site.took, henv.resolve]
        have hpos := length_pos_iff.mpr hne
        omega

theorem drain_drains (h : Books s) (hn : s.resolve.child = some n)
    (hfd : s.resolve.childFd = some n) : Drains s (drain s).2 n (drain s).1 := by
  unfold drain
  rw [hfd]
  exact drainLoop_drains h hn hfd (Nat.lt_succ_self _)

theorem drain_closed (hfd : s.resolve.childFd = none) : drain s = (false, s) := by
  unfold drain
  rw [hfd]

theorem drain_close (h : Books s) (hn : s.resolve.child = some n) :
    let u := if (drain s).1 then (drain s).2 else releaseFd (drain s).2
    Steps s u ∧ u.resolve.child = some n ∧
      (u.resolve.childFd = some n → (u.children n).buffered = []) := by
  obtain ⟨-, k, hi⟩ := h.intact hn
  obtain ⟨hfd, -⟩ | ⟨hfd, -, -⟩ := hi.pipe
  · have hd := drain_drains h hn hfd
    cases hmore : (drain s).1 with
    | true => exact ⟨hd.steps, hd.child, fun _ => hd.empty hmore⟩
    | false =>
      have hbooks := Steps.books hd.steps h
      obtain ⟨-, _, hi'⟩ := hbooks.intact hd.child
      have heq := releaseFd_eq hi'.piped
      refine ⟨hd.steps.tail (.close hd.child (hd.spent hmore)), ?_, ?_⟩
      · simp only [Bool.false_eq_true, if_false, heq]
        exact hd.child
      · simp only [Bool.false_eq_true, if_false, heq]
        exact nofun
  · have hdrain := drain_closed hfd
    have hrelease : releaseFd s = s := by
      unfold releaseFd
      rw [hfd]
    simp only [hdrain, Bool.false_eq_true, if_false, hrelease]
    exact ⟨.refl, hn, fun hsome => by cases hfd.symm.trans hsome⟩

theorem complete_eq (h : s.resolve.onDone = some k) : complete app outcome s =
      app ((settle s).note (.done s.resolve.lookup k (resultOf outcome s.resolve.record))) := by
  unfold complete
  simp only [h]

def Resolver.cleared (r : Resolver κ) : Resolver κ :=
  { r with child := none, childFd := none, record := [], onDone := none, failure := .ok }

def Site.ended (s : Site κ) (n : Nat) (c : Child) : Site κ :=
  { s.setChild n { c with reader := false } with resolve := s.resolve.cleared }

theorem Site.ended_idle : Idle (s.ended n c).resolve := ⟨rfl, rfl, rfl, rfl, rfl⟩

structure Site.Around (s t : Site κ) (n : Nat) : Prop where
  log : t.log = s.log
  forks : t.forks = s.forks
  strays : t.strays = s.strays
  reads : t.reads <:+ s.reads
  polls : t.polls <:+ s.polls
  taken : (t.children n).taken = (s.children n).taken
  others : ∀ m ≠ n, (s.children m).Grows (t.children m)

theorem Site.Env.around (h : s.Env t) (n : Nat) : s.Around t n :=
  ⟨h.log, h.forks, h.strays, h.reads, h.polls, (h.children n).taken, fun m _ => h.children m⟩

theorem released_around (henv : (s.released n).Env t) :
    s.Around t n ∧ t.resolve = { s.resolve with childFd := none } ∧
      (t.children n).reader = false ∧ (t.children n).reaps = (s.children n).reaps := by
  refine ⟨⟨henv.log, henv.forks, henv.strays, henv.reads, henv.polls, ?_, fun m hm => ?_⟩,
    henv.resolve, ?_, ?_⟩
  · rw [(henv.children n).taken, released_child]
  · have hsame : (s.released n).children m = s.children m := Site.setChild_other _ hm
    exact hsame ▸ henv.children m
  · rw [(henv.children n).reader, released_child]
  · rw [(henv.children n).reaps, released_child]

theorem closes_of_ended (h : s.Around t n) (htaken : c.taken = (t.children n).taken)
    (hreaps : c.reaps = 1) (hgone : c.exited.isSome)
    (he : Ending s ((t.ended n c).note e) n k e) : Closes s ((t.ended n c).note e) n k e where
  ending := he
  log := congrArg _ h.log
  forks := h.forks
  strays := h.strays
  reads := h.reads
  polls := h.polls
  idle := ⟨rfl, rfl, rfl, rfl, rfl⟩
  taken := by
    rw [← h.taken]
    simp [Site.ended, Site.note, Site.setChild, htaken]
  reaped := by simp [Child.Reaped, Site.ended, Site.note, Site.setChild, hreaps, hgone]
  others m hm := by
    have hsame : ((t.ended n c).note e).children m = t.children m := Site.setChild_other _ hm
    rw [hsame]
    exact h.others m hm

def Child.collected (c : Child) : Child := { c with reaps := 1 }

def Child.slain (c : Child) : Child :=
  { c with exited := some (c.exited.getD false), killed := true, reaps := 1 }

theorem waitpid_alive (h : (s.children n).reaps = 0) :
    (s.waitpid n = (.running, s) ∧ (s.children n).exited = none) ∨
      (s.waitpid n = (.reaped, s.setChild n (s.children n).collected) ∧
        (s.children n).exited.isSome) := by
  unfold Site.waitpid
  simp only [h, if_true]
  cases hgone : (s.children n).exited with
  | none => exact .inl ⟨by simp, rfl⟩
  | some => exact .inr ⟨by simp [Child.collected, hgone], rfl⟩

theorem killAndReap_eq (h : (s.children n).reaps = 0) :
    s.killAndReap n = s.atOther.setChild n (s.atOther.children n).slain := by
  have hreaps : (s.atOther.children n).reaps = 0 := (s.atOther_env.children n).reaps.trans h
  unfold Site.killAndReap Site.kill Site.waitExit
  simp [hreaps, Site.setChild, Child.slain]

section App
variable {app : Site κ → Site κ}

theorem complete_ended (hdone : t.resolve.onDone = some k) (hlookup : t.resolve.lookup = n)
    (hpiped : Piped t n) (c : Child) (hreader : c.reader = (t.children n).reader) :
    complete app outcome (t.setChild n c).dropChild =
      app ((t.ended n c).note (.done n k (resultOf outcome t.resolve.record))) := by
  have hpipe : Piped (t.setChild n c).dropChild n := by
    have hsame : (t.setChild n c).dropChild.children n = c := Site.setChild_same t
    rw [Piped, hsame, hreader]
    exact hpiped
  have hsettle : settle (t.setChild n c).dropChild = t.ended n c := by
    unfold settle
    rw [releaseFd_eq hpipe]
    simp [Site.ended, Site.setChild, Site.dropChild, Site.released, Site.clear, Resolver.cleared]
  have hdone' : (t.setChild n c).dropChild.resolve.onDone = some k := hdone
  rw [complete_eq hdone', hsettle]
  exact congrArg (fun m => app ((t.ended n c).note (.done m k (resultOf outcome t.resolve.record))))
    hlookup

def Over (s t : Site κ) (e : Event κ) : Prop :=
  ∃ u, Steps s u ∧ u.resolve.child = none ∧ e ∈ u.log ∧ Steps u t

theorem Over.steps (h : Over s t e) : Steps s t := by
  obtain ⟨u, hbefore, -, -, hafter⟩ := h
  exact hbefore.trans hafter

theorem Closes.over (hc : Closes s t n k e) (happ : Obeys app) (h : Books s)
    (hi : Intact s n k) : Over s (app t) e :=
  have hstep : Steps s t := .single (.closes hi hc)
  ⟨t, hstep, hc.idle.child, hc.log ▸ mem_cons_self, happ t (Steps.books hstep h)⟩

section
variable (happ : Obeys app) (h : Books s)
include happ h

theorem reaped_over (hi : Intact s n k) (hgone : (s.atPoll.children n).exited.isSome)
    (hending : ∀ t : Site κ,
      t.children n = { s.atPoll.children n with reaps := 1, reader := false } →
      Ending s t n k (.done n k (resultOf outcome s.resolve.record))) :
    Over s (complete app outcome
      (s.atPoll.setChild n (s.atPoll.children n).collected).dropChild)
      (.done n k (resultOf outcome s.resolve.record)) := by
  have henv := s.atPoll_env
  have hi' : Intact s.atPoll n k := hi.env henv
  rw [complete_ended hi'.onDone hi'.lookup hi'.piped (s.atPoll.children n).collected rfl,
    henv.resolve]
  refine (closes_of_ended (c := (s.atPoll.children n).collected) (henv.around n) rfl rfl hgone
    (hending _ ?_)).over happ h hi
  simp [Site.ended, Site.note, Site.setChild, Child.collected]

theorem finish_over (hi : Intact s n k)
    (hquiet : s.resolve.childFd = some n → (s.children n).buffered = [])
    (hgone : (s.atPoll.children n).exited.isSome) :
    Over s (finish app n s) (.done n k (resultOf
      (if s.resolve.failure ≠ .ok then s.resolve.failure else verdict s.resolve.record)
      s.resolve.record)) := by
  have henv := s.atPoll_env
  have hi' : Intact s.atPoll n k := hi.env henv
  have hwait :
      s.atPoll.waitpid n = (.reaped, s.atPoll.setChild n (s.atPoll.children n).collected) := by
    obtain ⟨-, hnone⟩ | ⟨hwait, -⟩ := waitpid_alive hi'.alive.1
    · rw [hnone] at hgone
      cases hgone
    · exact hwait
  have hresolve : (s.atPoll.setChild n (s.atPoll.children n).collected).dropChild.resolve =
      { s.resolve with child := none } := by
    rw [← henv.resolve]
    rfl
  unfold finish
  rw [hwait]
  simp only [hresolve]
  by_cases hfailure : s.resolve.failure ≠ .ok
  · rw [if_pos hfailure, if_pos hfailure]
    exact reaped_over happ h hi hgone fun t _ => .failed hfailure
  · rw [if_neg hfailure, if_neg hfailure]
    have hfinished : ∀ t : Site κ,
        t.children n = { s.atPoll.children n with reaps := 1, reader := false } →
        Ending s t n k (.done n k (resultOf (verdict s.resolve.record) s.resolve.record)) :=
      fun t hpoll => .finished (not_not.mp hfailure) hquiet hpoll
    have hover := reaped_over happ h hi hgone hfinished
    rw [verdict] at hover ⊢
    split
    · rename_i hshort
      rwa [if_pos hshort] at hover
    · rename_i hlong
      rwa [if_neg hlong] at hover

theorem finish_steps (hn : s.resolve.child = some n)
    (hquiet : s.resolve.childFd = some n → (s.children n).buffered = []) :
    Steps s (finish app n s) := by
  have henv := s.atPoll_env
  obtain ⟨-, k, hi⟩ := h.intact hn
  have hi' : Intact s.atPoll n k := hi.env henv
  obtain ⟨hwait, -⟩ | ⟨-, hgone⟩ := waitpid_alive hi'.alive.1
  · unfold finish
    rw [hwait]
    simp only
    split
    · -- a pipe that cannot be read: the child is of no more use
      rename_i hfailure
      have hother := henv.trans s.atPoll.atOther_env
      have hi'' : Intact s.atPoll.atOther n k := hi.env hother
      rw [killAndReap_eq hi'.alive.1, complete_ended hi''.onDone hi''.lookup hi''.piped
        (s.atPoll.atOther.children n).slain rfl]
      refine ((closes_of_ended (c := (s.atPoll.atOther.children n).slain) (hother.around n) rfl
        rfl rfl ?_).over happ h hi).steps
      rw [hother.resolve, henv.resolve]
      rw [henv.resolve] at hfailure
      exact .failed hfailure
    · exact .single (.env henv)
  · exact (finish_over happ h hi hquiet hgone).steps

theorem tryFinish_steps : Steps s (tryFinish app s) := by
  unfold tryFinish
  cases hn : s.resolve.child with
  | none => exact .refl
  | some =>
    obtain ⟨hsteps, hchild, hquiet⟩ := drain_close h hn
    exact hsteps.trans (finish_steps happ (Steps.books hsteps h) hchild hquiet)

theorem onChildOutput_steps : Steps s (onChildOutput app events s) := by
  have hdrain : Steps s (drain s).2 := by
    cases hfd : s.resolve.childFd with
    | none => exact drain_closed hfd ▸ Relation.ReflTransGen.refl
    | some =>
      cases hn : s.resolve.child with
      | none =>
        have hnone := (h.idle hn).2.childFd
        rw [hfd] at hnone
        cases hnone
      | some =>
        obtain ⟨-, k, hi⟩ := h.intact hn
        obtain ⟨hopen, -⟩ | ⟨hclosed, -⟩ := hi.pipe
        · exact (drain_drains h hn hopen).steps
        · cases hfd.symm.trans hclosed
  unfold onChildOutput
  simp only
  split
  · exact hdrain
  · exact hdrain.trans (tryFinish_steps happ (Steps.books hdrain h))

theorem expire_over (hn : s.resolve.child = some n) :
    ∃ k, Over s (expire app n s) (.done n k (resultOf .timedOut s.resolve.record)) := by
  obtain ⟨-, k, hi⟩ := h.intact hn
  have henv := (s.released n).atOther_env
  obtain ⟨haround, hresolve, hreader, hreaps⟩ := released_around henv
  have hpiped : Piped (s.released n).atOther n := .inr ⟨by rw [hresolve], hreader⟩
  have halive : ((s.released n).children n).reaps = 0 := by
    rw [← (henv.children n).reaps, hreaps]
    exact hi.alive.1
  have hdone : (s.released n).atOther.resolve.onDone = some k := by
    rw [hresolve]
    exact hi.onDone
  have hlookup : (s.released n).atOther.resolve.lookup = n := by
    rw [hresolve]
    exact hi.lookup
  unfold expire
  rw [releaseFd_eq hi.piped, killAndReap_eq halive,
    complete_ended hdone hlookup hpiped ((s.released n).atOther.children n).slain rfl]
  rw [hresolve]
  exact ⟨k, (closes_of_ended (c := ((s.released n).atOther.children n).slain) haround rfl rfl rfl
    .timedOut).over happ h hi⟩

theorem tick_rest (hn : s.resolve.child = some n) : Steps (tryFinish app s) (tick app nowMs s) := by
  unfold tick
  simp only [hn]
  obtain ⟨-, k, hi⟩ := h.intact hn
  have htry := tryFinish_steps happ h
  generalize tryFinish app s = u at htry
  have hbooks := Steps.books htry h
  have hknown : n < u.forks := hi.known.trans_le (Steps.past htry).forks
  cases hu : u.resolve.child with
  | none => exact .single (.ticked hknown fun hsome => by cases hu.symm.trans hsome)
  | some =>
    simp only
    split
    · -- whichever lookup ran out of time, the one this tick began with is over
      obtain ⟨_, hover⟩ := expire_over happ hbooks hu
      have hlater := hknown.trans_le (Steps.past hover.steps).forks
      refine hover.steps.tail (.ticked hlater fun hsome => ?_)
      obtain ⟨v, hbefore, hidle, -, hafter⟩ := hover
      exact absurd hsome ((Steps.past hafter).child n (hknown.trans_le (Steps.past hbefore).forks)
        (hidle ▸ (by simp)))
    · rename_i hearly
      exact .single (.ticked hknown fun _ => UInt64.not_le.mp hearly)

theorem tick_steps : Steps s (tick app nowMs s) := by
  cases hn : s.resolve.child with
  | none =>
    unfold tick
    rw [hn]
  | some => exact (tryFinish_steps happ h).trans (tick_rest happ h hn)

end

theorem discard_idle (h : Idle s.resolve) : discard s = s := by
  obtain ⟨⟨_, _, _, _, _, _, _, _⟩, _, _, _, _, _, _, _, _⟩ := s
  obtain ⟨hchild, hfd, hrecord, hfailure, hdone⟩ := h
  subst hchild hfd hrecord hfailure hdone
  rfl

theorem discard_eq (hchild : s.resolve.child = some n) (hpiped : Piped s n)
    (halive : (s.children n).reaps = 0) :
    ∃ t c, s.Around t n ∧ t.resolve = { s.resolve with childFd := none } ∧
      discard s = t.ended n c ∧ c.taken = (t.children n).taken ∧ c.reaps = 1 ∧
      c.exited.isSome := by
  have hended {t : Site κ} {c : Child} (hfd : t.resolve.childFd = none) (hc : c.reader = false) :
      (t.setChild n c).clear = t.ended n c := by
    have hsame : { c with reader := false } = c := by rw [← hc]
    simp [Site.ended, Site.setChild, Site.clear, Resolver.cleared, hfd, hsame]
  have henv := (s.released n).atOther_env
  obtain ⟨haround, hresolve, hreader, hreaps⟩ := released_around henv
  have halive' := hreaps.trans halive
  have hchild' : (s.released n).resolve.child = some n := hchild
  unfold discard discardChild
  rw [releaseFd_eq hpiped]
  simp only [hchild']
  obtain ⟨hwait, -⟩ | ⟨hwait, hgone⟩ := waitpid_alive halive'
  · have henv' := henv.trans (s.released n).atOther.atOther_env
    obtain ⟨haround', hresolve', hreader', -⟩ := released_around henv'
    refine ⟨(s.released n).atOther.atOther, ((s.released n).atOther.atOther.children n).slain,
      haround', hresolve', ?_, rfl, rfl, rfl⟩
    rw [hwait]
    simp only
    rw [killAndReap_eq halive']
    exact hended (by rw [hresolve']) hreader'
  · refine ⟨(s.released n).atOther, ((s.released n).atOther.children n).collected, haround,
      hresolve, ?_, rfl, rfl, hgone⟩
    rw [hwait]
    exact hended (by rw [hresolve]) hreader

theorem cancel_steps (h : Books s) : Steps s (cancel s) := by
  unfold cancel
  cases hn : s.resolve.child with
  | none => rw [discard_idle (h.idle hn).2]
  | some =>
    obtain ⟨-, k, hi⟩ := h.intact hn
    obtain ⟨t, c, haround, -, heq, htaken, hreaps, hgone⟩ := discard_eq hn hi.piped hi.alive.1
    simp only [hi.onDone]
    rw [heq]
    exact .single (.closes hi (closes_of_ended haround htaken hreaps hgone .cancelled))

theorem forked_child : (forked s record).children s.forks = { record, left := record.bytes } :=
  Site.setChild_same ..

theorem forked_other (hm : m < s.forks) : (forked s record).children m = s.children m :=
  Site.setChild_other _ (ne_of_lt hm)

theorem forks_of_around (h : (forked s record).Around t s.forks) : Forks s t :=
  ⟨h.forks, h.strays, h.reads, h.polls, fun m hm => forked_other hm ▸ h.others m (ne_of_lt hm)⟩

theorem unfork_step (h : Idle s.resolve) : Step s (unfork (forked s record) s.forks) := by
  have hrelease : (forked s record).setChild s.forks
      { (forked s record).children s.forks with reader := false } =
        (forked s record).released s.forks := by
    have hfd : (forked s record).resolve.childFd = none := h.childFd
    have hsame :
        { (forked s record).resolve with childFd := none } = (forked s record).resolve := by
      rw [← hfd]
    rw [Site.released, hsame]
    rfl
  have henv := ((forked s record).released s.forks).atOther_env
  obtain ⟨haround, hresolve, hreader, hreaps⟩ := released_around henv
  have halive : (((forked s record).released s.forks).children s.forks).reaps = 0 := by
    rw [← (henv.children s.forks).reaps, hreaps, forked_child]
  unfold unfork
  rw [hrelease, killAndReap_eq halive]
  generalize ((forked s record).released s.forks).atOther = t at *
  have hforks := forks_of_around haround
  have hidle : Idle t.resolve := by
    rw [hresolve]
    exact ⟨h.child, rfl, h.record, h.failure, h.onDone⟩
  refine .abort h.child ⟨hforks.forks, hforks.strays, hforks.reads, hforks.polls, fun m hm => ?_⟩
    hidle haround.log ?_
  · rw [Site.setChild_other _ (ne_of_lt hm)]
    exact hforks.others m hm
  · rw [Site.setChild_same]
    exact ⟨rfl, rfl, hreader⟩

theorem discard_engage_step (h : Idle s.resolve) : Step s (discard (engage s k nowMs record)) := by
  have hchild : (engage s k nowMs record).children s.forks = { record, left := record.bytes } :=
    forked_child
  obtain ⟨t, c, haround, -, heq, -, hreaps, hgone⟩ :=
    discard_eq rfl
      (.inl ⟨rfl, by rw [hchild]⟩) (by rw [hchild])
  have haround' : (forked s record).Around t s.forks :=
    ⟨haround.log, haround.forks, haround.strays, haround.reads, haround.polls, haround.taken,
      haround.others⟩
  have hforks : Forks s t := forks_of_around haround'
  rw [heq]
  refine .abort h.child ⟨hforks.forks, hforks.strays, hforks.reads, hforks.polls, fun m hm => ?_⟩
    t.ended_idle haround.log ?_
  · have hsame : (t.ended s.forks c).children m = t.children m :=
      Site.setChild_other _ (ne_of_lt hm)
    rw [hsame]
    exact hforks.others m hm
  · have hown : (t.ended s.forks c).children s.forks = { c with reader := false } :=
      Site.setChild_same ..
    rw [hown]
    exact ⟨hreaps, hgone, rfl⟩

theorem engage_step (h : Idle s.resolve) :
    Step s ((engage s k nowMs record).note (.started s.forks k (nowMs + timeoutMs))) := by
  have hchild : ((engage s k nowMs record).note (.started s.forks k (nowMs + timeoutMs))).children
      s.forks = { record, left := record.bytes } := forked_child
  refine .start h.child ⟨rfl, rfl, suffix_rfl, suffix_rfl, fun m hm => ?_⟩ ?_ rfl hchild rfl rfl
  · exact forked_other hm ▸ .rfl
  · refine ⟨rfl, rfl, Nat.lt_succ_self _, rfl, mem_cons_self, ?_, Nat.zero_le _, .inl ⟨rfl, ?_⟩, ?_⟩
    · rw [hchild]
      rfl
    · rw [hchild]
    · rw [hchild]
      exact ⟨rfl, rfl⟩

theorem start_steps (h : Books s) : Steps s (start s host onDone nowMs launch).2 := by
  unfold start
  iterate 4
    split
    · exact .refl
  rename_i hbusy
  have hidle := (h.idle (by simpa using hbusy)).2
  rw [discard_idle hidle]
  split
  · exact .refl
  · exact .refl
  · exact .single (unfork_step hidle)
  · exact .single (discard_engage_step hidle)
  · exact .single (engage_step hidle)

theorem Call.steps (happ : Obeys app) (h : Books s) (c : Call κ) : Steps s (c.step app s) := by
  cases c with
  | start => exact start_steps h
  | output => exact onChildOutput_steps happ h
  | tick => exact tick_steps happ h
  | cancel | shutdown => exact cancel_steps h

end App

theorem foldl_steps {run : Site κ → Call κ → Site κ} (hrun : ∀ s c, Books s → Steps s (run s c))
    (calls : List (Call κ)) (h : Books s) : Steps s (calls.foldl run s) := by
  induction calls generalizing s with
  | nil => exact .refl
  | cons c _ ih =>
    have hc := hrun s c h
    exact hc.trans (ih (Steps.books hc h))

theorem callback_steps {run : Site κ → Call κ → Site κ}
    (hrun : ∀ s c, Books s → Steps s (run s c)) : Obeys (callback run) := by
  intro s h
  unfold callback
  split
  · exact .refl
  · rename_i script scripts _
    have hscripts : Steps s { s with scripts } := .single (.scripts scripts)
    exact hscripts.trans (foldl_steps hrun script (Steps.books hscripts h))

theorem perform_steps (depth : Nat) (s : Site κ) (c : Call κ) (h : Books s) :
    Steps s (perform depth s c) := by
  induction depth generalizing s c with
  | zero => exact c.steps (fun _ _ => .refl) h
  | succ _ ih => exact c.steps (callback_steps ih) h

theorem run_steps (depth : Nat) (calls : List (Call κ)) (h : Books s) :
    Steps s (run depth s calls) :=
  foldl_steps (perform_steps depth) calls h

theorem Site.Fresh.books (h : s.Fresh) : Books s := by
  obtain ⟨_, hresolve⟩ := h.resolve
  refine ⟨?_, ?_, ?_, ?_, ?_, ?_, h.strays⟩
  · rw [h.log]
    exact .nil
  · rw [h.log]
    exact .nil
  · rw [h.log]
    constructor <;> rw [hresolve]
  · intro n hn
    rw [h.forks] at hn
    cases hn
  · rw [h.log]
    exact nofun
  · rw [h.log]
    exact nofun

theorem Books.engaged_iff (h : Books s) :
    engaged Event.stage s.log = some n ↔ s.resolve.child = some n := by
  refine ⟨fun hopen => ?_, fun hchild => (h.intact hchild).1⟩
  have hcurrent := h.current
  rw [hopen] at hcurrent
  obtain ⟨k, hi⟩ := hcurrent
  exact hi.child

theorem tick_log (h : s.resolve.child = some n) :
    ∃ before, (tick app nowMs s).log = .ticked nowMs n :: before := by
  unfold tick
  simp only [h]
  exact ⟨_, rfl⟩

theorem tick_late (h : Books s) (hchild : s.resolve.child = some n)
    (hlate : s.resolve.deadlineMs ≤ nowMs) :
    (perform depth s (.tick nowMs)).resolve.child ≠ some n := by
  have hsteps := perform_steps depth s (.tick nowMs) h
  have hbooks := Steps.books hsteps h
  obtain ⟨-, k, hi⟩ := h.intact hchild
  obtain ⟨before, hlog⟩ : ∃ before, (perform depth s (.tick nowMs)).log =
    .ticked nowMs n :: before := by
    cases depth with
    | zero => exact tick_log hchild
    | succ => exact tick_log hchild
  have hstarted : .started n k s.resolve.deadlineMs ∈ before := by
    have hmem := (Steps.past hsteps).log.subset hi.deadline
    rw [hlog] at hmem
    exact mem_of_ne_of_mem (by nofun) hmem
  have hrightful : Rightful (.ticked nowMs n) before := (hlog ▸ hbooks.rightful).head
  have hclosed := hrightful k _ hstarted hlate
  rw [ne_eq, ← hbooks.engaged_iff, hlog]
  exact hclosed

/-- Every lookup is closed once, by its callback or a cancel, by the first tick at or after its
deadline, unless it still is the resolver's; `ok` is only told of a whole record; every child is
reaped once, unless it is at hand; and the resolver holds the data of its own lookup and nothing
else. -/
theorem run_lookups (hs : s.Fresh) (depth : Nat) (calls : List (Call κ)) :
    let t := run depth s calls
    (∀ after before n k deadlineMs, t.log = after ++ .started n k deadlineMs :: before →
      closings Event.stage n before = 0 ∧
      closings Event.stage n after = (if t.resolve.child = some n then 0 else 1) ∧
      ∀ k' r, .done n k' r ∈ t.log → k' = k) ∧
    (∀ after before nowMs n k deadlineMs, t.log = after ++ .ticked nowMs n :: before →
      .started n k deadlineMs ∈ before → deadlineMs ≤ nowMs → closings Event.stage n before = 1) ∧
    (∀ n k r, .done n k r ∈ t.log → r.outcome = .ok →
      recordSize ≤ (t.children n).taken.length ∧ r = resultOf .ok (t.children n).taken) ∧
    (∀ n < t.forks, (t.children n).reaps = if t.resolve.child = some n then 0 else 1) ∧
    t.strays = 0 ∧
    ∀ n, t.resolve.child = some n → (∃ k, Intact t n k) ∧
      ∀ nowMs, t.resolve.deadlineMs ≤ nowMs →
        (perform depth t (.tick nowMs)).resolve.child ≠ some n := by
  intro t
  have h : Books t := Steps.books (run_steps depth calls hs.books) hs.books
  refine ⟨?_, ?_, ?_, ?_, h.strays,
    fun n hn => ⟨(h.intact hn).2, fun _ hlate => tick_late h hn hlate⟩⟩
  · intro _ _ n k deadlineMs hlog
    have horderly := h.orderly
    rw [hlog] at horderly
    obtain ⟨hbefore, hafter⟩ := horderly.closings_after rfl
    refine ⟨hbefore, ?_, fun k' r hdone => ?_⟩
    · rw [hafter, ← hlog]
      simp only [h.engaged_iff]
    · obtain ⟨_, earlier, hsplit⟩ := append_of_mem hdone
      obtain ⟨deadlineMs', hstarted⟩ :=
        h.rightful (.done n k' r) earlier (hsplit ▸ suffix_append _ _)
      have hmem : .started n k' deadlineMs' ∈ t.log := by
        rw [hsplit]
        exact mem_append_right _ (mem_cons_of_mem _ hstarted)
      have hmem' : .started n k deadlineMs ∈ t.log := by
        rw [hlog]
        exact mem_append_right _ mem_cons_self
      cases h.orderly.opened_unique hmem hmem' rfl rfl
      rfl
  · intro _ before nowMs n k deadlineMs hlog hstarted hlate
    have hsuffix : .ticked nowMs n :: before <:+ t.log := hlog ▸ suffix_append _ _
    have hclosed := h.rightful _ _ hsuffix k deadlineMs hstarted hlate
    have horderly := h.orderly.suffix ((suffix_cons _ _).trans hsuffix)
    have hclosings := horderly.closings_eq hstarted rfl
    rwa [if_neg hclosed] at hclosings
  · intro n k r hdone hok
    have htold := h.told n k r hdone
    exact ⟨htold.whole hok, hok ▸ htold.result⟩
  · intro n hn
    split
    · rename_i hchild
      obtain ⟨-, k, hi⟩ := h.intact hchild
      exact hi.alive.1
    · rename_i hchild
      exact (h.reaped n hn hchild).1

def noAddress : Address := ⟨0, List.replicate 128 0, length_replicate⟩

def slowSite : Site Unit where
  resolve := { loop := true }
  children _ := { record := ⟨0, 0, fun _ => noAddress⟩, left := [] }
  scripts := [[.start (some [0x61]) (some ()) 5000 { record := ⟨0, 0, fun _ => noAddress⟩ }]]

theorem run_lookups_slow :
    let calls :=
      [.start (some [0x62]) (some ()) 0 { record := ⟨0, 0, fun _ => noAddress⟩ }, .tick 5000]
    let t := run 1 slowSite calls
    t.resolve.child = some 1 ∧ (t.children 0).reaps = 1 ∧ (t.children 1).reaps = 0 ∧
      (∃ after, t.log = after ++ [.started 0 () 5000] ∧ closings Event.stage 0 after = 1) ∧
      ∃ k, Intact t 1 k := by
  intro calls t
  have h := run_lookups (s := slowSite) ⟨⟨true, rfl⟩, rfl, rfl, rfl⟩ 1 calls
  have hchild : t.resolve.child = some 1 := rfl
  refine ⟨hchild, ?_, ?_, ?_, (h.2.2.2.2.2 1 hchild).1⟩
  · simpa [t, hchild] using h.2.2.2.1 0 (by decide)
  · simpa [t, hchild] using h.2.2.2.1 1 (by decide)
  · have hlog : t.log = [.ticked 5000 0, .started 1 () 10000, .done 0 () (resultOf .timedOut [])] ++
        [.started 0 () 5000] := rfl
    exact ⟨_, hlog, (h.1 _ _ _ _ _ hlog).2.1⟩

end Inkwell.Resolve
