import Inkwell.Library.Engagement
import Inkwell.Net.Resolve

namespace Inkwell.Resolve
open Library List

/-- A child has acted: what it writes it writes in order, and once it is gone it does nothing. -/
structure Child.Grows (c c' : Child) : Prop where
  record : c'.record = c.record
  taken : c'.taken = c.taken
  reader : c'.reader = c.reader
  reaps : c'.reaps = c.reaps
  killed : c'.killed = c.killed
  stream : c'.buffered ++ c'.left = c.buffered ++ c.left
  gone : c.exited.isSome → c' = c

theorem Child.Grows.rfl {c : Child} : c.Grows c :=
  ⟨.refl _, .refl _, .refl _, .refl _, .refl _, .refl _, fun _ => .refl _⟩

theorem Child.Grows.trans {c c' c'' : Child} (h : c.Grows c') (h' : c'.Grows c'') :
    c.Grows c'' where
  record := h'.record.trans h.record
  taken := h'.taken.trans h.taken
  reader := h'.reader.trans h.reader
  reaps := h'.reaps.trans h.reaps
  killed := h'.killed.trans h.killed
  stream := h'.stream.trans h.stream
  gone hgone := by
    obtain rfl := h.gone hgone
    exact h'.gone hgone

theorem Child.act_grows (c : Child) : c.Grows (c.act a) := by
  cases a with
  | write =>
    simp only [Child.act]
    split
    · refine ⟨rfl, rfl, rfl, rfl, rfl, ?_, fun hgone => ?_⟩
      · simp
      · simp_all
    · exact .rfl
  | exit =>
    simp only [Child.act]
    split
    · exact ⟨rfl, rfl, rfl, rfl, rfl, rfl, fun hgone => by simp_all⟩
    · exact .rfl

/-- Time passes for the parent: children act, and what was going to happen has. -/
structure Site.Env (s t : Site κ) : Prop where
  resolve : t.resolve = s.resolve
  forks : t.forks = s.forks
  log : t.log = s.log
  strays : t.strays = s.strays
  reads : t.reads <:+ s.reads
  polls : t.polls <:+ s.polls
  children : ∀ n, (s.children n).Grows (t.children n)

theorem Site.Env.rfl {s : Site κ} : s.Env s :=
  ⟨.refl _, .refl _, .refl _, .refl _, suffix_rfl, suffix_rfl, fun _ => .rfl⟩

theorem Site.Env.trans {s t u : Site κ} (h : s.Env t) (h' : t.Env u) : s.Env u where
  resolve := h'.resolve.trans h.resolve
  forks := h'.forks.trans h.forks
  log := h'.log.trans h.log
  strays := h'.strays.trans h.strays
  reads := h'.reads.trans h.reads
  polls := h'.polls.trans h.polls
  children n := (h.children n).trans (h'.children n)

@[simp] theorem Site.setChild_same (s : Site κ) : (s.setChild n c).children n = c := by
  simp [Site.setChild]

theorem Site.setChild_other (s : Site κ) (h : m ≠ n) :
    (s.setChild n c).children m = s.children m := by
  simp [Site.setChild, h]

theorem Site.act_env (s : Site κ) : s.Env (s.act a) := by
  unfold Site.act
  split
  · refine ⟨rfl, rfl, rfl, rfl, suffix_rfl, suffix_rfl, fun n => ?_⟩
    by_cases h : n = a.1
    · subst h
      rw [Site.setChild_same]
      exact Child.act_grows _
    · rw [Site.setChild_other _ h]
      exact .rfl
  · exact .rfl

theorem Site.happen_env (s : Site κ) (acts : Acts) : s.Env (s.happen acts) := by
  induction acts generalizing s with
  | nil => exact .rfl
  | cons a _ ih => exact s.act_env.trans (ih (s.act a))

theorem Site.atRead_env (s : Site κ) : s.Env s.atRead :=
  { s.happen_env _ with reads := tail_suffix _ }

theorem Site.atPoll_env (s : Site κ) : s.Env s.atPoll :=
  { s.happen_env _ with polls := tail_suffix _ }

theorem Site.atOther_env (s : Site κ) : s.Env s.atOther := { s.happen_env _ with }

def Event.stage : Event κ → Stage Nat
  | .started n .. => .opens n
  | .done n .. => .closes n
  | .cancelled n _ => .closes n
  | .ticked .. => .neutral

def Event.number : Event κ → Nat
  | .started n .. => n
  | .done n .. => n
  | .cancelled n _ => n
  | .ticked _ n => n

def Spent (s : Site κ) (n : Nat) : Prop :=
  bufferSize ≤ s.resolve.record.length ∨
    ((s.children n).buffered = [] ∧ (s.children n).exited.isSome) ∨ s.resolve.failure ≠ .ok

structure Intact (s : Site κ) (n : Nat) (k : κ) : Prop where
  child : s.resolve.child = some n
  lookup : s.resolve.lookup = n
  known : n < s.forks
  onDone : s.resolve.onDone = some k
  deadline : .started n k s.resolve.deadlineMs ∈ s.log
  record : s.resolve.record = (s.children n).taken
  room : s.resolve.record.length ≤ bufferSize
  pipe : (s.resolve.childFd = some n ∧ (s.children n).reader) ∨
    (s.resolve.childFd = none ∧ (s.children n).reader = false ∧ Spent s n)
  alive : (s.children n).reaps = 0 ∧ (s.children n).killed = false

structure Idle (r : Resolver κ) : Prop where
  child : r.child = none
  childFd : r.childFd = none
  record : r.record = []
  failure : r.failure = .ok
  onDone : r.onDone = none

structure Told (taken : Bytes) (r : Result) : Prop where
  result : r = resultOf r.outcome taken
  whole : r.outcome = .ok → recordSize ≤ taken.length

def Child.Reaped (c : Child) : Prop := c.reaps = 1 ∧ c.exited.isSome ∧ c.reader = false

/-- The callback is the one that was given, and a tick at or after the deadline has closed the
lookup. -/
def Rightful (e : Event κ) (before : List (Event κ)) : Prop :=
  match e with
  | .started .. => True
  | .done n k _ => ∃ deadlineMs, .started n k deadlineMs ∈ before
  | .cancelled n k => ∃ deadlineMs, .started n k deadlineMs ∈ before
  | .ticked nowMs n => ∀ k deadlineMs, .started n k deadlineMs ∈ before → deadlineMs ≤ nowMs →
      engaged Event.stage before ≠ some n

structure Books (s : Site κ) : Prop where
  orderly : Always (Orderly Event.stage) s.log
  rightful : Always Rightful s.log
  current : match engaged Event.stage s.log with
    | none => Idle s.resolve
    | some n => ∃ k, Intact s n k
  reaped : ∀ n < s.forks, s.resolve.child ≠ some n → (s.children n).Reaped
  known : ∀ e ∈ s.log, e.number < s.forks
  told : ∀ n k r, .done n k r ∈ s.log → Told (s.children n).taken r
  strays : s.strays = 0

theorem Books.idle (h : Books s) (hchild : s.resolve.child = none) :
    engaged Event.stage s.log = none ∧ Idle s.resolve := by
  have hcurrent := h.current
  cases he : engaged Event.stage s.log with
  | none =>
    rw [he] at hcurrent
    exact ⟨rfl, hcurrent⟩
  | some =>
    rw [he] at hcurrent
    obtain ⟨_, hi⟩ := hcurrent
    cases hi.child.symm.trans hchild

theorem Books.intact (h : Books s) (hchild : s.resolve.child = some n) :
    engaged Event.stage s.log = some n ∧ ∃ k, Intact s n k := by
  have hcurrent := h.current
  cases he : engaged Event.stage s.log with
  | none =>
    rw [he] at hcurrent
    cases hcurrent.child.symm.trans hchild
  | some m =>
    rw [he] at hcurrent
    obtain ⟨k, hi⟩ := hcurrent
    obtain rfl : m = n := Option.some.inj (hi.child.symm.trans hchild)
    exact ⟨rfl, k, hi⟩

theorem Books.told_other (h : Books s) (hchild : s.resolve.child = some n)
    (hdone : .done m k r ∈ s.log) : m ≠ n := by
  rintro rfl
  exact engaged_eq_none_of_closed h.orderly hdone rfl (h.intact hchild).1

def verdict (bytes : Bytes) : Outcome :=
  if bytes.length < recordSize then .failed else outcomeOf (recordOf bytes)

/-- A lookup that finished was found exited by a poll, after the pipe was read until it was empty
or closed. -/
inductive Ending (s t : Site κ) (n : Nat) (k : κ) : Event κ → Prop
  | cancelled : Ending s t n k (.cancelled n k)
  | timedOut : Ending s t n k (.done n k (resultOf .timedOut s.resolve.record))
  | failed (hfailure : s.resolve.failure ≠ .ok) :
      Ending s t n k (.done n k (resultOf s.resolve.failure s.resolve.record))
  | finished (hfailure : s.resolve.failure = .ok)
      (hquiet : s.resolve.childFd = some n → (s.children n).buffered = [])
      (hpoll : t.children n = { s.atPoll.children n with reaps := 1, reader := false }) :
      Ending s t n k (.done n k (resultOf (verdict s.resolve.record) s.resolve.record))

/-- A lookup ends: its child is reaped, its pipe closed and the resolver idle. -/
structure Closes (s t : Site κ) (n : Nat) (k : κ) (e : Event κ) : Prop where
  ending : Ending s t n k e
  log : t.log = e :: s.log
  forks : t.forks = s.forks
  strays : t.strays = s.strays
  reads : t.reads <:+ s.reads
  polls : t.polls <:+ s.polls
  idle : Idle t.resolve
  taken : (t.children n).taken = (s.children n).taken
  reaped : (t.children n).Reaped
  others : ∀ m ≠ n, (s.children m).Grows (t.children m)

structure Forks (s t : Site κ) : Prop where
  forks : t.forks = s.forks + 1
  strays : t.strays = s.strays
  reads : t.reads <:+ s.reads
  polls : t.polls <:+ s.polls
  others : ∀ m < s.forks, (s.children m).Grows (t.children m)

def Site.took (s : Site κ) (n : Nat) (bytes rest : Bytes) : Site κ :=
  { s.setChild n { s.children n with buffered := rest, taken := (s.children n).taken ++ bytes } with
    resolve := { s.resolve with record := s.resolve.record ++ bytes } }

inductive Step : Site κ → Site κ → Prop
  | env (h : s.Env t) : Step s t
  | scripts (scripts : List (List (Call κ))) : Step s { s with scripts }
  | take (hn : s.resolve.child = some n) (hfd : s.resolve.childFd = some n)
      (hsplit : (s.children n).buffered = bytes ++ rest)
      (hroom : s.resolve.record.length + bytes.length ≤ bufferSize) : Step s (s.took n bytes rest)
  | fail (hn : s.resolve.child = some n) (he : s.Env t) (herror : (acts, .error) ∈ s.reads) :
      Step s { t with resolve := { t.resolve with failure := .failed } }
  | close (hn : s.resolve.child = some n) (hspent : Spent s n) : Step s (releaseFd s)
  | closes (hn : Intact s n k) (h : Closes s t n k e) : Step s t
  | start (hchild : s.resolve.child = none) (hforks : Forks s t)
      (hintact : Intact t s.forks k)
      (hlog : t.log = .started s.forks k t.resolve.deadlineMs :: s.log)
      (hnew : t.children s.forks = { record, left := record.bytes })
      (hfd : t.resolve.childFd = some s.forks) (hok : t.resolve.failure = .ok) : Step s t
  | abort (hchild : s.resolve.child = none) (hforks : Forks s t) (hidle : Idle t.resolve)
      (hlog : t.log = s.log) (hreaped : (t.children s.forks).Reaped) : Step s t
  | ticked (hn : n < s.forks) (hpast : s.resolve.child = some n → nowMs < s.resolve.deadlineMs) :
      Step s (s.note (.ticked nowMs n))

section Kept
variable {s t : Site κ}

theorem Spent.env (h : Spent s n) (he : s.Env t) : Spent t n := by
  unfold Spent at *
  rw [he.resolve]
  obtain h | ⟨hempty, hgone⟩ | h := h
  · exact .inl h
  · rw [(he.children n).gone hgone]
    exact .inr (.inl ⟨hempty, hgone⟩)
  · exact .inr (.inr h)

theorem Intact.env (h : Intact s n k) (he : s.Env t) : Intact t n k where
  child := by rw [he.resolve]; exact h.child
  lookup := by rw [he.resolve]; exact h.lookup
  known := by rw [he.forks]; exact h.known
  onDone := by rw [he.resolve]; exact h.onDone
  deadline := by rw [he.resolve, he.log]; exact h.deadline
  record := by rw [he.resolve, (he.children n).taken]; exact h.record
  room := by rw [he.resolve]; exact h.room
  pipe := by
    rw [he.resolve, (he.children n).reader]
    exact h.pipe.imp_right fun ⟨hfd, hreader, hspent⟩ => ⟨hfd, hreader, hspent.env he⟩
  alive := by rw [(he.children n).reaps, (he.children n).killed]; exact h.alive

theorem Intact.logged (h : Intact s n k) (hlog : s.log ⊆ log) :
    Intact { s with scripts, log } n k :=
  ⟨h.child, h.lookup, h.known, h.onDone, hlog h.deadline, h.record, h.room, h.pipe, h.alive⟩

theorem Books.env (h : Books s) (he : s.Env t) : Books t where
  orderly := by rw [he.log]; exact h.orderly
  rightful := by rw [he.log]; exact h.rightful
  current := by
    have hcurrent := h.current
    rw [he.log]
    split at hcurrent
    · rw [he.resolve]
      exact hcurrent
    · obtain ⟨k, hi⟩ := hcurrent
      exact ⟨k, hi.env he⟩
  reaped n hn hchild := by
    rw [he.forks] at hn
    rw [he.resolve] at hchild
    have hold := h.reaped n hn hchild
    rw [(he.children n).gone hold.2.1]
    exact hold
  known := by rw [he.log, he.forks]; exact h.known
  told n k r hdone := by
    rw [he.log] at hdone
    rw [(he.children n).taken]
    exact h.told n k r hdone
  strays := by rw [he.strays]; exact h.strays

theorem Books.touch (h : Books s) (hi : Intact s n k) (hi' : Intact t n k) (hlog : t.log = s.log)
    (hforks : t.forks = s.forks) (hstrays : t.strays = s.strays)
    (hothers : ∀ m ≠ n, t.children m = s.children m) : Books t where
  orderly := by rw [hlog]; exact h.orderly
  rightful := by rw [hlog]; exact h.rightful
  current := by
    rw [hlog, (h.intact hi.child).1]
    exact ⟨k, hi'⟩
  reaped m hm hchild := by
    rw [hforks] at hm
    have hne : m ≠ n := fun he => hchild (he ▸ hi'.child)
    rw [hothers m hne]
    exact h.reaped m hm fun he => hne (Option.some.inj (he.symm.trans hi.child))
  known := by rw [hlog, hforks]; exact h.known
  told m k' r hdone := by
    rw [hlog] at hdone
    rw [hothers m (h.told_other hi.child hdone)]
    exact h.told m k' r hdone
  strays := by rw [hstrays]; exact h.strays

theorem Books.take (h : Books s) (hn : s.resolve.child = some n) (hfd : s.resolve.childFd = some n)
    (hroom : s.resolve.record.length + bytes.length ≤ bufferSize) :
    Books (s.took n bytes rest) := by
  obtain ⟨-, _, hi⟩ := h.intact hn
  refine h.touch hi ?_ rfl rfl rfl fun m hm => Site.setChild_other _ hm
  have hpipe := hi.pipe.resolve_right fun hclosed => by cases hfd.symm.trans hclosed.1
  refine ⟨hn, hi.lookup, hi.known, hi.onDone, hi.deadline, ?_, ?_, .inl ⟨hfd, ?_⟩, ?_⟩
  · simp [Site.took, Site.setChild, hi.record]
  · simpa [Site.took] using hroom
  · simpa [Site.took, Site.setChild] using hpipe.2
  · simpa [Site.took, Site.setChild] using hi.alive

theorem Books.fail (h : Books s) (hn : s.resolve.child = some n) (he : s.Env t) :
    Books { t with resolve := { t.resolve with failure := .failed } } := by
  have ht := h.env he
  obtain ⟨-, _, hi⟩ := ht.intact (by rw [he.resolve]; exact hn)
  refine ht.touch hi ?_ rfl rfl rfl fun _ _ => rfl
  refine ⟨hi.child, hi.lookup, hi.known, hi.onDone, hi.deadline, hi.record, hi.room, ?_, hi.alive⟩
  exact hi.pipe.imp_right fun ⟨hfd, hreader, _⟩ => ⟨hfd, hreader, .inr (.inr nofun)⟩

def Site.released (s : Site κ) (n : Nat) : Site κ :=
  { s.setChild n { s.children n with reader := false } with
    resolve := { s.resolve with childFd := none } }

def Piped (s : Site κ) (n : Nat) : Prop :=
  (s.resolve.childFd = some n ∧ (s.children n).reader) ∨
    (s.resolve.childFd = none ∧ (s.children n).reader = false)

theorem Intact.piped (h : Intact s n k) : Piped s n :=
  h.pipe.imp_right fun hclosed => ⟨hclosed.1, hclosed.2.1⟩

theorem releaseFd_eq (h : Piped s n) : releaseFd s = s.released n := by
  unfold releaseFd Site.released
  obtain ⟨hfd, -⟩ | ⟨hfd, hreader⟩ := h
  · simp only [hfd]
  · have hsame : { s.children n with reader := false } = s.children n := by rw [← hreader]
    simp only [hfd, hsame, Site.setChild, Function.update_eq_self]
    rw [← hfd]

theorem took_child : (s.took n bytes rest).children n =
    { s.children n with buffered := rest, taken := (s.children n).taken ++ bytes } :=
  Site.setChild_same ..

theorem released_child : (s.released n).children n = { s.children n with reader := false } :=
  Site.setChild_same ..

theorem Books.close (h : Books s) (hn : s.resolve.child = some n) (hspent : Spent s n) :
    Books (releaseFd s) := by
  obtain ⟨-, _, hi⟩ := h.intact hn
  rw [releaseFd_eq hi.piped]
  refine h.touch hi ?_ rfl rfl rfl fun m hm => Site.setChild_other _ hm
  refine ⟨hn, hi.lookup, hi.known, hi.onDone, hi.deadline, ?_, hi.room, .inr ⟨rfl, ?_, ?_⟩, ?_⟩
  · rw [released_child]
    exact hi.record
  · rw [released_child]
  · rw [Spent, released_child]
    exact hspent
  · rw [released_child]
    exact hi.alive

theorem resultOf_outcome : (resultOf outcome bytes).outcome = outcome := by
  unfold resultOf
  split <;> rfl

theorem Ending.stage (h : Ending s t n k e) : e.stage = .closes n ∧ e.number = n := by
  cases h <;> exact ⟨rfl, rfl⟩

theorem told_resultOf (h : outcome = .ok → recordSize ≤ taken.length) :
    Told taken (resultOf outcome taken) :=
  ⟨by rw [resultOf_outcome], by rw [resultOf_outcome]; exact h⟩

theorem Ending.told (h : Ending s t n k e) (hi : Intact s n k)
    (htaken : (t.children n).taken = (s.children n).taken) (he : e = .done m k' r) :
    m = n ∧ k' = k ∧ Told (t.children n).taken r := by
  have hread : s.resolve.record = (t.children n).taken := hi.record.trans htaken.symm
  cases h with
  | cancelled => cases he
  | timedOut =>
    cases he
    exact ⟨rfl, rfl, hread ▸ told_resultOf nofun⟩
  | failed hfailure =>
    cases he
    exact ⟨rfl, rfl, hread ▸ told_resultOf (absurd · hfailure)⟩
  | finished =>
    cases he
    refine ⟨rfl, rfl, hread ▸ told_resultOf fun hok => ?_⟩
    rw [verdict] at hok
    split at hok
    · cases hok
    · rename_i hlong
      exact le_of_not_gt hlong

theorem Books.closes (h : Books s) (hi : Intact s n k) (hc : Closes s t n k e) : Books t := by
  obtain ⟨hstage, hnumber⟩ := hc.ending.stage
  have hengaged := (h.intact hi.child).1
  have hclosed : engaged Event.stage t.log = none := by rw [hc.log, engaged, hstage]
  refine ⟨?_, ?_, ?_, ?_, ?_, ?_, ?_⟩
  · rw [hc.log]
    refine h.orderly.cons ?_
    rw [Orderly, hstage]
    exact hengaged
  · rw [hc.log]
    refine h.rightful.cons ?_
    cases hc.ending <;> exact ⟨_, hi.deadline⟩
  · rw [hclosed]
    exact hc.idle
  · intro m hm _
    by_cases hne : m = n
    · rw [hne]
      exact hc.reaped
    · rw [hc.forks] at hm
      have hold := h.reaped m hm fun he => hne (Option.some.inj (he.symm.trans hi.child))
      rw [(hc.others m hne).gone hold.2.1]
      exact hold
  · intro e' he'
    rw [hc.forks]
    rw [hc.log] at he'
    obtain rfl | he' := mem_cons.mp he'
    · rw [hnumber]
      exact hi.known
    · exact h.known e' he'
  · intro m k' r hdone
    rw [hc.log] at hdone
    obtain he' | hdone := mem_cons.mp hdone
    · obtain ⟨rfl, -, htold⟩ := hc.ending.told hi hc.taken he'.symm
      exact htold
    · rw [(hc.others m (h.told_other hi.child hdone)).taken]
      exact h.told m k' r hdone
  · rw [hc.strays]
    exact h.strays

theorem Forks.books (hf : Forks s t) (h : Books s) (hchild : s.resolve.child = none) :
    (∀ m < s.forks, (t.children m).Reaped) ∧
    ∀ m k r, .done m k r ∈ s.log → Told (t.children m).taken r := by
  have hreaped (m : Nat) (hm : m < s.forks) := h.reaped m hm (by rw [hchild]; exact nofun)
  have hsame (m : Nat) (hm : m < s.forks) := (hf.others m hm).gone (hreaped m hm).2.1
  refine ⟨fun m hm => ?_, fun m k r hdone => ?_⟩
  · rw [hsame m hm]
    exact hreaped m hm
  · rw [hsame m (h.known _ hdone)]
    exact h.told m k r hdone

theorem Books.start (h : Books s) (hchild : s.resolve.child = none) (hf : Forks s t)
    (hi : Intact t s.forks k) (hlog : t.log = .started s.forks k t.resolve.deadlineMs :: s.log) :
    Books t := by
  obtain ⟨hreaped, htold⟩ := hf.books h hchild
  refine ⟨?_, ?_, ?_, ?_, ?_, ?_, ?_⟩
  · rw [hlog]
    refine h.orderly.cons ⟨(h.idle hchild).1, fun e he hstage => ?_⟩
    have hnumber : e.number = s.forks := by cases e <;> simp_all [Event.stage, Event.number]
    exact absurd (h.known e he) (by omega)
  · rw [hlog]
    exact h.rightful.cons trivial
  · rw [hlog]
    exact ⟨k, hi⟩
  · intro m _ hne
    have hm' : m < s.forks := by
      have : m ≠ s.forks := fun he => hne (he ▸ hi.child)
      have := hf.forks
      omega
    exact hreaped m hm'
  · intro e he
    rw [hf.forks]
    rw [hlog] at he
    obtain rfl | he := mem_cons.mp he
    · exact Nat.lt_succ_self _
    · exact Nat.lt_succ_of_lt (h.known e he)
  · intro m k' r hdone
    rw [hlog] at hdone
    exact htold m k' r (mem_of_ne_of_mem (by nofun) hdone)
  · rw [hf.strays]
    exact h.strays

theorem Books.abort (h : Books s) (hchild : s.resolve.child = none) (hf : Forks s t)
    (hidle : Idle t.resolve) (hlog : t.log = s.log) (hreaped : (t.children s.forks).Reaped) :
    Books t := by
  obtain ⟨hold, htold⟩ := hf.books h hchild
  refine ⟨?_, ?_, ?_, ?_, ?_, ?_, ?_⟩
  · rw [hlog]
    exact h.orderly
  · rw [hlog]
    exact h.rightful
  · rw [hlog, (h.idle hchild).1]
    exact hidle
  · intro m hm _
    rw [hf.forks] at hm
    obtain rfl | hm := Nat.eq_or_lt_of_le (Nat.le_of_lt_succ hm)
    · exact hreaped
    · exact hold m hm
  · intro e he
    rw [hlog] at he
    rw [hf.forks]
    exact Nat.lt_succ_of_lt (h.known e he)
  · rw [hlog]
    exact htold
  · rw [hf.strays]
    exact h.strays

theorem Books.ticked (h : Books s) (hn : n < s.forks)
    (hpast : s.resolve.child = some n → nowMs < s.resolve.deadlineMs) :
    Books (s.note (.ticked nowMs n)) := by
  have hengaged : engaged Event.stage (s.note (.ticked nowMs n)).log = engaged Event.stage s.log :=
    rfl
  refine ⟨h.orderly.cons trivial, h.rightful.cons ?_, ?_, h.reaped, ?_, ?_, h.strays⟩
  · intro k _ hstarted hdeadline hopen
    have hcurrent := h.current
    rw [hopen] at hcurrent
    obtain ⟨_, hi⟩ := hcurrent
    cases h.orderly.opened_unique hstarted hi.deadline rfl rfl
    exact absurd (hpast hi.child) (UInt64.not_lt.mpr hdeadline)
  · rw [hengaged]
    have hcurrent := h.current
    split at hcurrent
    · exact hcurrent
    · obtain ⟨k, hi⟩ := hcurrent
      exact ⟨k, hi.logged (subset_cons_self _ _)⟩
  · intro e he
    obtain rfl | he := mem_cons.mp he
    · exact hn
    · exact h.known e he
  · intro m k r hdone
    exact h.told m k r (mem_of_ne_of_mem (by simp) hdone)

theorem Books.rescript (h : Books s) : Books { s with scripts } := by
  refine ⟨h.orderly, h.rightful, ?_, h.reaped, h.known, h.told, h.strays⟩
  have hcurrent := h.current
  simp only
  split at hcurrent
  · exact hcurrent
  · obtain ⟨k, hi⟩ := hcurrent
    exact ⟨k, hi.logged (Subset.refl _)⟩

theorem Step.books (hstep : Step s t) (h : Books s) : Books t := by
  cases hstep with
  | env he => exact h.env he
  | scripts => exact h.rescript
  | take hn hfd _ hroom => exact h.take hn hfd hroom
  | fail hn he => exact h.fail hn he
  | close hn hspent => exact h.close hn hspent
  | closes hi hc => exact h.closes hi hc
  | start hchild hforks hintact hlog => exact h.start hchild hforks hintact hlog
  | abort hchild hforks hidle hlog hreaped => exact h.abort hchild hforks hidle hlog hreaped
  | ticked hn hpast => exact h.ticked hn hpast

end Kept

abbrev Steps : Site κ → Site κ → Prop := Relation.ReflTransGen Step

theorem Steps.books (hsteps : Steps s t) (h : Books s) : Books t := by
  induction hsteps with
  | refl => exact h
  | tail _ hstep ih => exact hstep.books ih

structure Past (s t : Site κ) : Prop where
  forks : s.forks ≤ t.forks
  log : s.log <:+ t.log
  child : ∀ n < s.forks, s.resolve.child ≠ some n → t.resolve.child ≠ some n

theorem Step.past (hstep : Step s t) : Past s t := by
  cases hstep with
  | env he
  | fail _ he =>
    exact ⟨he.forks.ge, he.log ▸ suffix_rfl,
      fun _ _ => (congrArg Resolver.child he.resolve).trans_ne⟩
  | scripts | take => exact ⟨le_rfl, suffix_rfl, fun _ _ => id⟩
  | ticked => exact ⟨le_rfl, suffix_cons _ _, fun _ _ => id⟩
  | close =>
    unfold releaseFd
    split <;> exact ⟨le_rfl, suffix_rfl, fun _ _ => id⟩
  | closes _ hc =>
    exact ⟨hc.forks.ge, hc.log ▸ suffix_cons _ _, fun _ _ _ => hc.idle.child ▸ (by simp)⟩
  | start _ hforks hintact hlog =>
    refine ⟨hforks.forks.ge.trans' (Nat.le_succ _), hlog ▸ suffix_cons _ _, fun n hn _ heq => ?_⟩
    exact hn.ne' (Option.some.inj (hintact.child.symm.trans heq))
  | abort _ hforks hidle hlog =>
    exact ⟨hforks.forks.ge.trans' (Nat.le_succ _), hlog ▸ suffix_rfl,
      fun _ _ _ => hidle.child ▸ (by simp)⟩

theorem Steps.past (hsteps : Steps s t) : Past s t := by
  induction hsteps with
  | refl => exact ⟨le_rfl, suffix_rfl, fun _ _ => id⟩
  | tail _ hstep ih =>
    have hpast := hstep.past
    exact ⟨ih.forks.trans hpast.forks, ih.log.trans hpast.log,
      fun n hn h => hpast.child n (hn.trans_le ih.forks) (ih.child n hn h)⟩

def Obeys (app : Site κ → Site κ) : Prop := ∀ s, Books s → Steps s (app s)

end Inkwell.Resolve
