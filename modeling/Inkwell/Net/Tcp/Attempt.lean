import Inkwell.Library.Engagement
import Inkwell.Net.Tcp

namespace Inkwell.Tcp
open Library Net List

def Event.stage : Event κ → Stage Nat
  | .began n .. => .opens n
  | .refused n _ => .closes n
  | .done n .. => .closes n
  | .cancelled n _ => .closes n
  | _ => .neutral

/-- The connector has a socket from when it is opened until it is closed or given away. -/
def Event.custody : Event κ → Stage Nat
  | .opened _ i => .opens i
  | .closed i => .closes i
  | .done _ _ r =>
    match r.socket with
    | some i => .closes i
    | none => .neutral
  | _ => .neutral

def Event.attempt : Event κ → Option Nat
  | .began n .. => some n
  | .looking n => some n
  | .opened n _ => some n
  | .closed _ => none
  | .accepted n => some n
  | .refused n _ => some n
  | .done n .. => some n
  | .cancelled n _ => some n
  | .spared _ n => some n

/-- The first tick that found the attempt after its socket was opened. -/
def firstSpared (n : Nat) : List (Event κ) → Option UInt64
  | [] => none
  | .opened m _ :: t => if m = n then none else firstSpared n t
  | .spared nowMs m :: t => if m = n then (firstSpared n t).or (some nowMs) else firstSpared n t
  | _ :: t => firstSpared n t

/-- Neither the lookup nor the connect has had its time, the latter from the start or from the
first tick after the lookup. -/
structure InTime (nowMs : UInt64) (n : Nat) (startMs timeoutMs : UInt64) (before : List (Event κ)) :
    Prop where
  lookup : (∀ i, .opened n i ∉ before) → nowMs.toNat < startMs.toNat + Resolve.timeoutMs.toNat
  named : ∀ i, .opened n i ∈ before → .looking n ∈ before → ∀ firstMs,
    firstSpared n before = some firstMs → nowMs.toNat < firstMs.toNat + timeoutMs.toNat
  literal : ∀ i, .opened n i ∈ before → .looking n ∉ before →
    nowMs.toNat < startMs.toNat + timeoutMs.toNat

/-- An attempt is not both accepted and refused, the callback is the one given, and a tick only
spares an attempt with time left. -/
def Rightful (e : Event κ) (before : List (Event κ)) : Prop :=
  match e with
  | .accepted n => (∃ k startMs timeoutMs, .began n k startMs timeoutMs ∈ before) ∧
      ∀ e, .refused n e ∉ before
  | .refused n _ => .accepted n ∉ before
  | .done n k _ => ∃ startMs timeoutMs, .began n k startMs timeoutMs ∈ before
  | .cancelled n k => ∃ startMs timeoutMs, .began n k startMs timeoutMs ∈ before
  | .spared nowMs n => ∀ k startMs timeoutMs, .began n k startMs timeoutMs ∈ before →
      InTime nowMs n startMs timeoutMs before
  | _ => True

/-- What the log, the counters, the socket at hand and the loop's registrations have to agree on. -/
structure Kept (log : List (Event κ)) (tries fds : Nat) (owned registration : Option Nat)
    (loop : Bool) (watched : List Nat) : Prop where
  attempts : Always (Orderly Event.stage) log
  custody : Always (Orderly Event.custody) log
  rightful : Always Rightful log
  socket : owned = engaged Event.custody log
  registered : ∀ i, registration = some i → owned = some i ∧ loop
  watching : watched = registration.toList
  known : ∀ e ∈ log, ∀ n, e.attempt = some n → n < tries
  opened : ∀ n i, .opened n i ∈ log → i < fds

abbrev Books (s : Site κ) : Prop :=
  Kept s.log s.attempts s.sockets s.connector.socket s.connector.registration s.connector.loop
    s.watching

structure Held (s : Site κ) (n : Nat) (k : κ) (startMs timeoutMs : UInt64) : Prop where
  engaged : engaged Event.stage s.log = some n
  attempt : s.connector.attempt = n
  onDone : s.connector.onDone = some k
  timeout : s.connector.options.timeoutMs = timeoutMs
  began : .began n k startMs timeoutMs ∈ s.log
  pos : 0 < timeoutMs.toNat

/-- A deadline is so much after a time, if there is such a time. -/
def Reaches (fromMs spanMs deadlineMs : UInt64) : Prop :=
  fromMs.toNat + spanMs.toNat < 2 ^ 64 → deadlineMs.toNat = fromMs.toNat + spanMs.toNat

structure Due (n : Nat) (startMs timeoutMs : UInt64) (log : List (Event κ)) (deadlineMs : UInt64) :
    Prop where
  unset : .looking n ∈ log → firstSpared n log = none → deadlineMs = 0
  named : .looking n ∈ log → ∀ firstMs, firstSpared n log = some firstMs →
    Reaches firstMs timeoutMs deadlineMs
  literal : .looking n ∉ log → Reaches startMs timeoutMs deadlineMs

inductive Working (s : Site κ) (n : Nat) (startMs timeoutMs : UInt64) : Prop
  | resolving (hstate : s.connector.state = .resolving) (hsocket : s.connector.socket = none)
      (hlookup : s.lookup = some deadlineMs)
      (hreaches : Reaches startMs Resolve.timeoutMs deadlineMs)
      (hlooking : .looking n ∈ s.log) (hopened : ∀ i, .opened n i ∉ s.log)
  | connecting (hstate : s.connector.state = .connecting) (hlookup : s.lookup = none)
      (hsocket : s.connector.socket = some i) (hopened : .opened n i ∈ s.log)
      (hdue : Due n startMs timeoutMs s.log s.connector.deadlineMs)

structure Idle (s : Site κ) : Prop where
  state : s.connector.state = .idle
  socket : s.connector.socket = none
  onDone : s.connector.onDone = none
  lookup : s.lookup = none

def Quiet (s : Site κ) : Prop :=
  match engaged Event.stage s.log with
  | none => Idle s
  | some n => ∃ k startMs timeoutMs, Held s n k startMs timeoutMs ∧ Working s n startMs timeoutMs

structure Inv (s : Site κ) : Prop where
  books : Books s
  quiet : Quiet s

/-- What a call comes to: the books are kept, and nothing that was told is taken back. -/
structure Runs (t : Site κ) (log : List (Event κ)) : Prop where
  inv : Inv t
  log : log <:+ t.log

def Obeys (app : Site κ → Site κ) : Prop := ∀ s, Inv s → Runs (app s) s.log

section Cases
variable {s t : Site κ} {log : List (Event κ)}

theorem Runs.trans (h : Runs t log) (h' : Runs u t.log) : Runs u log := ⟨h'.inv, h.log.trans h'.log⟩

theorem Inv.idle (h : Inv s) (hstate : s.connector.state = .idle) :
    engaged Event.stage s.log = none ∧ Idle s := by
  have hquiet := h.quiet
  unfold Quiet at hquiet
  split at hquiet
  · rename_i hnone
    exact ⟨hnone, hquiet⟩
  · obtain ⟨_, _, _, -, hworking⟩ := hquiet
    cases hworking with
    | resolving hstate'
    | connecting hstate' => cases hstate.symm.trans hstate'

theorem Inv.held (h : Inv s) (hstate : s.connector.state ≠ .idle) :
    ∃ n k startMs timeoutMs, Held s n k startMs timeoutMs ∧ Working s n startMs timeoutMs := by
  have hquiet := h.quiet
  unfold Quiet at hquiet
  split at hquiet
  · exact absurd hquiet.state hstate
  · rename_i n _
    exact ⟨n, hquiet⟩

theorem Inv.ended (hb : Books s) (hengaged : engaged Event.stage s.log = none) (hidle : Idle s) :
    Inv s := by
  refine ⟨hb, ?_⟩
  unfold Quiet
  rw [hengaged]
  exact hidle

theorem Inv.of_held (hb : Books s) (h : Held s n k startMs timeoutMs)
    (hw : Working s n startMs timeoutMs) : Inv s := by
  refine ⟨hb, ?_⟩
  unfold Quiet
  rw [h.engaged]
  exact ⟨k, startMs, timeoutMs, h, hw⟩

theorem Inv.current (h : Inv s) : s.current = engaged Event.stage s.log := by
  unfold Site.current
  cases hstate : s.connector.state with
  | idle =>
    rw [(h.idle hstate).1]
    simp [busy, hstate]
  | _ =>
    obtain ⟨_, _, _, _, hheld, -⟩ := h.held (by rw [hstate]; exact nofun)
    rw [hheld.engaged]
    simp [busy, hstate, hheld.attempt]

theorem Held.keep (h : Held s n k startMs timeoutMs) :
    Held ⟨{ s.connector with loop, state, socket, registration, deadlineMs, nowMs }, due, attempts,
      sockets, sets, watching, opens, pendings, lookups, answers, scripts, s.log⟩ n k startMs
      timeoutMs :=
  ⟨h.engaged, h.attempt, h.onDone, h.timeout, h.began, h.pos⟩

theorem Working.keep (h : Working s n startMs timeoutMs) :
    Working ⟨{ s.connector with loop, registration, nowMs, options, onDone, attempt }, s.lookup,
      attempts, sockets, sets, watching, opens, pendings, lookups, answers, scripts, s.log⟩ n
      startMs timeoutMs := by
  cases h with
  | resolving hstate hsocket hlookup hreaches hlooking hopened =>
    exact .resolving hstate hsocket hlookup hreaches hlooking hopened
  | connecting hstate hlookup hsocket hopened hdue =>
    exact .connecting hstate hlookup hsocket hopened hdue

theorem Inv.keep (h : Inv s) :
    Inv ⟨{ s.connector with nowMs }, s.lookup, s.attempts, s.sockets, sets, s.watching, opens,
      pendings, lookups, answers, scripts, s.log⟩ := by
  cases hstate : s.connector.state with
  | idle =>
    obtain ⟨hnone, hidle⟩ := h.idle hstate
    exact .ended h.books hnone ⟨hidle.state, hidle.socket, hidle.onDone, hidle.lookup⟩
  | _ =>
    obtain ⟨_, _, _, _, hheld, hworking⟩ := h.held (by rw [hstate]; exact nofun)
    exact .of_held h.books hheld.keep hworking.keep

structure Fits (log : List (Event κ)) (e : Event κ) : Prop where
  stage : Orderly Event.stage e log
  custody : Orderly Event.custody e log
  rightful : Rightful e log

theorem Kept.cons (h : Kept log tries fds owned registration loop watched) (he : Fits log e)
    (hsocket : owned' = engaged Event.custody (e :: log))
    (hregistered : ∀ i, registration' = some i → owned' = some i ∧ loop' = true)
    (hwatching : watched' = registration'.toList) (htries : tries ≤ tries') (hfds : fds ≤ fds')
    (hknown : ∀ n, e.attempt = some n → n < tries') (hopened : ∀ n i, e = .opened n i → i < fds') :
    Kept (e :: log) tries' fds' owned' registration' loop' watched' where
  attempts := h.attempts.cons he.stage
  custody := h.custody.cons he.custody
  rightful := h.rightful.cons he.rightful
  socket := hsocket
  registered := hregistered
  watching := hwatching
  known e' he' n hn := by
    obtain rfl | he' := mem_cons.mp he'
    · exact hknown n hn
    · exact (h.known e' he' n hn).trans_le htries
  opened n i hmem := by
    obtain heq | hmem := mem_cons.mp hmem
    · exact hopened n i heq.symm
    · exact (h.opened n i hmem).trans_le hfds

theorem Kept.told (h : Kept log tries fds owned registration loop watched)
    (hbegan : .began n k startMs timeoutMs ∈ log) (he : Fits log e)
    (hcustody : e.custody = .neutral) (hattempt : e.attempt = some n) :
    Kept (e :: log) tries fds owned registration loop watched := by
  refine h.cons he ?_ h.registered h.watching le_rfl le_rfl (fun m hm => ?_) fun m i heq => ?_
  · rw [engaged, hcustody]
    exact h.socket
  · cases hattempt.symm.trans hm
    exact h.known _ hbegan _ rfl
  · rw [heq] at hcustody
    cases hcustody

theorem Held.told (h : Held s n k startMs timeoutMs) (hstage : e.stage = .neutral) :
    Held (s.note e) n k startMs timeoutMs := by
  refine ⟨?_, h.attempt, h.onDone, h.timeout, .tail _ h.began, h.pos⟩
  rw [Site.note, Library.engaged, hstage]
  exact h.engaged

theorem Books.unregistered (h : Books s) (hsocket : s.connector.socket = none) :
    s.connector.registration = none ∧ s.watching = [] := by
  have hreg : s.connector.registration = none := by
    cases hreg : s.connector.registration with
    | none => rfl
    | some i => cases hsocket.symm.trans (h.registered i hreg).1
  refine ⟨hreg, ?_⟩
  rw [h.watching, hreg]
  rfl

theorem Books.release (h : Books s) : s.release =
    { s with
      watching := []
      connector := { s.connector with socket := none, registration := none } } := by
  have hwatching := h.watching
  unfold Site.release Site.unwatch
  cases hreg : s.connector.registration with
  | none =>
    rw [hreg] at hwatching
    simp [hwatching]
  | some i =>
    rw [hreg] at hwatching
    simp [(h.registered i hreg).2, hwatching]

theorem Connector.without_socket {c : Connector κ} (hsocket : c.socket = none)
    (hreg : c.registration = none) : { c with socket := none, registration := none } = c := by
  cases c
  cases hsocket
  cases hreg
  rfl

structure Drops (s t : Site κ) : Prop where
  books : Books t
  connector : t.connector = { s.connector with socket := none, registration := none }
  lookup : t.lookup = s.lookup
  engaged : engaged Event.stage t.log = engaged Event.stage s.log
  log : s.log <:+ t.log
  only : ∀ e ∈ t.log, e ∈ s.log ∨ ∃ i, e = .closed i

theorem dropSocket_drops (h : Books s) : Drops s (dropSocket s) := by
  unfold dropSocket
  cases hsocket : s.connector.socket with
  | none =>
    exact ⟨h, (Connector.without_socket hsocket (h.unregistered hsocket).1).symm, rfl, rfl,
      suffix_rfl, fun e he => .inl he⟩
  | some i =>
    have hfits : Fits s.log (.closed i) := ⟨trivial, h.socket.symm.trans hsocket, trivial⟩
    rw [h.release]
    refine ⟨h.cons hfits rfl nofun rfl le_rfl le_rfl nofun nofun, rfl, rfl, rfl, suffix_cons _ _,
      fun e he => ?_⟩
    exact (mem_cons.mp he).symm.imp_right fun heq => ⟨i, heq⟩

end Cases

section Ending
variable {s t : Site κ} {app : Site κ → Site κ} {log : List (Event κ)}

structure Ends (t : Site κ) (log : List (Event κ)) (n : Nat) (k : κ) : Prop where
  runs : Runs t log
  done : ∃ r, .done n k r ∈ t.log

theorem Ends.since (h : Ends t log' n k) (hlog : log <:+ log') : Ends t log n k :=
  ⟨⟨h.runs.inv, hlog.trans h.runs.log⟩, h.done⟩

theorem ends_of_done (happ : Obeys app) (hb : Books t) (hlog : log <:+ t.log)
    (hdone : .done n k r ∈ t.log) (hengaged : engaged Event.stage t.log = none) (hidle : Idle t) :
    Ends (app t) log n k := by
  have hrun := happ t (.ended hb hengaged hidle)
  exact ⟨⟨hrun.inv, hlog.trans hrun.log⟩, r, hrun.log.subset hdone⟩

theorem completeFailure_ends {failure : NetFailure} (happ : Obeys app) (h : Books s)
    (hh : Held s n k startMs timeoutMs) (hlookup : s.lookup = none) :
    Ends (completeFailure app failure s) s.log n k := by
  have hd := dropSocket_drops h
  have hbegan := hd.log.subset hh.began
  have hfits : Fits (dropSocket s).log (.done n k { socket := none, failure }) :=
    ⟨hd.engaged.trans hh.engaged, trivial, startMs, timeoutMs, hbegan⟩
  unfold completeFailure
  simp only [hh.onDone, hh.attempt]
  refine ends_of_done happ (hd.books.told hbegan hfits rfl rfl) (hd.log.trans (suffix_cons _ _))
    mem_cons_self rfl ⟨rfl, ?_, rfl, hd.lookup.trans hlookup⟩
  exact congrArg Connector.socket hd.connector

theorem completeSuccess_ends (happ : Obeys app) (h : Books s) (hh : Held s n k startMs timeoutMs)
    (hlookup : s.lookup = none) (hsocket : s.connector.socket = some i) :
    Ends (completeSuccess app s) s.log n k := by
  have hfits : Fits s.log (.done n k { socket := some i, failure := {} }) :=
    ⟨hh.engaged, h.socket.symm.trans hsocket, startMs, timeoutMs, hh.began⟩
  unfold completeSuccess
  simp only [hh.onDone, hh.attempt, hsocket, h.release]
  refine ends_of_done happ (h.cons hfits rfl nofun rfl le_rfl le_rfl ?_ nofun) (suffix_cons _ _)
    mem_cons_self rfl ⟨rfl, rfl, rfl, hlookup⟩
  rintro m ⟨⟩
  exact h.known _ hh.began _ rfl

theorem finishConnect_ends (happ : Obeys app) (h : Books s) (hh : Held s n k startMs timeoutMs)
    (hlookup : s.lookup = none) (hsocket : s.connector.socket = some i) :
    Ends (finishConnect app s) s.log n k := by
  unfold finishConnect
  split
  · exact completeFailure_ends happ h hh.keep hlookup
  · exact completeSuccess_ends happ h hh.keep hlookup hsocket
  · exact completeSuccess_ends happ h hh hlookup hsocket

/-- An attempt that has neither a lookup nor a socket, and has had no socket yet. -/
structure Poised (s : Site κ) (n : Nat) (k : κ) (startMs timeoutMs : UInt64) : Prop where
  books : Books s
  held : Held s n k startMs timeoutMs
  socket : s.connector.socket = none
  lookup : s.lookup = none
  opened : ∀ i, .opened n i ∉ s.log

theorem Poised.keep (h : Poised s n k startMs timeoutMs) :
    Poised ⟨{ s.connector with state }, s.lookup, s.attempts, s.sockets, sets, s.watching, opens,
      pendings, lookups, answers, scripts, s.log⟩ n k startMs timeoutMs :=
  ⟨h.books, h.held.keep, h.socket, h.lookup, h.opened⟩

/-- The deadline is set now for an attempt that began now, and later for one that had a lookup. -/
def Timed (s : Site κ) (n : Nat) (startMs : UInt64) (startDeadline : Bool) : Prop :=
  if startDeadline then s.connector.nowMs = startMs ∧ .looking n ∉ s.log else .looking n ∈ s.log

inductive Opens (log : List (Event κ)) (n : Nat) (k : κ) (startMs timeoutMs : UInt64) :
    Option (Errno × NetFailure) × Site κ → Prop
  | failed {failure : NetFailure} (hbooks : Books u) (hheld : Held u n k startMs timeoutMs)
      (hsocket : u.connector.socket = none) (hlookup : u.lookup = none) (hlog : log <:+ u.log)
      (hnew : ∀ e ∈ u.log, e ∈ log ∨ ∃ i, e = .opened n i ∨ e = .closed i) :
      Opens log n k startMs timeoutMs (some (e, failure), u)
  | pending (hinv : Inv u) (hengaged : engaged Event.stage u.log = some n)
      (hlookup : u.lookup = none)
      (hlog : log <:+ u.log) : Opens log n k startMs timeoutMs (none, u)
  | finished (hends : Ends u log n k) : Opens log n k startMs timeoutMs (none, u)

structure Adopts (t : Site κ) (n : Nat) (k : κ) (startMs timeoutMs : UInt64) (i : Nat)
    (log : List (Event κ)) : Prop where
  books : Books t
  held : Held t n k startMs timeoutMs
  working : Working t n startMs timeoutMs
  log : t.log = .opened n i :: log
  socket : t.connector.socket = some i
  lookup : t.lookup = none

theorem reaches_add : Reaches fromMs spanMs (fromMs + spanMs) := by
  intro hfits
  rw [UInt64.toNat_add, Nat.mod_eq_of_lt hfits]

theorem Poised.due (h : Poised s n k startMs timeoutMs) (ht : Timed s n startMs startDeadline) :
    Due n startMs timeoutMs (.opened n i :: s.log)
      (if startDeadline then s.connector.nowMs + s.connector.options.timeoutMs else 0) := by
  have hfirst : firstSpared n (.opened n i :: s.log) = none := if_pos rfl
  cases startDeadline with
  | true =>
    obtain ⟨hnow, hlooking⟩ := ht
    have hnamed : .looking n ∉ Event.opened n i :: s.log := by simpa using hlooking
    refine ⟨fun hmem => absurd hmem hnamed, fun hmem => absurd hmem hnamed, fun _ => ?_⟩
    rw [if_pos rfl, hnow, h.held.timeout]
    exact reaches_add
  | false =>
    refine ⟨fun _ _ => rfl, fun _ firstMs hsome => ?_, fun hmem => ?_⟩
    · cases hfirst.symm.trans hsome
    · exact absurd (mem_cons_of_mem _ ht) hmem

theorem Poised.fits (h : Poised s n k startMs timeoutMs) : Fits s.log (.opened n s.sockets) := by
  refine ⟨trivial, ⟨h.books.socket.symm.trans h.socket, fun e he hopens => ?_⟩, trivial⟩
  have hlt : s.sockets < s.sockets := by
    cases e <;> simp only [Event.custody] at hopens
    case opened m i =>
      cases hopens
      exact h.books.opened m _ he
    case done m k r => split at hopens <;> cases hopens
    all_goals cases hopens
  exact lt_irrefl _ hlt

theorem adopt_adopts (h : Poised s n k startMs timeoutMs) (ht : Timed s n startMs startDeadline) :
    Adopts (s.adopt startDeadline) n k startMs timeoutMs s.sockets s.log := by
  have hreg := (h.books.unregistered h.socket).1
  obtain rfl := h.held.attempt
  refine ⟨h.books.cons h.fits rfl (fun i hi => ?_) h.books.watching le_rfl (Nat.le_succ _) ?_ ?_,
    (h.held.told rfl).keep, .connecting rfl h.lookup rfl mem_cons_self
    (h.due ht), rfl, rfl, h.lookup⟩
  · cases hreg.symm.trans hi
  · rintro m ⟨⟩
    exact h.books.known _ h.held.began _ rfl
  · rintro m i ⟨⟩
    exact Nat.lt_succ_self _

theorem Adopts.watch (h : Adopts t n k startMs timeoutMs i log) (hloop : t.connector.loop)
    (hwatching : t.watching = []) : Adopts (t.watch i) n k startMs timeoutMs i log := by
  obtain ⟨hb, hh, hw, hlog, hsocket, hlookup⟩ := h
  refine ⟨{ hb with registered := ?_, watching := congrArg _ hwatching }, hh.keep, hw.keep, hlog,
    hsocket, hlookup⟩
  rintro j ⟨⟩
  exact ⟨hsocket, hloop⟩

theorem Adopts.dropped (h : Adopts t n k startMs timeoutMs i log) (failure : NetFailure) :
    Opens log n k startMs timeoutMs (some (e, failure), dropSocket t) := by
  have hd := dropSocket_drops h.books
  have hsuffix : log <:+ t.log := h.log ▸ suffix_cons _ _
  refine .failed hd.books ?_ (congrArg Connector.socket hd.connector) (hd.lookup.trans h.lookup)
    (hsuffix.trans hd.log) fun e he => ?_
  · refine ⟨hd.engaged.trans h.held.engaged, ?_, ?_, ?_, hd.log.subset h.held.began, h.held.pos⟩
    · rw [hd.connector]
      exact h.held.attempt
    · rw [hd.connector]
      exact h.held.onDone
    · rw [hd.connector]
      exact h.held.timeout
  · obtain he | ⟨i, rfl⟩ := hd.only e he
    · rw [h.log] at he
      obtain rfl | he := mem_cons.mp he
      · exact .inr ⟨_, .inl rfl⟩
      · exact .inl he
    · exact .inr ⟨i, .inr rfl⟩

theorem tcpConnect_opens (happ : Obeys app) (h : Adopts t n k startMs timeoutMs i log) :
    Opens log n k startMs timeoutMs (tcpConnect app connected t) := by
  have hsuffix : log <:+ t.log := h.log ▸ suffix_cons _ _
  cases connected with
  | failed => exact h.dropped _
  | done =>
    exact .finished ((finishConnect_ends happ h.books h.held h.lookup h.socket).since hsuffix)
  | inProgress =>
    simp only [tcpConnect]
    split
    · exact .pending (.of_held h.books h.held h.working) h.held.engaged h.lookup hsuffix
    · exact h.dropped _

theorem tcpOpen_opens (happ : Obeys app) (h : Poised s n k startMs timeoutMs)
    (ht : Timed s n startMs startDeadline) :
    Opens s.log n k startMs timeoutMs (tcpOpen app startDeadline s) := by
  have hadopts : Adopts ({ s with openings := s.openings.tail }.adopt startDeadline) n k startMs
      timeoutMs s.sockets s.log := adopt_adopts h.keep ht
  have hwatching := (h.books.unregistered h.socket).2
  unfold tcpOpen
  simp only
  split
  · exact .failed h.books h.held.keep h.socket h.lookup suffix_rfl fun e he => .inl he
  · split
    · rename_i hloop
      split
      · exact hadopts.dropped _
      · exact tcpConnect_opens happ (hadopts.watch hloop hwatching)
    · exact tcpConnect_opens happ hadopts

end Ending

end Inkwell.Tcp
