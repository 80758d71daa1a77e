import Inkwell.Library.Bytes
import Inkwell.Net.Reason
import Inkwell.Runtime.Loop

namespace Inkwell.Resolve
open Inkwell.Runtime

def timeoutMs : UInt64 := 5000
abbrev addressesMax : Nat := 4

abbrev Outcome := Net.ResolveOutcome

/-- `struct sockaddr_storage`, its bytes taken as they come. -/
structure SockAddr where
  bytes : Bytes
  size : bytes.length = 128
  deriving DecidableEq

structure Address where
  len : UInt32
  address : SockAddr
  deriving DecidableEq

/-- `struct resolve_record`. -/
structure Record where
  error : Int32
  count : UInt32
  addresses : Fin addressesMax → Address

def wordBytes (w : UInt32) : Bytes :=
  [w.toNat, w.toNat / 2 ^ 8, w.toNat / 2 ^ 16, w.toNat / 2 ^ 24].map UInt8.ofNat

def wordOf (bytes : Bytes) : UInt32 :=
  match bytes with
  | b₀ :: b₁ :: b₂ :: b₃ :: _ =>
    UInt32.ofNat (b₀.toNat + b₁.toNat * 2 ^ 8 + b₂.toNat * 2 ^ 16 + b₃.toNat * 2 ^ 24)
  | _ => 0

def addressBytes (a : Address) : Bytes :=
  -- the address is aligned to eight bytes
  wordBytes a.len ++ [0, 0, 0, 0] ++ a.address.bytes

/-- The record as it lies in memory; both ends of the pipe are the same program. -/
def Record.bytes (r : Record) : Bytes :=
  wordBytes r.error.toUInt32 ++ wordBytes r.count ++
    (List.finRange addressesMax).flatMap fun i => addressBytes (r.addresses i)

def addressSize : Nat := 136
def recordSize : Nat := 552
def bufferSize : Nat := (128 + 8) * addressesMax + 8

def addressOf (bytes : Bytes) : Address :=
  ⟨wordOf bytes, (bytes.drop 8 ++ List.replicate 128 0).take 128, by simp⟩

def recordOf (bytes : Bytes) : Record where
  error := ⟨wordOf bytes⟩
  count := wordOf (bytes.drop 4)
  addresses i := addressOf (bytes.drop (8 + addressSize * i))

def eaiNoname : Int32 := -2
def eaiNodata : Int32 := -5

def outcomeOf (record : Record) : Outcome :=
  if record.error = 0 then if 0 < record.count then .ok else .notFound
  else if record.error = eaiNoname then .notFound
  else if record.error = eaiNodata then .notFound
  else .failed

structure Result where
  outcome : Outcome
  error : Int32 := 0
  address : Option Address := none
  addresses : List Address := []
  deriving DecidableEq

/-- What the callback is told: the outcome, and what the record holds if there is a whole one. -/
def resultOf (outcome : Outcome) (bytes : Bytes) : Result :=
  if recordSize ≤ bytes.length then
    let record := recordOf bytes
    let addresses :=
      if outcome = .ok then
        ((List.finRange addressesMax).take record.count.toNat).map record.addresses
      else []
    { outcome, error := record.error, address := addresses.head?, addresses }
  else { outcome }

/-- A child with a record to write; `taken` is what the parent has read and `killed` whether it
sent a signal. -/
structure Child where
  record : Record
  left : Bytes
  buffered : Bytes := []
  taken : Bytes := []
  reader : Bool := true
  exited : Option Bool := none
  killed : Bool := false
  reaps : Nat := 0

inductive ChildAct
  | write (n : Nat)
  | exit (normal : Bool)
  deriving DecidableEq

/-- Nothing goes into a pipe that nobody can read, and a child that is gone does nothing. -/
def Child.act (c : Child) : ChildAct → Child
  | .write n =>
    if c.exited.isNone && c.reader then
      { c with left := c.left.drop n, buffered := c.buffered ++ c.left.take n }
    else c
  | .exit normal => if c.exited.isNone then { c with exited := some normal } else c

abbrev Acts := List (Nat × ChildAct)

inductive ReadAnswer
  | upTo (n : Nat)
  | eintr
  | error
  deriving DecidableEq

inductive Got
  | data (bytes : Bytes)
  | eof | eagain | eintr | error

inductive Waited
  | running | reaped | noChild
  deriving DecidableEq

/-- `child` is the number of the child for its pid and `childFd` that for its pipe. `lookup` keeps
it until the callback was called; the code has no such field and only the log reads it. -/
structure Resolver (κ : Type) where
  loop : Bool
  child : Option Nat := none
  childFd : Option Nat := none
  deadlineMs : UInt64 := 0
  record : Bytes := []
  failure : Outcome := .ok
  onDone : Option κ := none
  lookup : Nat := 0

structure Launch where
  pipe : Option Errno := none
  fork : Option Errno := none
  fcntl : Option Errno := none
  added : Option Errno := none
  record : Record

inductive Call (κ : Type)
  | start (host : Option Bytes) (onDone : Option κ) (nowMs : UInt64) (launch : Launch)
  | output (events : Mask)
  | tick (nowMs : UInt64)
  | cancel
  | shutdown

/-- A lookup is named by its child's number; `ticked` ends a tick that found it running. -/
inductive Event (κ : Type)
  | started (n : Nat) (onDone : κ) (deadlineMs : UInt64)
  | done (n : Nat) (onDone : κ) (result : Result)
  | cancelled (n : Nat) (onDone : κ)
  | ticked (nowMs : UInt64) (n : Nat)
  deriving DecidableEq

/-- The resolver and its children. The lists say what is going to happen before each read, poll
and other call on a child, and what the callbacks call; `strays` counts calls on children that are
not there. -/
structure Site (κ : Type) where
  resolve : Resolver κ
  children : Nat → Child
  forks : Nat := 0
  reads : List (Acts × ReadAnswer) := []
  polls : List Acts := []
  others : List Acts := []
  scripts : List (List (Call κ)) := []
  log : List (Event κ) := []
  strays : Nat := 0

namespace Site
variable (s : Site κ)

def setChild (n : Nat) (c : Child) : Site κ := { s with children := Function.update s.children n c }

def act (a : Nat × ChildAct) : Site κ :=
  if a.1 < s.forks then s.setChild a.1 ((s.children a.1).act a.2) else s

def happen (acts : Acts) : Site κ := acts.foldl act s

def atRead : Site κ :=
  { s.happen (s.reads.head?.map Prod.fst |>.getD []) with reads := s.reads.tail }
def atPoll : Site κ := { s.happen (s.polls.head?.getD []) with polls := s.polls.tail }
def atOther : Site κ := { s.happen (s.others.head?.getD []) with others := s.others.tail }

def note (e : Event κ) : Site κ := { s with log := e :: s.log }

def read (fd room : Nat) : Got × Site κ :=
  let answer := (s.reads.head?.map Prod.snd).getD (.upTo room)
  let s := s.atRead
  match answer with
  | .eintr => (.eintr, s)
  | .error => (.error, s)
  | .upTo n =>
    let c := s.children fd
    if c.buffered.isEmpty then (if c.exited.isSome then .eof else .eagain, s)
    else
      let k := min (max n 1) room
      (.data (c.buffered.take k), s.setChild fd
        { c with buffered := c.buffered.drop k, taken := c.taken ++ c.buffered.take k })

def waitpid (n : Nat) : Waited × Site κ :=
  let c := s.children n
  if c.reaps = 0 then
    if c.exited.isSome then (.reaped, s.setChild n { c with reaps := 1 }) else (.running, s)
  else (.noChild, { s with strays := s.strays + 1 })

def kill (n : Nat) : Site κ :=
  let c := s.children n
  if c.reaps = 0 then s.setChild n { c with exited := some (c.exited.getD false), killed := true }
  else { s with strays := s.strays + 1 }

def waitExit (n : Nat) : Site κ :=
  let c := s.children n
  if c.reaps = 0 then s.setChild n { c with exited := some (c.exited.getD true), reaps := 1 }
  else { s with strays := s.strays + 1 }

def killAndReap (n : Nat) : Site κ := (s.atOther.kill n).waitExit n

def dropChild : Site κ := { s with resolve := { s.resolve with child := none } }

end Site

def releaseFd (s : Site κ) : Site κ :=
  match s.resolve.childFd with
  | none => s
  | some fd =>
    { s.setChild fd { s.children fd with reader := false } with
      resolve := { s.resolve with childFd := none } }

def Site.clear (s : Site κ) : Site κ :=
  { s with
    resolve := { s.resolve with child := none, record := [], onDone := none, failure := .ok } }

def discardChild (s : Site κ) : Site κ :=
  match s.resolve.child with
  | none => s
  | some n =>
    match s.atOther.waitpid n with
    | (.running, s) => s.killAndReap n
    | (_, s) => s

def discard (s : Site κ) : Site κ := (discardChild (releaseFd s)).clear

def settle (s : Site κ) : Site κ := (releaseFd s).clear

section
variable (app : Site κ → Site κ)

def complete (outcome : Outcome) (s : Site κ) : Site κ :=
  let result := resultOf outcome s.resolve.record
  match s.resolve.onDone with
  | none => settle s
  | some onDone => app ((settle s).note (.done s.resolve.lookup onDone result))

/-- Whether there may be more to come. -/
def drainLoop (fd : Nat) : (fuel : Nat) → Site κ → Bool × Site κ
  | 0, s => (true, s)
  | fuel + 1, s =>
    if bufferSize ≤ s.resolve.record.length then (false, s)
    else
      match s.read fd (bufferSize - s.resolve.record.length) with
      | (.data bytes, s) =>
        drainLoop fd fuel
          { s with resolve := { s.resolve with record := s.resolve.record ++ bytes } }
      | (.eof, s) => (false, s)
      | (.eintr, s) => drainLoop fd fuel s
      | (.eagain, s) => (true, s)
      | (.error, s) => (false, { s with resolve := { s.resolve with failure := .failed } })

def drain (s : Site κ) : Bool × Site κ :=
  match s.resolve.childFd with
  | none => (false, s)
  | some fd => drainLoop fd (s.reads.length + (bufferSize - s.resolve.record.length) + 1) s

/-- The second half of `resolve_try_finish`: the poll for the child's exit and what follows. -/
def finish (n : Nat) (s : Site κ) : Site κ :=
  match s.atPoll.waitpid n with
  | (.reaped, s) =>
    let s := s.dropChild
    if s.resolve.failure ≠ .ok then complete app s.resolve.failure s
    else if s.resolve.record.length < recordSize then complete app .failed s
    else complete app (outcomeOf (recordOf s.resolve.record)) s
  | (_, s) =>
    if s.resolve.failure ≠ .ok then
      let why := s.resolve.failure
      complete app why (s.killAndReap n).dropChild
    else s

def tryFinish (s : Site κ) : Site κ :=
  match s.resolve.child with
  | none => s
  | some n =>
    let (more, s) := drain s
    finish app n (if more then s else releaseFd s)

def onChildOutput (events : Mask) (s : Site κ) : Site κ :=
  let (more, s) := drain s
  if more && events &&& (HUP ||| ERR) == 0 then s else tryFinish app s

def forked (s : Site κ) (record : Record) : Site κ :=
  { s.setChild s.forks { record, left := record.bytes } with forks := s.forks + 1 }

def engage (s : Site κ) (onDone : κ) (nowMs : UInt64) (record : Record) : Site κ :=
  { forked s record with resolve := { s.resolve with
      child := some s.forks, childFd := some s.forks, record := [], failure := .ok,
      deadlineMs := nowMs + timeoutMs, onDone := some onDone, lookup := s.forks } }

def unfork (s : Site κ) (n : Nat) : Site κ :=
  (s.setChild n { s.children n with reader := false }).killAndReap n

def start (s : Site κ) (host : Option Bytes) (onDone : Option κ) (nowMs : UInt64)
    (launch : Launch) : Option Errno × Site κ :=
  match onDone with
  | none => (some .einval, s)
  | some onDone =>
    if host.getD [] = [] then (some .einval, s)
    else if !s.resolve.loop then (some .enotsup, s)
    else if s.resolve.child.isSome then (some .ebusy, s)
    else
      let s := discard s
      match launch.pipe, launch.fork, launch.fcntl, launch.added with
      | some e, _, _, _ => (some e, s)
      | none, some e, _, _ => (some e, s)
      | none, none, some e, _ => (some e, unfork (forked s launch.record) s.forks)
      | none, none, none, some e => (some e, discard (engage s onDone nowMs launch.record))
      | none, none, none, none =>
        (none, (engage s onDone nowMs launch.record).note
          (.started s.forks onDone (nowMs + timeoutMs)))

def expire (n : Nat) (s : Site κ) : Site κ :=
  complete app .timedOut ((releaseFd s).killAndReap n).dropChild

def tick (nowMs : UInt64) (s : Site κ) : Site κ :=
  match s.resolve.child with
  | none => s
  | some n =>
    let s := tryFinish app s
    let s :=
      match s.resolve.child with
      | none => s
      | some n => if s.resolve.deadlineMs ≤ nowMs then expire app n s else s
    s.note (.ticked nowMs n)

/-- Also what a shutdown does. -/
def cancel (s : Site κ) : Site κ :=
  match s.resolve.child, s.resolve.onDone with
  | some n, some onDone => (discard s).note (.cancelled n onDone)
  | _, _ => discard s

def Call.step (s : Site κ) : Call κ → Site κ
  | .start host onDone nowMs launch => (Resolve.start s host onDone nowMs launch).2
  | .output events => onChildOutput app events s
  | .tick nowMs => Resolve.tick app nowMs s
  | .cancel => Resolve.cancel s
  | .shutdown => Resolve.cancel s

end

def callback (run : Site κ → Call κ → Site κ) (s : Site κ) : Site κ :=
  match s.scripts with
  | [] => s
  | script :: scripts => script.foldl run { s with scripts }

/-- A call, in which callbacks may call the resolver again, `depth` deep. -/
def perform : (depth : Nat) → Site κ → Call κ → Site κ
  | 0, s, c => c.step id s
  | depth + 1, s, c => c.step (callback (perform depth)) s

def run (depth : Nat) (s : Site κ) (calls : List (Call κ)) : Site κ := calls.foldl (perform depth) s

/-- A resolver as `inkwell_resolve_init` leaves it, and any future. -/
structure Site.Fresh (s : Site κ) : Prop where
  resolve : ∃ loop, s.resolve = { loop }
  forks : s.forks = 0
  log : s.log = []
  strays : s.strays = 0

end Inkwell.Resolve
