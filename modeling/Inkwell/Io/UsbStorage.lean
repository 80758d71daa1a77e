import Inkwell.Base.Errno
import Inkwell.Library.Decimal

namespace Inkwell.UsbStorage
open Library

def chunkSize : Nat := 32768
def exitWrite : Nat := 11
def exitSync : Nat := 12
def idleTimeoutMs : UInt64 := 30000
def pendingSize : Nat := 32
def readSize : Nat := 256
def newline : UInt8 := 10

structure Image where
  bytes : Bytes
  fits : bytes.length < 2 ^ 64

inductive Status
  | exit (code : Nat)
  | signal
  deriving DecidableEq

/-- The system call the child makes next: a write to the device, a sync, or a write to the pipe. -/
inductive Phase
  | writing | syncing | reporting
  deriving DecidableEq

/-- The child in `write_child`. `synced` is how much is on the device for good; `pipe` is what the
parent has not read. -/
structure Child where
  image : Image
  offset : Nat := 0
  sent : Nat := 0
  phase : Phase := .writing
  device : Bytes := []
  synced : Nat := 0
  pipe : Bytes := []
  exited : Option Status := none
  reaps : Nat := 0

/-- What comes of a system call: it may do less than it was asked, but not nothing. -/
inductive Answer
  | put (n : Nat)
  | eintr
  | fail
  deriving DecidableEq

inductive ChildAct
  | call (answer : Answer)
  | die
  deriving DecidableEq

namespace Child
variable (c : Child)

def len : Nat := c.image.bytes.length

def chunk : Nat := if c.len - c.offset > chunkSize then chunkSize else c.len - c.offset

def exit (code : Nat) : Child := { c with exited := some (.exit code) }

def next : Child := if c.sent < c.chunk then { c with phase := .writing }
else { c with phase := .syncing }

def again : Child := if c.offset < c.len then { c with phase := .writing, sent := 0 } else c.exit 0

def writeSome (n : Nat) : Child :=
  let put := min (max n 1) (c.chunk - c.sent)
  next { c with
    sent := c.sent + put
    device := c.device ++ (c.image.bytes.drop (c.offset + c.sent)).take put }

def sync : Child :=
  { c with synced := c.device.length, offset := c.offset + c.chunk, phase := .reporting }

def line (n : Nat) : Bytes := decimal n ++ [newline]

def report : Child := again { c with pipe := c.pipe ++ line c.offset }

def call (answer : Answer) : Child :=
  match c.phase, answer with
  | .writing, .put n => c.writeSome n
  | .writing, .eintr => c
  | .writing, .fail => c.exit exitWrite
  | .syncing, .put _ => c.sync
  | .syncing, _ => c.exit exitSync
  -- the line goes in whole or not at all, and the child does not look
  | .reporting, .put _ => c.report
  | .reporting, _ => c.again

def act (a : ChildAct) : Child :=
  if c.exited.isSome then c
  else
    match a with
    | .call answer => c.call answer
    | .die => { c with exited := some .signal }

end Child

inductive State
  | idle | running | done | failed
  deriving DecidableEq

/-- Children, with their pipes, and claims on the device are named by numbers. -/
structure Writer where
  loop : Bool := false
  state : State := .idle
  error : Option Errno := none
  child : Option Nat := none
  progressFd : Option Nat := none
  deviceFd : Option Nat := none
  pending : Bytes := []
  written : Nat := 0
  total : Nat := 0
  idleDeadlineMs : UInt64 := 0

def isSpace (c : UInt8) : Bool := c == 32 || (9 ≤ c && c ≤ 13)

/-- `strtoull` in base ten: none when there is no number. -/
def strtoull (text : Bytes) : Option Nat :=
  let text := text.dropWhile isSpace
  let (negative, text) :=
    match text with
    | 45 :: text => (true, text)
    | 43 :: text => (false, text)
    | text => (false, text)
  let digits := text.takeWhile isDigit
  if digits.isEmpty then none
  else
    let value := numeral digits
    if 2 ^ 64 ≤ value then some (2 ^ 64 - 1)
    else some (if negative then (2 ^ 64 - value) % 2 ^ 64 else value)

def Writer.report (w : Writer) (nowMs : UInt64) (value : Nat) : Writer :=
  if value ≤ w.total ∧ w.written ≤ value then
    { w with written := value, idleDeadlineMs := nowMs + idleTimeoutMs }
  else w

def consumeByte (nowMs : UInt64) (w : Writer) (b : UInt8) : Writer :=
  if b ≠ newline then
    if w.pending.length + 1 < pendingSize then { w with pending := w.pending ++ [b] } else w
  else
    match strtoull w.pending with
    | some value => { w.report nowMs value with pending := [] }
    | none => { w with pending := [] }

def consume (nowMs : UInt64) (w : Writer) (bytes : Bytes) : Writer :=
  bytes.foldl (consumeByte nowMs) w

abbrev Acts := List (Nat × ChildAct)

inductive ReadAnswer
  | upTo (n : Nat)
  | eintr
  | error
  deriving DecidableEq

structure Launch where
  claim : Option Errno := none
  pipe : Option Errno := none
  fork : Option Errno := none
  added : Bool := true
  deriving DecidableEq

inductive Call
  | start (loop : Bool) (image : Option Image) (devicePath : Option Bytes) (nowMs : UInt64)
      (launch : Launch)
  | progress (nowMs : UInt64)
  | tick (nowMs : UInt64)
  | cancel

/-- The writer with all its children and claims. The lists say what is going to happen before each
read, poll and kill; `strays` counts calls on what is not there. -/
structure Site where
  write : Writer := {}
  children : Nat → Child
  forks : Nat := 0
  claims : Nat := 0
  closes : Nat → Nat := fun _ => 0
  reads : List (Acts × ReadAnswer) := []
  polls : List Acts := []
  kills : List Acts := []
  strays : Nat := 0

namespace Site
variable (s : Site)

def setChild (n : Nat) (c : Child) : Site := { s with children := Function.update s.children n c }

def act (a : Nat × ChildAct) : Site :=
  if a.1 < s.forks then s.setChild a.1 ((s.children a.1).act a.2) else s

def happen (acts : Acts) : Site := acts.foldl act s

def take (fd n : Nat) : Bytes × Site :=
  let c := s.children fd
  (c.pipe.take n, s.setChild fd { c with pipe := c.pipe.drop n })

def consume (nowMs : UInt64) (bytes : Bytes) : Site :=
  { s with write := UsbStorage.consume nowMs s.write bytes }

def atPoll : Site := { s.happen (s.polls.head?.getD []) with polls := s.polls.tail }
def atKill : Site := { s.happen (s.kills.head?.getD []) with kills := s.kills.tail }

def closeClaim (i : Nat) : Site :=
  if s.closes i = 0 then { s with closes := Function.update s.closes i 1 }
  else { s with closes := Function.update s.closes i (s.closes i + 1), strays := s.strays + 1 }

def killAndReap (n : Nat) : Site :=
  let s := s.atKill
  let c := s.children n
  if c.reaps = 0 then s.setChild n { c with exited := some (c.exited.getD .signal), reaps := 1 }
  else { s with strays := s.strays + 1 }

end Site

/-- A read of at most 256 bytes; none when the loop is to end, with whether there may be more. -/
def readOnce (nowMs : UInt64) (fd : Nat) (answer : ReadAnswer) (s : Site) : Option Bool × Site :=
  match answer with
  | .eintr => (none, s)
  | .error => (some false, s)
  | .upTo n =>
    if (s.children fd).pipe.isEmpty then (some (s.children fd).exited.isNone, s)
    else
      let (bytes, s) := s.take fd (min (max n 1) readSize)
      (none, s.consume nowMs bytes)

/-- The loop of `write_drain` when nothing more happens: it reads until the pipe is empty. -/
def drainRest (nowMs : UInt64) (fd : Nat) : (fuel : Nat) → Site → Bool × Site
  | 0, s => ((s.children fd).exited.isNone, s)
  | fuel + 1, s =>
    match readOnce nowMs fd (.upTo readSize) s with
    | (some more, s) => (more, s)
    | (none, s) => drainRest nowMs fd fuel s

def drainLoop (nowMs : UInt64) (fd : Nat) : List (Acts × ReadAnswer) → Site → Bool × Site
  | [], s => drainRest nowMs fd (s.children fd).pipe.length { s with reads := [] }
  | (acts, answer) :: reads, s =>
    match readOnce nowMs fd answer { s.happen acts with reads } with
    | (some more, s) => (more, s)
    | (none, s) => drainLoop nowMs fd reads s

def drain (nowMs : UInt64) (s : Site) : Bool × Site :=
  match s.write.progressFd with
  | none => (false, s)
  | some fd => drainLoop nowMs fd s.reads s

def releaseFd (s : Site) : Site :=
  let s :=
    match s.write.deviceFd with
    | none => s
    | some i => { s.closeClaim i with write := { s.write with deviceFd := none } }
  { s with write := { s.write with progressFd := none } }

def slay (n : Nat) (s : Site) : Site :=
  let s := s.killAndReap n
  { s with write := { s.write with child := none } }

def settle (state : State) (error : Option Errno) (s : Site) : Site :=
  { s with write := { s.write with state, error } }

def finish (status : Status) (s : Site) : Site :=
  let s := releaseFd { s with write := { s.write with child := none } }
  if status = .exit 0 then
    settle .done none { s with write := { s.write with written := s.write.total } }
  else settle .failed (some .eio) s

def tick (nowMs : UInt64) (s : Site) : Site :=
  if s.write.state ≠ .running then s
  else
    match s.write.child with
    | none => s
    | some n =>
      let s := (drain nowMs s).2
      if s.write.idleDeadlineMs ≤ nowMs then
        settle .failed (some .etimedout) (releaseFd (slay n s))
      else
        let s := s.atPoll
        match (s.children n).exited with
        | none => s
        | some status =>
          let c := s.children n
          let s := s.setChild n { c with reaps := c.reaps + 1 }
          finish status (drain nowMs s).2

def cancel (s : Site) : Site :=
  let s :=
    match s.write.child with
    | none => s
    | some n => slay n s
  settle .idle none (releaseFd s)

def begun (s : Site) (loop : Bool) (image : Image) (nowMs : UInt64) : Site :=
  { s.setChild s.forks { image } with
    forks := s.forks + 1
    claims := s.claims + 1
    write := {
      loop, state := .running, child := some s.forks, progressFd := some s.forks
      deviceFd := some s.claims, total := image.bytes.length
      idleDeadlineMs := nowMs + idleTimeoutMs } }

def start (s : Site) (loop : Bool) (image : Option Image) (devicePath : Option Bytes)
    (nowMs : UInt64) (launch : Launch) : Option Errno × Site :=
  match image with
  | none => (some .einval, s)
  | some image =>
    if image.bytes = [] ∨ devicePath.getD [] = [] then (some .einval, s)
    else if s.write.state = .running then (some .ebusy, s)
    else
      match launch.claim, launch.pipe, launch.fork with
      | some e, _, _ => (some e, s)
      -- the claim was taken, and is given up again
      | none, some e, _ => (some e, { s with claims := s.claims + 1 }.closeClaim s.claims)
      | none, none, some e => (some e, { s with claims := s.claims + 1 }.closeClaim s.claims)
      | none, none, none => (none, begun s (loop && launch.added) image nowMs)

def Call.step (s : Site) : Call → Site
  | .start loop image devicePath nowMs launch =>
    (UsbStorage.start s loop image devicePath nowMs launch).2
  | .progress nowMs => (drain nowMs s).2
  | .tick nowMs => UsbStorage.tick nowMs s
  | .cancel => UsbStorage.cancel s

def run (s : Site) (calls : List Call) : Site := calls.foldl Call.step s

/-- A writer as `inkwell_usb_storage_write_init` leaves it, and any future. -/
structure Site.Fresh (s : Site) : Prop where
  write : s.write = {}
  forks : s.forks = 0
  claims : s.claims = 0
  closes : ∀ i, s.closes i = 0
  strays : s.strays = 0

end Inkwell.UsbStorage
