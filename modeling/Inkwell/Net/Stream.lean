import Inkwell.Base.Errno
import Inkwell.Library.Memory
import Inkwell.Library.Ring

namespace Inkwell.Streams
open Library

def readChunk : Nat := 1024
def readsPerTurn : Nat := 8

inductive Kind
  | file | socket
  deriving DecidableEq

/-- A queued write. The `ticket` is not in the source: it says which call of send this was. -/
structure Slot where
  length : Nat := 0
  sent : Nat := 0
  id : UInt32 := 0
  ticket : Nat := 0

/-- The queue lies in the caller's storage: an entry for each slot, and the bytes of the slots one
behind another. -/
structure Stream where
  fd : Option Nat := none
  socket : Option Nat := none
  registrationToken : Option Nat := none
  kind : Kind := .file
  wantWrite : Bool := false
  loop : Bool := false
  slots : Nat → Slot
  bytes : Memory
  slotCount : Nat := 0
  slotBytes : Nat := 0
  head : Nat := 0
  queued : Nat := 0
  bytesReceived : Nat := 0
  onBytes : Bool := false
  onDropped : Bool := false

structure Letter where
  ticket : Nat
  id : UInt32
  data : Bytes
  deriving DecidableEq

inductive Event
  | handed (letter : Letter)
  | returned (letter : Letter) (error : Errno)
  | queued (letter : Letter)
  | wrote (bytes : Bytes)
  | finished (letter : Letter)
  | dropped (letter : Letter)
  | discarded (letter : Letter)
  | wroteRaw (bytes : Bytes)
  | received (bytes : Bytes)
  deriving DecidableEq

/-- A stream, whether the loop has its registration armed for writing, and what has happened. -/
structure Site where
  stream : Stream
  armed : Bool := false
  sends : Nat := 0
  trace : List Event := []

section
variable (site : Site)

def Site.log (events : List Event) : Site := { site with trace := site.trace ++ events }

def streamInit (slots : Option (Nat → Slot)) (slotCount : Nat) (bytes : Option Memory)
    (slotBytes : Nat) : Stream :=
  match slots, bytes with
  | some slots, some bytes =>
    if slotCount > 0 ∧ slotBytes > 0 then { slots, bytes, slotCount, slotBytes }
    else { slots, bytes }
  | _, _ => { slots := fun _ => {}, bytes := fun _ => 0 }

def streamSetSink (stream : Stream) (onBytes onDropped : Bool) : Stream :=
  { stream with onBytes, onDropped }

def streamIsOpen (stream : Stream) : Bool :=
  match stream.kind with
  | .socket => stream.socket.isSome
  | .file => stream.fd.isSome

def slotBytesAt (stream : Stream) (index : Nat) : Nat := index * stream.slotBytes

def slotWipe (stream : Stream) (index : Nat) : Stream :=
  { stream with
    bytes := stream.bytes.write (slotBytesAt stream index) (List.replicate stream.slotBytes 0) }

def letterAt (stream : Stream) (index : Nat) : Letter :=
  let slot := stream.slots index
  { ticket := slot.ticket, id := slot.id,
    data := stream.bytes.read (slotBytesAt stream index) slot.length }

/-- A write that will never go out is reported if it has a name and somebody listens. -/
def dropEvent (onDropped : Bool) (letter : Letter) : Event :=
  if letter.id ≠ 0 ∧ onDropped then .dropped letter else .discarded letter

def dropAt (index : Nat) : Site :=
  let site := site.log [dropEvent site.stream.onDropped (letterAt site.stream index)]
  { site with stream := slotWipe site.stream index }

def streamDropQueue : Site :=
  let site := (List.range site.stream.queued).foldl
    (fun at_ i => dropAt at_ ((site.stream.head + i) % site.stream.slotCount)) site
  { site with stream := { site.stream with head := 0, queued := 0 } }

/-- `updated` is whether the loop takes the update. -/
def streamUpdateWriteInterest (updated : Bool) : Site :=
  if site.stream.registrationToken = none ∨ site.stream.loop = false then site
  else
    let want := decide (site.stream.queued > 0)
    if want = site.stream.wantWrite then site
    else if updated then
      { site with armed := want, stream := { site.stream with wantWrite := want } }
    else site

/-- What the descriptor answers to the next writes; a number is that of the bytes it takes. -/
abbrev Writes := List (Except Errno Nat)

def progress (written : Nat) : Site :=
  let stream := site.stream
  let slot := stream.slots stream.head
  let site := site.log
    [.wrote (stream.bytes.read (slotBytesAt stream stream.head + slot.sent) written)]
  { site with
    stream := { stream with
      slots :=
        Function.update stream.slots stream.head { slot with sent := slot.sent + written } } }

def advance : Site :=
  let stream := site.stream
  let site := site.log [.finished (letterAt stream stream.head)]
  { site with
    stream := { slotWipe stream stream.head with
      head := (stream.head + 1) % stream.slotCount, queued := stream.queued - 1 } }

@[grind =] def flushLoop : Writes → Site → Except Errno Unit × Site
  | [], site => (.ok (), site)
  | answer :: writes, site =>
    if site.stream.queued = 0 then (.ok (), site)
    else
      match answer with
      | .error e =>
        if e = .eagain then (.ok (), site)
        else if e = .eintr then flushLoop writes site
        else (.error .eio, site)
      | .ok n =>
        let slot := site.stream.slots site.stream.head
        let site := progress site (min n (slot.length - slot.sent))
        let slot := site.stream.slots site.stream.head
        if slot.sent < slot.length then (.ok (), site) else flushLoop writes (advance site)

def streamFlush (writes : Writes) (updated : Bool) : Except Errno Unit × Site :=
  if !streamIsOpen site.stream then (.error .enotconn, site)
  else
    match flushLoop writes site with
    | (.error e, site) => (.error e, site)
    | (.ok (), site) => (.ok (), streamUpdateWriteInterest site updated)

def enqueue (letter : Letter) : Site :=
  let stream := site.stream
  let index := (stream.head + stream.queued) % stream.slotCount
  let site := site.log [.queued letter]
  { site with
    stream := { stream with
      bytes := stream.bytes.write (slotBytesAt stream index) letter.data
      slots := Function.update stream.slots index
        { length := letter.data.length, sent := 0, id := letter.id, ticket := letter.ticket }
      queued := stream.queued + 1 } }

structure Answers where
  armed : Bool := true
  writes : Writes := []
  updated : Bool := true

def sendQueued (letter : Letter) (answers : Answers) : Except Errno Unit × Site :=
  streamFlush (streamUpdateWriteInterest (enqueue site letter) answers.armed) answers.writes
    answers.updated

/-- What a send does with a write that is handed to it; `data` may be missing. -/
def sendLetter (data : Option Bytes) (letter : Letter) (answers : Answers) :
    Except Errno Unit × Site :=
  if data = none then (.error .einval, site)
  else if !streamIsOpen site.stream then (.error .enotconn, site)
  else if site.stream.slotCount = 0 ∨ site.stream.queued ≥ site.stream.slotCount then
    (.error .enospc, site)
  else if letter.data.length > site.stream.slotBytes then (.error .emsgsize, site)
  else sendQueued site letter answers

def streamSend (data : Option Bytes) (id : UInt32) (answers : Answers) : Except Errno Unit × Site :=
  let letter : Letter := { ticket := site.sends, id, data := data.getD [] }
  let site := { site.log [.handed letter] with sends := site.sends + 1 }
  match sendLetter site data letter answers with
  | (.error e, site) => (.error e, site.log [.returned letter e])
  | (.ok (), site) => (.ok (), site)

def streamWriteRaw (data : Option Bytes) (answer : Except Errno Nat) : Except Errno Nat × Site :=
  match data with
  | none => (.error .einval, site)
  | some data =>
    if !streamIsOpen site.stream then (.error .enotconn, site)
    else
      match answer with
      | .error e => (.error e, site)
      | .ok n => (.ok (min n data.length), site.log [.wroteRaw (data.take n)])

/-- A turn of the pump's loop: the pump's own answer, if it ends here. -/
def pumpTurn (got : Except Errno Bytes) (total : Nat) : Option (Except Errno Nat) × Site :=
  match got with
  | .ok [] => (some (.error .enotconn), site)
  | .ok (b :: bytes) =>
    let got := (b :: bytes).take readChunk
    let site := { site with
      stream := { site.stream with bytesReceived := site.stream.bytesReceived + got.length } }
    (none, if site.stream.onBytes then site.log [.received got] else site)
  | .error .eagain => (some (.ok total), site)
  | .error .eintr => (none, site)
  | .error _ => (some (.error .eio), site)

def pumpLoop : (turns total : Nat) → List (Except Errno Bytes) → Site → Except Errno Nat × Site
  | 0, total, _, site => (.ok total, site)
  | _ + 1, total, [], site => (.ok total, site)
  | turns + 1, total, got :: reads, site =>
    match pumpTurn site got total with
    | (some answer, site) => (answer, site)
    | (none, site) =>
      let received := match got with
        | .ok bytes => (bytes.take readChunk).length
        | .error _ => 0
      pumpLoop turns (total + received) reads site

def streamPump (reads : List (Except Errno Bytes)) : Except Errno Nat × Site :=
  if !streamIsOpen site.stream then (.error .enotconn, site)
  else pumpLoop readsPerTurn 0 reads site

def opened (stream : Stream) : Site :=
  { site with
    armed := false
    stream := { stream with wantWrite := false, bytesReceived := 0, head := 0, queued := 0 } }

def streamOpenSocket (socket : Option Nat) (loop : Bool) (watched : Except Errno Nat) :
    Except Errno Unit × Site :=
  match socket with
  | none => (.error .einval, site)
  | some socket =>
    if streamIsOpen site.stream then (.error .ebusy, site)
    else
      let stream := { site.stream with socket := some socket, kind := .socket, loop }
      if loop then
        match watched with
        | .error e => (.error e, site)
        | .ok token => (.ok (), opened site { stream with registrationToken := some token })
      else (.ok (), opened site { stream with registrationToken := none })

def streamOpen (fd : Int) (kind : Kind) (loop : Bool) (watched : Except Errno Nat) :
    Except Errno Unit × Site :=
  if fd < 0 then (.error .einval, site)
  else
    match kind with
    | .socket => streamOpenSocket site (some fd.toNat) loop watched
    | .file =>
      if streamIsOpen site.stream then (.error .ebusy, site)
      else
        let stream := { site.stream with fd := some fd.toNat, kind := .file, loop }
        if loop then
          match watched with
          | .error e => (.error e, site)
          | .ok _ => (.ok (), opened site { stream with registrationToken := some fd.toNat })
        else (.ok (), opened site { stream with registrationToken := none })

def streamClose : Site :=
  let site := streamDropQueue site
  if !streamIsOpen site.stream then site
  else
    { site with
      armed := false
      stream := { site.stream with
        fd := none, socket := none, registrationToken := none, wantWrite := false } }

/-- A call with what it is answered. A pump whose callback makes calls is a row of turns with
those calls in between. -/
inductive Call
  | setSink (onBytes onDropped : Bool)
  | openFd (fd : Int) (kind : Kind) (loop : Bool) (watched : Except Errno Nat)
  | openSocket (socket : Option Nat) (loop : Bool) (watched : Except Errno Nat)
  | send (data : Option Bytes) (id : UInt32) (answers : Answers)
  | flush (writes : Writes) (updated : Bool)
  | writeRaw (data : Option Bytes) (answer : Except Errno Nat)
  | pump (reads : List (Except Errno Bytes))
  | turn (got : Except Errno Bytes) (total : Nat)
  | close

def Call.run : Call → Site
  | .setSink onBytes onDropped =>
      { site with stream := streamSetSink site.stream onBytes onDropped }
  | .openFd fd kind loop watched => (streamOpen site fd kind loop watched).2
  | .openSocket socket loop watched => (streamOpenSocket site socket loop watched).2
  | .send data id answers => (streamSend site data id answers).2
  | .flush writes updated => (streamFlush site writes updated).2
  | .writeRaw data answer => (streamWriteRaw site data answer).2
  | .pump reads => (streamPump site reads).2
  | .turn got total => (pumpTurn site got total).2
  | .close => streamClose site

def runCalls (calls : List Call) : Site := calls.foldl Call.run site

end

end Inkwell.Streams
