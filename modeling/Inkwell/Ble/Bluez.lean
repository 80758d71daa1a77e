import Inkwell.Ble.Bluez.Objects

namespace Inkwell.Bluez

def readTimeoutMs : UInt64 := 3000
def propertyTimeoutMs : UInt64 := 5000
def writeTimeoutMs : UInt64 := 3000
def subscribeTimeoutMs : UInt64 := 8000
def valueMax : Nat := 512
def unansweredMax : Nat := 8

def defaultAdapter : Text := literal "/org/bluez/hci0"

def devicePath (adapter address : Text) : Option Text :=
  if address = [] then none
  else
    let mangled := (strCopy addressMax address).map fun c => if c = 58 then 95 else c
    let path := (if adapter = [] then defaultAdapter else adapter) ++ literal "/dev_" ++ mangled
    if path.length < handleMax then some path else none

/-- What follows the first occurrence of `needle`. -/
def afterFirst (needle : Text) : Text → Option Text
  | [] => if needle = [] then some [] else none
  | c :: s =>
    if needle.isPrefixOf (c :: s) then some ((c :: s).drop needle.length) else afterFirst needle s

def addressFromPath (path : Text) : Text :=
  match afterFirst (literal "/dev_") path with
  | none => []
  | some dev => strCopy addressMax ((dev.takeWhile (· != 47)).map fun c => if c = 95 then 58 else c)

def errnoOfName (name : Text) : Option Errno :=
  let suffix := afterLast 46 name
  if suffix = literal "NotPaired" ∨ suffix = literal "NotPermitted" ∨
      suffix = literal "NotAuthorized" ∨
      (literal "Authentication").isPrefixOf suffix then some .eacces
  else if suffix = literal "NotConnected" ∨ suffix = literal "NotReady" then some .enotconn
  else if suffix = literal "InProgress" then some .ebusy
  else if suffix = literal "NoReply" ∨ suffix = literal "Timeout" ∨ suffix = literal "TimedOut" then
    some .etimedout
  else if suffix = literal "DoesNotExist" ∨ suffix = literal "UnknownObject" then some .enoent
  else none

def errnoOfMessage (message : Text) : Option Errno :=
  if sameNocase message (literal "Not paired") || sameNocase message (literal "Not Authorized") then
    some .eacces
  else if sameNocase message (literal "Page Timeout") ||
      sameNocase message (literal "Connection Timeout") then some .etimedout
  else if sameNocase message (literal "Operation already in progress") then some .ealready
  else none

def errorToErrno (name message : Option Text) : Errno :=
  ((name.bind errnoOfName).or (message.bind errnoOfMessage)).getD .eio

inductive Body
  | empty
  /-- a variant with a boolean in it -/
  | boolean (value : Bool)
  | bytes (data : Bytes)
  | tree (entries : List (Text × Interfaces))
  | other

inductive Reply
  | returned (body : Body)
  | error (name message : Option Text)

def Reply.tree : Reply → TreeReply
  | .error _ _ => .error
  | .returned (.tree entries) => .tree entries
  | .returned _ => .other

inductive Member
  | requestPasskey | requestPinCode | requestConfirmation (passkey : UInt32)
  | displayPasskey | displayPinCode | requestAuthorization | authorizeService
  | cancel | release | other
  deriving DecidableEq

/-- A call of our agent. `device` is the path among its arguments, if there is one. -/
structure AgentCall where
  member : Member
  device : Option Text := none
  deriving DecidableEq

inductive Message
  | agent (call : AgentCall)
  | reply (serial : Nat) (reply : Reply)
  | tree (signal : TreeSignal)
  /-- a characteristic's PropertiesChanged with its value -/
  | value (path : Text) (data : Bytes)
  | other

/-- The states of a request, a connect or a pair: 0, 1 and 2 in the code. -/
inductive Stage
  | idle | pending | done
  deriving DecidableEq

inductive Slot
  | write | servicesResolved | connected | subscribe | read
  deriving DecidableEq

structure Outcome where
  result : Option Errno := none
  value : Bool := false
  payload : Bytes := []
  deriving DecidableEq

/-- A slot. `serial` is its request's message, and `token` the same while a reply is expected. -/
structure Request where
  token : Nat := 0
  state : Stage := .idle
  outcome : Outcome := {}
  timer : Option Nat := none
  deadlineMs : UInt64 := 0
  serial : Nat := 0
  deriving DecidableEq

/-- A request whose reply is due; `read_start` leaves the timer and the token as they were. -/
def Request.started (slot : Slot) (r : Request) (deadlineMs : UInt64) : Request :=
  match slot with
  | .read => { r with state := .pending, deadlineMs }
  | _ => { r with timer := none, state := .pending, token := 0, deadlineMs }

inductive Ask
  | write (handle : Text) (data : Bytes)
  | servicesResolved (address : Text)
  | connected (address : Text)
  | subscribe (handle : Text)
  | read (handle : Text) (capacity : Nat)
  deriving DecidableEq

def Ask.slot : Ask → Slot
  | .write _ _ => .write
  | .servicesResolved _ => .servicesResolved
  | .connected _ => .connected
  | .subscribe _ => .subscribe
  | .read _ _ => .read

def Ask.timeoutMs : Ask → UInt64
  | .write _ _ => writeTimeoutMs
  | .servicesResolved _ => propertyTimeoutMs
  | .connected _ => propertyTimeoutMs
  | .subscribe _ => subscribeTimeoutMs
  | .read _ _ => readTimeoutMs

structure Answer where
  error : Option Errno := none
  value : Bool := false
  data : Bytes := []
  deriving DecidableEq

def Ask.answer (ask : Ask) (outcome : Outcome) : Answer :=
  match ask, outcome.result with
  | _, some e => { error := some e }
  | .servicesResolved _, none => { value := outcome.value }
  | .connected _, none => { value := outcome.value }
  | .read _ capacity, none =>
    if capacity < outcome.payload.length then { error := some .emsgsize }
    else { data := outcome.payload }
  | _, none => {}

def requestReply (slot : Slot) (reply : Reply) : Outcome :=
  match reply, slot with
  | .error _ _, _ => { result := some .eio }
  | .returned .empty, .write => {}
  | .returned _, .write => { result := some .eproto }
  | .returned (.boolean value), _ => { value }
  | .returned _, _ => { result := some .eproto }

/-- A reply that only says whether it is one: to StartNotify, Pair or Connect. -/
def plainReply : Reply → Outcome
  | .returned _ => {}
  | .error name message => { result := some (errorToErrno name message) }

def readReply : Reply → Outcome
  | .error name message => { result := some (errorToErrno name message) }
  | .returned (.bytes data) =>
    if valueMax < data.length then { result := some .emsgsize } else { payload := data }
  | .returned _ => { result := some .eproto }

def decode (slot : Slot) (reply : Reply) : Outcome :=
  match slot with
  | .subscribe => plainReply reply
  | .read => readReply reply
  | _ => requestReply slot reply

def timedOut : Outcome := { result := some .etimedout }

/-- What has happened at the slots, and the replies there were. -/
inductive Event
  | began (slot : Slot) (serial : Nat)
  | answered (slot : Slot) (serial : Nat) (ask : Ask) (answer : Answer)
  | cancelled (slot : Slot) (serial : Nat)
  | received (serial : Nat) (reply : Reply)

/-- The slots and their timers; `log` is newest first. -/
structure Desk where
  requests : Slot → Request := fun _ => {}
  loop : Bool := false
  timers : List Nat := []
  nextTimer : Nat := 0
  subscribeHandle : Text := []
  notifyHandle : Text := []
  log : List Event := []

structure Opening where
  timer : Option Errno := none
  added : Option Errno := none
  armed : Option Errno := none
  deriving DecidableEq

namespace Desk
variable (d : Desk)

def set (slot : Slot) (r : Request) : Desk :=
  { d with requests := Function.update d.requests slot r }

def closeTimer (r : Request) : List Nat :=
  match r.state, r.timer with
  | .idle, _ => d.timers
  | _, none => d.timers
  | _, some t => d.timers.erase t

/-- `pending_cancel` and `inkwell_ble_read_cancel`, which clears more. -/
def pendingCancel (slot : Slot) : Desk :=
  let r := d.requests slot
  let d := { d with timers := d.closeTimer r }
  match slot with
  | .read =>
    d.set slot { r with
      timer := none, state := .idle, token := 0, deadlineMs := 0
      outcome := { r.outcome with payload := [] } }
  | _ => d.set slot { r with state := .idle, token := 0, timer := none }

/-- `inkwell_ble_pending_finish` and `inkwell_ble_read_finish`. The callback comes last in all
that calls them, so what the application does there are steps of its own. -/
def pendingFinish (slot : Slot) (outcome : Outcome) : Desk :=
  let r := d.requests slot
  if r.state = .pending then d.set slot { r with outcome, state := .done, token := 0 } else d

def pendingStart (slot : Slot) (nowMs timeoutMs : UInt64) (opening : Opening) :
    Option Errno × Desk :=
  let r := (d.requests slot).started slot (nowMs + timeoutMs)
  if d.loop then
    match opening.timer with
    | some e => (some e, (d.set slot r).pendingCancel slot)
    | none =>
      let d := { d.set slot { r with timer := some d.nextTimer } with
        timers := d.nextTimer :: d.timers, nextTimer := d.nextTimer + 1 }
      match opening.added.or opening.armed with
      | some e => (some e, d.pendingCancel slot)
      | none => (none, d)
  else (none, d.set slot r)

def note (event : Event) : Desk := { d with log := event :: d.log }

def pendingTake (ask : Ask) : Answer × Desk :=
  let r := d.requests ask.slot
  match r.state with
  | .pending => ({ error := some .eagain }, d)
  | _ =>
    let answer := ask.answer r.outcome
    (answer, (d.pendingCancel ask.slot).note (.answered ask.slot r.serial ask answer))

def remember (ask : Ask) : Desk :=
  match ask with
  | .subscribe handle => { d with subscribeHandle := strCopy handleMax handle }
  | _ => d

def sent (slot : Slot) (serial : Nat) : Desk :=
  (d.set slot { d.requests slot with token := serial, serial }).note (.began slot serial)

def giveUp (slot : Slot) : Desk :=
  let r := d.requests slot
  if r.state = .idle then d.pendingCancel slot
  else (d.pendingCancel slot).note (.cancelled slot r.serial)

def requestsCancel : Desk :=
  (((d.giveUp .write).giveUp .servicesResolved).giveUp .connected).giveUp .subscribe

def awaits (slot : Slot) (serial : Nat) : Bool :=
  (d.requests slot).state = .pending && (d.requests slot).token = serial

def expire (slot : Slot) (nowMs : UInt64) : Desk :=
  if (d.requests slot).state = .pending && (d.requests slot).deadlineMs ≤ nowMs then
    d.pendingFinish slot timedOut
  else d

/-- The loop calls `pending_timeout` or `read_timeout`, the timer having expired or not. -/
def timerReady (slot : Slot) (expired : Bool) : Desk :=
  if (d.requests slot).timer.isSome && expired then d.pendingFinish slot timedOut else d

end Desk

inductive RequestKind
  | none | passkey | pinCode | confirm
  deriving DecidableEq

structure AgentRequest where
  kind : RequestKind := .none
  address : Text := []
  passkey : UInt32 := 0
  deriving DecidableEq

/-- What has happened to pairings, and the replies of the agent. -/
inductive PairEvent
  | began (serial : Nat) (address : Text)
  | over (serial : Nat)
  | accepted (call : AgentCall)
  | refused (call : AgentCall)
  deriving DecidableEq

structure Pairing where
  token : Nat := 0
  state : Stage := .idle
  result : Option Errno := none
  address : Text := []
  registered : Bool := false
  request : AgentRequest := {}
  held : Option AgentCall := none
  log : List PairEvent := []
  deriving DecidableEq

structure Connect where
  token : Nat := 0
  state : Stage := .idle
  result : Option Errno := none
  deriving DecidableEq

/-- A central on BlueZ. `unanswered` are the calls whose replies are only logged. -/
structure Central where
  opened : Bool := true
  adapter : Text := []
  nextSerial : Nat := 1
  unanswered : List Nat := List.replicate unansweredMax 0
  unansweredNext : Nat := 0
  desk : Desk := {}
  pairing : Pairing := {}
  connect : Connect := {}
  objects : Objects := {}

namespace Pairing
variable (p : Pairing)

def note (event : PairEvent) : Pairing := { p with log := event :: p.log }

/-- `inkwell_ble_backend_agent_answer`; a reply needs memory. -/
def agentAnswer (accept memory : Bool) : Option Errno × Pairing :=
  match p.held with
  | none => (some .enoent, p)
  | some call =>
    if accept then
      if memory then (none, { p.note (.accepted call) with held := none }) else (some .enomem, p)
    else if memory then (none, { p.note (.refused call) with held := none })
    else (none, { p with held := none })

def clearRequest : Pairing := { p with request := {} }

/-- `opened` is whether there is a backend to answer through. -/
def agentReject (opened memory : Bool) : Option Errno × Pairing :=
  if p.request.kind = .none then (some .enoent, p)
  else if opened then (none, (p.agentAnswer false memory).2.clearRequest)
  else (none, p.clearRequest)

def agentSubmitPasskey (opened memory : Bool) : Option Errno × Pairing :=
  if p.request.kind = .none then (some .enoent, p)
  else if opened then
    match p.agentAnswer true memory with
    | (none, p) => (none, p.clearRequest)
    | (some .enoent, p) => (some .enoent, p.clearRequest)
    | (some e, p) => (some e, p)
  else (some .enoent, p.clearRequest)

def agentConfirm (opened memory : Bool) : Option Errno × Pairing :=
  if p.request.kind ≠ .confirm then (some .enoent, p) else p.agentSubmitPasskey opened memory

def agentUnregister (opened memory : Bool) : Pairing :=
  if p.registered then { (p.agentReject opened memory).2 with registered := false } else p

def agentAck (call : AgentCall) (memory : Bool) : Pairing :=
  if memory then p.note (.accepted call) else p

def agentRefuse (call : AgentCall) (memory : Bool) : Pairing :=
  if memory then p.note (.refused call) else p

def agentCallIsOurs (adapter : Text) (device : Option Text) : Bool :=
  p.state = .pending && device.isSome && devicePath adapter p.address = device

def agentDefer (memory : Bool) (call : AgentCall) (kind : RequestKind) (passkey : UInt32) :
    Pairing :=
  let p := if p.request.kind ≠ .none then (p.agentReject true memory).2 else p
  { p with
    held := some call
    request := { kind, passkey, address := addressFromPath (call.device.getD []) } }

def agentAsk (adapter : Text) (memory : Bool) (call : AgentCall) (kind : RequestKind)
    (passkey : UInt32) : Pairing :=
  if p.agentCallIsOurs adapter call.device then p.agentDefer memory call kind passkey
  else p.agentRefuse call memory

def handleAgentCall (adapter : Text) (memory : Bool) (call : AgentCall) : Pairing :=
  match call.member with
  | .requestPasskey => p.agentAsk adapter memory call .passkey 0
  | .requestPinCode => p.agentAsk adapter memory call .pinCode 0
  | .requestConfirmation passkey => p.agentAsk adapter memory call .confirm passkey
  | .displayPasskey => p.agentAck call memory
  | .displayPinCode => p.agentAck call memory
  | .requestAuthorization | .authorizeService =>
    if p.agentCallIsOurs adapter call.device then p.agentAck call memory
    else p.agentRefuse call memory
  | .cancel => agentAck { p with held := none, request := {} } call memory
  | .release => agentAck { p with registered := false } call memory
  | .other => p.agentAck call memory

def conclude : Pairing := if p.state = .pending then p.note (.over p.token) else p

def pairFinish (result : Option Errno) : Pairing :=
  if p.state ≠ .pending then p else { p.conclude with result, state := .done }

def pairPoll : Option (Option Errno) × Pairing :=
  if p.state ≠ .done then (none, p) else (some p.result, { p with state := .idle, token := 0 })

def pairCancel (opened memory : Bool) : Pairing :=
  let p := (p.agentReject opened memory).2
  { p.conclude with state := .idle, token := 0, result := none, address := [] }

end Pairing

namespace Central
variable (c : Central)

def sendLogged : Central :=
  { c with
    unanswered := c.unanswered.set c.unansweredNext c.nextSerial
    unansweredNext := (c.unansweredNext + 1) % unansweredMax
    nextSerial := c.nextSerial + 1 }

/-- The backend's part of a request; `failed` is what sending or making the message comes to. -/
def backendSend (ask : Ask) (failed : Option Errno) : Option Errno :=
  match ask with
  | .servicesResolved address => if (devicePath c.adapter address).isNone then some .einval
  else failed
  | .connected address => if (devicePath c.adapter address).isNone then some .einval else failed
  | _ => failed

/-- `query`, `inkwell_ble_write`, `inkwell_ble_subscribe` and `inkwell_ble_read` of an idle slot. -/
def start (ask : Ask) (nowMs : UInt64) (opening : Opening) (failed : Option Errno) :
    Answer × Central :=
  match c.desk.pendingStart ask.slot nowMs ask.timeoutMs opening with
  | (some e, desk) => ({ error := some e }, { c with desk })
  | (none, desk) =>
    let desk := desk.remember ask
    match c.backendSend ask failed with
    | some e => ({ error := some e }, { c with desk := desk.pendingCancel ask.slot })
    | none =>
      ({ error := some .eagain },
        { c with desk := desk.sent ask.slot c.nextSerial, nextSerial := c.nextSerial + 1 })

def ask (ask : Ask) (nowMs : UInt64) (opening : Opening) (failed : Option Errno) :
    Answer × Central :=
  if ask.slot ≠ .read ∧ c.opened = false then ({ error := some .enotconn }, c)
  else if (c.desk.requests ask.slot).state ≠ .idle then
    let (answer, desk) := c.desk.pendingTake ask
    (answer, { c with desk })
  else if c.opened = false then ({ error := some .enotconn }, c)
  else c.start ask nowMs opening failed

def subscribeFinish (outcome : Outcome) : Central :=
  if (c.desk.requests .subscribe).state ≠ .pending then c
  else
    let desk := if outcome.result = none then { c.desk with notifyHandle := c.desk.subscribeHandle }
      else c.desk
    { c with desk := desk.pendingFinish .subscribe outcome }

def handleReply (serial : Nat) (reply : Reply) (memory : Bool) : Central :=
  if serial = c.objects.serial then
    { c with objects := objectsLoad memory { c.objects with serial := 0 } reply.tree }
  else if serial ∈ c.unanswered then
    { c with unanswered := c.unanswered.set (c.unanswered.idxOf serial) 0 }
  else if c.desk.awaits .subscribe serial then c.subscribeFinish (decode .subscribe reply)
  else if c.desk.awaits .write serial then
    { c with desk := c.desk.pendingFinish .write (decode .write reply) }
  else if c.desk.awaits .servicesResolved serial then
    { c with desk := c.desk.pendingFinish .servicesResolved (decode .servicesResolved reply) }
  else if c.desk.awaits .connected serial then
    { c with desk := c.desk.pendingFinish .connected (decode .connected reply) }
  else if c.desk.awaits .read serial then
    { c with desk := c.desk.pendingFinish .read (decode .read reply) }
  else if c.pairing.state = .pending && c.pairing.token = serial then
    { c with pairing := c.pairing.pairFinish (plainReply reply).result }
  else if c.connect.state = .pending && c.connect.token = serial then
    { c with connect := { c.connect with result := (plainReply reply).result, state := .done } }
  else c

/-- `objects_handle_signal` and the copy's part of `handle_properties_changed`; `send` is whether
a GetManagedObjects can be sent. -/
def handleTree (signal : TreeSignal) (memory send : Bool) : Central :=
  let c' := { c with
    objects :=
      objectsHandleSignal memory (if send then some c.nextSerial else none) c.objects signal }
  match signal with
  | .ownerChanged true true => if send then { c' with nextSerial := c.nextSerial + 1 } else c'
  | _ => c'

def handleMessage (message : Message) (memory send : Bool) : Central :=
  match message with
  | .agent call => { c with pairing := c.pairing.handleAgentCall c.adapter memory call }
  | .reply serial reply =>
    let c := { c with desk := c.desk.note (.received serial reply) }
    if serial = 0 then c else c.handleReply serial reply memory
  | .tree signal => c.handleTree signal memory send
  | .value _ _ => c
  | .other => c

def pairBegin (address : Text) (failed : Option Errno) : Option Errno × Central :=
  if c.pairing.state = .pending then (some .ebusy, c)
  else
    let c := { c with pairing := { c.pairing with address := strCopy addressMax address } }
    if c.opened = false then (some .enotconn, c)
    else if (devicePath c.adapter address).isNone then (some .einval, c)
    else
      match failed with
      | some e => (some e, c)
      | none =>
        (none, { c with
          nextSerial := c.nextSerial + 1
          pairing := { c.pairing.note (.began c.nextSerial c.pairing.address) with
            token := c.nextSerial, state := .pending, result := none } })

/-- `inkwell_ble_pair_cancel`; `send` is whether its CancelPairing can be sent. -/
def pairCancel (memory send : Bool) : Central :=
  let c' := { c with pairing := c.pairing.pairCancel c.opened memory }
  if c.pairing.state = .pending && c.opened && send &&
      (devicePath c.adapter c.pairing.address).isSome then
    -- nobody waits for its answer, and nothing logs it
    { c' with nextSerial := c.nextSerial + 1 }
  else c'

def connectBegin (address : Text) (failed : Option Errno) : Option Errno × Central :=
  if c.connect.state = .pending then (some .ebusy, c)
  else if c.opened = false then (some .enotconn, c)
  else if (devicePath c.adapter address).isNone then (some .einval, c)
  else
    match failed with
    | some e => (some e, c)
    | none =>
      (none, { c with
        nextSerial := c.nextSerial + 1
        connect := { token := c.nextSerial, state := .pending, result := none } })

/-- How RegisterAgent goes; `send` is whether RequestDefaultAgent can be sent after it. -/
inductive Registering
  | noMemory
  | noReply
  | error (name message : Option Text)
  | done (send : Bool)

def agentRegister (registering : Registering) : Option Errno × Central :=
  if c.pairing.registered then (none, c)
  else if c.opened = false then (some .enotconn, c)
  else
    let asked := { c with nextSerial := c.nextSerial + 1 }
    let registered := { asked with pairing := { c.pairing with registered := true } }
    match registering with
    | .noMemory => (some .enomem, c)
    | .noReply => (some .eio, asked)
    | .error name message =>
      -- an agent left behind by an earlier run; the default one is not asked for again
      if name = some (literal "org.bluez.Error.AlreadyExists") then (none, registered)
      else (some (errorToErrno name message), asked)
    | .done send => (none, if send then registered.sendLogged else registered)

/-- `objects_ensure`: the reply comes in the call, or does not. -/
def objectsEnsure (reply : Option TreeReply) (memory : Bool) : Central :=
  if c.objects.loaded then c
  else
    let c := { c with nextSerial := c.nextSerial + 1 }
    match reply with
    | none => c
    | some reply => { c with objects := objectsLoad memory { c.objects with serial := 0 } reply }

def findAdapter (reply : Option TreeReply) (memory : Bool) : Central :=
  let c := c.objectsEnsure reply memory
  if c.objects.loaded then
    match c.objects.objects.find? fun object => object.interfaces .adapter with
    | some object => { c with adapter := strCopy handleMax object.path }
    | none => c
  else c

def discovering (send : Bool) : Central :=
  if c.objects.loaded then c
  else if c.objects.serial = 0 then
    if send then
      { c with
        objects := { c.objects with serial := c.nextSerial }
        nextSerial := c.nextSerial + 1 }
    else c
  else c

def detachLoop : Central :=
  { c with desk := { (c.desk.giveUp .read).requestsCancel with loop := false } }

def close (memory : Bool) : Central :=
  let desk := { (c.desk.giveUp .read).requestsCancel with loop := false, notifyHandle := [] }
  let p := c.pairing.agentUnregister c.opened memory
  { c with
    desk
    pairing := { p.conclude with state := .idle, token := 0, address := [], held := none }
    opened := false
    objects := { objectsClear c.objects with serial := 0 } }

structure Calls (c c' : Central) : Prop where
  desk : c'.desk = c.desk
  objects : c'.objects = c.objects
  serial : c.nextSerial ≤ c'.nextSerial

structure Looks (c c' : Central) : Prop where
  desk : c'.desk = c.desk
  pairing : c'.pairing = c.pairing
  serial : c.nextSerial ≤ c'.nextSerial

theorem ask_frame (ask : Ask) : (c.ask ask nowMs opening failed).2.pairing = c.pairing ∧
      (c.ask ask nowMs opening failed).2.objects = c.objects ∧
      c.nextSerial ≤ (c.ask ask nowMs opening failed).2.nextSerial := by
  unfold Central.ask start
  repeat' split
  all_goals exact ⟨rfl, rfl, by simp⟩

theorem calls_pairBegin : c.Calls (c.pairBegin address failed).2 := by
  unfold pairBegin
  dsimp only
  repeat' split
  all_goals exact ⟨rfl, rfl, by simp⟩

theorem calls_pairCancel : c.Calls (c.pairCancel memory send) := by
  unfold pairCancel
  split
  · exact ⟨rfl, rfl, Nat.le_succ _⟩
  · exact ⟨rfl, rfl, le_rfl⟩

theorem calls_connectBegin :
    c.Calls (c.connectBegin address failed).2 ∧
      (c.connectBegin address failed).2.pairing = c.pairing := by
  unfold connectBegin
  repeat' split
  all_goals exact ⟨⟨rfl, rfl, by simp⟩, rfl⟩

theorem calls_agentRegister : c.Calls (c.agentRegister registering).2 := by
  unfold agentRegister sendLogged
  dsimp only
  repeat' split
  all_goals exact ⟨rfl, rfl, by simp +arith⟩

theorem looks_handleTree : c.Looks (c.handleTree signal memory send) := by
  unfold handleTree
  repeat' split
  all_goals exact ⟨rfl, rfl, by simp⟩

theorem looks_objectsEnsure : c.Looks (c.objectsEnsure reply memory) := by
  unfold objectsEnsure
  repeat' split
  all_goals exact ⟨rfl, rfl, by simp⟩

theorem looks_findAdapter : c.Looks (c.findAdapter reply memory) := by
  obtain ⟨hdesk, hpairing, hserial⟩ := c.looks_objectsEnsure
  unfold findAdapter
  dsimp only
  repeat' split
  all_goals exact ⟨hdesk, hpairing, hserial⟩

theorem looks_discovering : c.Looks (c.discovering send) := by
  unfold discovering
  repeat' split
  all_goals exact ⟨rfl, rfl, by simp⟩

end Central

/-- The application's calls, the loop's timers, and the messages in the order they are handled. -/
inductive Step
  | ask (request : Ask) (nowMs : UInt64) (opening : Opening) (failed : Option Errno)
  | readCancel
  | requestsCancel
  | attachLoop
  | detachLoop
  | expire (slot : Slot) (nowMs : UInt64)
  | timerReady (slot : Slot) (expired : Bool)
  | receive (message : Message) (memory send : Bool)
  | pairBegin (address : Text) (failed : Option Errno)
  | pairPoll
  | pairCancel (memory send : Bool)
  | agentRegister (registering : Central.Registering)
  | agentUnregister (memory : Bool)
  | submitPasskey (memory : Bool)
  | confirm (memory : Bool)
  | reject (memory : Bool)
  | connectBegin (address : Text) (failed : Option Errno)
  | connectEnd
  | findAdapter (reply : Option TreeReply) (memory : Bool)
  | list (reply : Option TreeReply) (memory : Bool)
  | discovering (send : Bool)
  | sendLogged
  | close (memory : Bool)

def Step.run (c : Central) : Step → Central
  | .ask request nowMs opening failed => (c.ask request nowMs opening failed).2
  | .readCancel => { c with desk := c.desk.giveUp .read }
  | .requestsCancel => { c with desk := c.desk.requestsCancel }
  | .attachLoop => { c with desk := { c.desk with loop := true } }
  | .detachLoop => c.detachLoop
  | .expire slot nowMs => if c.opened then { c with desk := c.desk.expire slot nowMs } else c
  | .timerReady slot expired => { c with desk := c.desk.timerReady slot expired }
  | .receive message memory send => if c.opened then c.handleMessage message memory send else c
  | .pairBegin address failed => (c.pairBegin address failed).2
  | .pairPoll => { c with pairing := c.pairing.pairPoll.2 }
  | .pairCancel memory send => c.pairCancel memory send
  | .agentRegister registering => (c.agentRegister registering).2
  | .agentUnregister memory => { c with pairing := c.pairing.agentUnregister c.opened memory }
  | .submitPasskey memory => { c with pairing := (c.pairing.agentSubmitPasskey c.opened memory).2 }
  | .confirm memory => { c with pairing := (c.pairing.agentConfirm c.opened memory).2 }
  | .reject memory => { c with pairing := (c.pairing.agentReject c.opened memory).2 }
  | .connectBegin address failed => (c.connectBegin address failed).2
  -- `inkwell_ble_connect_poll` of a connect that is done, and `inkwell_ble_connect_cancel`
  | .connectEnd => { c with connect := {} }
  | .findAdapter reply memory => if c.opened then c.findAdapter reply memory else c
  -- and all else that looks something up in the copy
  | .list reply memory => if c.opened then c.objectsEnsure reply memory else c
  | .discovering send => if c.opened then c.discovering send else c
  | .sendLogged => if c.opened then c.sendLogged else c
  | .close memory => c.close memory

def run (c : Central) (steps : List Step) : Central := steps.foldl Step.run c

end Inkwell.Bluez
