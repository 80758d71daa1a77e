import Inkwell.Library.RefCount

namespace Inkwell.Winrt
open Library Function

/-! What the thread pool and the loop share. A completion or a listener is named by its number. -/

inductive Event
  | done (completion : Nat)
  | notify
  | answer
  deriving DecidableEq

def Event.completion : Event → Option Nat
  | .done c => some c
  | .notify => none
  | .answer => none

structure Hub where
  count : Counted := {}
  closed : Bool := false
  queue : List Event := []
  deriving DecidableEq

/-- What the loop thread is in the middle of. -/
inductive Frame
  /-- in `inkwell_ble_backend_process`, before the next event -/
  | process (events : List Event)
  /-- in what an event is applied by, which can be a callback -/
  | apply (event : Event) (events : List Event)
  /-- in `inkwell_ble_backend_close`, the hub being closed -/
  | close (events : List Event)
  /-- in `put_Completed` -/
  | startOp (completion : Nat)
  /-- in `add_Received` or `add_ValueChanged` -/
  | listen (listener : Nat)
  deriving DecidableEq

/-- A central from when it was opened. `system` and `systemListens` are the system's references on
each handler, and `invoking` the calls of `completion_invoke` that have not posted yet. -/
structure Site where
  hub : Hub := {}
  opened : Bool := true
  completions : Nat → Counted := fun _ => {}
  created : Nat := 0
  listeners : Nat → Counted := fun _ => {}
  listening : Nat := 0
  frames : List Frame := []
  system : Nat → Nat := fun _ => 0
  systemListens : Nat → Nat := fun _ => 0
  invoking : List Nat := []

namespace Site
variable (s : Site)

def hubRetain : Site := { s with hub := { s.hub with count := s.hub.count.retain } }

def hubRelease : Site := { s with hub := { s.hub with count := s.hub.count.release } }

def hubPost (event : Event) : Site :=
  if s.hub.closed then s else { s with hub := { s.hub with queue := s.hub.queue ++ [event] } }

def setCompletion (c : Nat) (count : Counted) : Site :=
  { s with completions := update s.completions c count }

def setListener (l : Nat) (count : Counted) : Site :=
  { s with listeners := update s.listeners l count }

def completionAddRef (c : Nat) : Site := s.setCompletion c (s.completions c).retain

def completionRelease (c : Nat) : Site :=
  let t := s.setCompletion c (s.completions c).release
  if (s.completions c).refs = 1 then t.hubRelease else t

def listenerAddRef (l : Nat) : Site := s.setListener l (s.listeners l).retain

def listenerRelease (l : Nat) : Site :=
  let t := s.setListener l (s.listeners l).release
  if (s.listeners l).refs = 1 then t.hubRelease else t

def eventRelease (event : Event) : Site :=
  match event.completion with
  | none => s
  | some c => s.completionRelease c

def push (frame : Frame) : Site := { s with frames := frame :: s.frames }

/-- `start_op` up to its call of `put_Completed`. -/
def startOp : Site :=
  push { (s.setCompletion s.created {}).hubRetain with created := s.created + 1 }
    (.startOp s.created)

/-- `listener_new`, and up to where the listener is registered. -/
def listen : Site :=
  push { (s.setListener s.listening {}).hubRetain with listening := s.listening + 1 }
    (.listen s.listening)

def takeQueue : Site := { s with hub := { s.hub with queue := [] } }

def process : Site := s.takeQueue.push (.process s.hub.queue)

def close : Site :=
  push { s with hub := { s.hub with queue := [], closed := true } } (.close s.hub.queue)

/-- Whether the loop thread may call into the backend. -/
def atLarge : Bool :=
  s.opened &&
    match s.frames with
    | [] => true
    | .apply _ _ :: _ => true
    | _ => false

def proceed : Site :=
  match s.frames with
  | [] => s
  | .process [] :: frames => { s with frames }
  | .process (event :: events) :: frames => { s with frames := .apply event events :: frames }
  | .apply event events :: frames =>
    eventRelease { s with frames := .process events :: frames } event
  | .close (event :: events) :: frames =>
    eventRelease { s with frames := .close events :: frames } event
  | .close [] :: frames => hubRelease { s with frames, opened := false }
  | .startOp c :: frames => completionRelease { s with frames } c
  | .listen l :: frames => listenerRelease { s with frames } l

def handing (frame : Frame) : Bool := s.frames.head? == some frame

end Site

/-- The steps of the loop thread, and those of the system on whatever thread. -/
inductive Step
  /-- the loop thread; the memory may not be there -/
  | startOp (memory : Bool)
  | listen (memory : Bool)
  | postAnswer (memory : Bool)
  | process
  | close
  | proceed
  /-- the system takes a reference on a handler, that it has or is handed -/
  | take (c : Nat)
  | takeListener (l : Nat)
  | release (c : Nat)
  | releaseListener (l : Nat)
  /-- `completion_invoke`, up to the reference it takes, and from there -/
  | invoke (c : Nat) (memory : Bool)
  | post (c : Nat)
  /-- `listener_invoke` with a value -/
  | notify (l : Nat) (memory : Bool)
  deriving DecidableEq

def Step.run (s : Site) : Step → Site
  | .startOp memory => if s.atLarge && memory then s.startOp else s
  | .listen memory => if s.atLarge && memory then s.listen else s
  | .postAnswer memory => if s.atLarge && memory then s.hubPost .answer else s
  | .process => if s.atLarge then s.process else s
  | .close => if s.atLarge then s.close else s
  | .proceed => s.proceed
  | .take c =>
    if 0 < s.system c || s.handing (.startOp c) then
      { s.completionAddRef c with system := update s.system c (s.system c + 1) }
    else s
  | .takeListener l =>
    if 0 < s.systemListens l || s.handing (.listen l) then
      { s.listenerAddRef l with
        systemListens := update s.systemListens l (s.systemListens l + 1) }
    else s
  | .release c =>
    if 0 < s.system c then
      Site.completionRelease { s with system := update s.system c (s.system c - 1) } c
    else s
  | .releaseListener l =>
    if 0 < s.systemListens l then
      Site.listenerRelease
        { s with systemListens := update s.systemListens l (s.systemListens l - 1) } l
    else s
  | .invoke c memory =>
    if 0 < s.system c && memory then { s.completionAddRef c with invoking := c :: s.invoking }
    else s
  | .post c =>
    if c ∈ s.invoking then Site.hubPost { s with invoking := s.invoking.erase c } (.done c) else s
  | .notify l memory => if 0 < s.systemListens l && memory then s.hubPost .notify else s

def run (s : Site) (steps : List Step) : Site := steps.foldl Step.run s

end Inkwell.Winrt
