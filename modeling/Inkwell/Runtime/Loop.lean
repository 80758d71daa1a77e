import Mathlib.Data.List.FinRange
import Inkwell.Base.Errno

namespace Inkwell.Runtime

abbrev maxSources : Nat := 32

abbrev Slot := Fin maxSources
abbrev Mask := UInt32

def IN : Mask := 0x001
def OUT : Mask := 0x004
def ERR : Mask := 0x008
def HUP : Mask := 0x010

/-- One entry of the table; `callback` stands for the function with its userdata. -/
structure Source (κ : Type) where
  fd : Int := 0
  events : Mask := 0
  callback : Option κ := none
  active : Bool := false

inductive Backend
  | epoll | kqueue
  deriving DecidableEq

inductive Filter
  | read | write
  deriving DecidableEq

def Filter.bit : Filter → Mask
  | .read => IN
  | .write => OUT

def wants (events : Mask) (f : Filter) : Bool := events &&& f.bit != 0

/-- Epoll has one for a descriptor and kqueue one for a descriptor and filter. -/
structure Interest where
  fd : Int
  filter : Option Filter
  events : Mask
  slot : Slot
  deriving DecidableEq

/-- The poll set, and what the kernel answers to the next calls on it. -/
structure Kernel where
  interest : List Interest := []
  answers : List (Option Errno) := []

def Kernel.holds (k : Kernel) (fd : Int) (filter : Option Filter) : Bool :=
  k.interest.any fun i => i.fd == fd && i.filter == filter

def Kernel.drop (k : Kernel) (fd : Int) (filter : Option Filter) : List Interest :=
  k.interest.filter fun i => !(i.fd == fd && i.filter == filter)

def Kernel.answer (k : Kernel) : Option Errno × Kernel :=
  (k.answers.head?.join, { k with answers := k.answers.tail })

inductive EpollOp
  | add | mod | del
  deriving DecidableEq

def epollCtl (k : Kernel) (op : EpollOp) (fd : Int) (events : Mask) (slot : Slot) :
    Option Errno × Kernel :=
  match k.answer with
  | (some e, k) => (some e, k)
  | (none, k) =>
    match op, k.holds fd none with
    | .add, true => (some .eexist, k)
    | .add, false => (none, { k with interest := ⟨fd, none, events, slot⟩ :: k.interest })
    | .mod, true => (none, { k with interest := ⟨fd, none, events, slot⟩ :: k.drop fd none })
    | .del, true => (none, { k with interest := k.drop fd none })
    | _, false => (some .enoent, k)

def kqueueChange (k : Kernel) (fd : Int) (filter : Filter) (add : Bool) (slot : Slot) :
    Option Errno × Kernel :=
  match k.answer with
  | (some e, k) => (some e, k)
  | (none, k) =>
    if add then
      (none, { k with interest := ⟨fd, some filter, filter.bit, slot⟩ :: k.drop fd (some filter) })
    else if k.holds fd (some filter) then
      (none, { k with interest := k.drop fd (some filter) })
    else (some .enoent, k)

/-- Changes each filter whose wanted state differs, undoing those `applied` when one fails. -/
def kqueueApplyFrom (fd : Int) (slot : Slot) (was now : Mask) (applied : List Filter) :
    List Filter → Kernel → Option Errno × Kernel
  | [], k => (none, k)
  | f :: fs, k =>
    if wants was f = wants now f then kqueueApplyFrom fd slot was now applied fs k
    else
      match kqueueChange k fd f (wants now f) slot with
      | (some e, k) =>
        (some e, applied.foldl (fun k f => (kqueueChange k fd f (wants was f) slot).2) k)
      | (none, k) => kqueueApplyFrom fd slot was now (applied ++ [f]) fs k

def kqueueApply (k : Kernel) (fd : Int) (slot : Slot) (was now : Mask) : Option Errno × Kernel :=
  kqueueApplyFrom fd slot was now [] [.read, .write] k

def backendAdd (b : Backend) (k : Kernel) (s : Source κ) (slot : Slot) : Option Errno × Kernel :=
  match b with
  | .epoll => epollCtl k .add s.fd s.events slot
  | .kqueue => kqueueApply k s.fd slot 0 s.events

def backendUpdate (b : Backend) (k : Kernel) (s : Source κ) (slot : Slot) (was : Mask) :
    Option Errno × Kernel :=
  match b with
  | .epoll => epollCtl k .mod s.fd s.events slot
  | .kqueue => kqueueApply k s.fd slot was s.events

def backendRemove (b : Backend) (k : Kernel) (s : Source κ) (slot : Slot) : Option Errno × Kernel :=
  match b with
  | .epoll => epollCtl k .del s.fd s.events slot
  | .kqueue => (none, (kqueueApply k s.fd slot s.events 0).2)

inductive TableOp
  | filled (slot : Slot) (fd : Int)
  | freed (slot : Slot)
  deriving DecidableEq

/-- `history` lists what was done to the table, newest first; the code keeps no such list. -/
structure Loop (κ : Type) where
  sources : Slot → Source κ := fun _ => {}
  kernel : Kernel := {}
  history : List TableOp := []

def findSourceIndex (l : Loop κ) (fd : Int) : Option Slot :=
  (List.finRange maxSources).find? fun i => (l.sources i).active && (l.sources i).fd == fd

def freeSlot (l : Loop κ) : Option Slot :=
  (List.finRange maxSources).find? fun i => !(l.sources i).active

def Loop.set (l : Loop κ) (slot : Slot) (s : Source κ) : Loop κ :=
  { l with sources := Function.update l.sources slot s }

/-- `inkwell_loop_add_fd`. A refused source stays written in its slot, which is not active. -/
def addFd (b : Backend) (l : Loop κ) (fd : Int) (events : Mask) (callback : Option κ) :
    Option Errno × Loop κ :=
  if fd < 0 || callback.isNone then (some .einval, l)
  else if (findSourceIndex l fd).isSome then (some .eexist, l)
  else
    match freeSlot l with
    | none => (some .enospc, l)
    | some slot =>
      let s : Source κ := { fd, events, callback, active := true }
      match backendAdd b l.kernel s slot with
      | (some e, k) => (some e, { l.set slot { s with active := false } with kernel := k })
      | (none, k) =>
        (none, { l.set slot s with kernel := k, history := .filled slot fd :: l.history })

def updateFd (b : Backend) (l : Loop κ) (fd : Int) (events : Mask) : Option Errno × Loop κ :=
  match findSourceIndex l fd with
  | none => (some .enoent, l)
  | some slot =>
    let s := l.sources slot
    match backendUpdate b l.kernel { s with events } slot s.events with
    | (some e, k) => (some e, { l with kernel := k })
    | (none, k) => (none, { l.set slot { s with events } with kernel := k })

def removeFd (b : Backend) (l : Loop κ) (fd : Int) : Option Errno × Loop κ :=
  match findSourceIndex l fd with
  | none => (some .enoent, l)
  | some slot =>
    match backendRemove b l.kernel (l.sources slot) slot with
    | (some e, k) => (some e, { l with kernel := k })
    | (none, k) =>
      (none, { l.set slot { fd := -1 } with
        kernel := k, history := .freed slot :: l.history })

inductive LoopCall (κ : Type)
  | addFd (fd : Int) (events : Mask) (callback : Option κ)
  | updateFd (fd : Int) (events : Mask)
  | removeFd (fd : Int)

def LoopCall.run (b : Backend) (l : Loop κ) : LoopCall κ → Loop κ
  | .addFd fd events callback => (Runtime.addFd b l fd events callback).2
  | .updateFd fd events => (Runtime.updateFd b l fd events).2
  | .removeFd fd => (Runtime.removeFd b l fd).2

def runCalls (b : Backend) (l : Loop κ) (calls : List (LoopCall κ)) : Loop κ :=
  calls.foldl (LoopCall.run b) l

theorem freeSlot_inactive (h : freeSlot l = some slot) : (l.sources slot).active = false := by
  have hs := List.find?_some h
  simpa using hs

theorem findSourceIndex_active (h : findSourceIndex l fd = some slot) :
    (l.sources slot).active ∧ (l.sources slot).fd = fd := by
  have hs := List.find?_some h
  simpa using hs

@[simp] theorem Loop.set_same (l : Loop κ) : (l.set slot s).sources slot = s := by simp [Loop.set]

theorem Loop.set_other (l : Loop κ) (h : i ≠ slot) : (l.set slot s).sources i = l.sources i := by
  simp [Loop.set, h]

inductive TableStep (l l' : Loop κ) : Prop
  | kept (hs : ∀ i, (l'.sources i).active = (l.sources i).active ∧
        ((l.sources i).active → (l'.sources i).fd = (l.sources i).fd))
      (hh : l'.history = l.history)
  | filled (slot : Slot) (fd : Int) (hfree : (l.sources slot).active = false)
      (hs : (l'.sources slot).active ∧ (l'.sources slot).fd = fd)
      (ho : ∀ i ≠ slot, l'.sources i = l.sources i)
      (hh : l'.history = .filled slot fd :: l.history)
  | freed (slot : Slot) (hheld : (l.sources slot).active)
      (hs : (l'.sources slot).active = false)
      (ho : ∀ i ≠ slot, l'.sources i = l.sources i)
      (hh : l'.history = .freed slot :: l.history)

theorem TableStep.same (h₁ : l'.sources = l.sources) (h₂ : l'.history = l.history) :
    TableStep l l' :=
  .kept (fun i => by simp [h₁]) h₂

theorem addFd_step : TableStep l (addFd b l fd events callback).2 := by
  unfold addFd
  iterate 3
    split
    · exact .same rfl rfl
  · rename_i slot hslot
    have hfree := freeSlot_inactive hslot
    simp only
    split
    · refine .kept (fun i => ?_) rfl
      by_cases hi : i = slot
      · subst hi
        simp [hfree]
      · simp [Loop.set_other _ hi]
    · exact .filled slot fd hfree (by simp) (fun i hi => Loop.set_other _ hi) rfl

theorem updateFd_step : TableStep l (updateFd b l fd events).2 := by
  unfold updateFd
  split
  · exact .same rfl rfl
  · rename_i slot _
    simp only
    split
    · exact .same rfl rfl
    · refine .kept (fun i => ?_) rfl
      by_cases hi : i = slot
      · subst hi
        simp
      · simp [Loop.set_other _ hi]

theorem removeFd_step : TableStep l (removeFd b l fd).2 := by
  unfold removeFd
  split
  · exact .same rfl rfl
  · rename_i slot hslot
    split
    · exact .same rfl rfl
    · exact .freed slot (findSourceIndex_active hslot).1 (by simp)
        (fun i hi => Loop.set_other _ hi) rfl

theorem LoopCall.step (c : LoopCall κ) : TableStep l (c.run b l) := by
  cases c with
  | addFd => exact addFd_step
  | updateFd => exact updateFd_step
  | removeFd => exact removeFd_step

end Inkwell.Runtime
