import Inkwell.Runtime.Loop

namespace Inkwell.Runtime

/-- The slot the kernel handed back, the descriptor and the events; epoll hands back no
descriptor. -/
structure Ready where
  source : Option Slot
  fd : Int
  mask : Mask
  deriving DecidableEq

/-- A callback made in a batch, with how often its slot had been filled by then. -/
structure Called (κ : Type) where
  slot : Slot
  fd : Int
  mask : Mask
  callback : Option κ
  fills : Nat

/-- How often the slot has been filled, so which registration it holds. -/
def Loop.fills (l : Loop κ) (slot : Slot) : Nat :=
  l.history.countP fun op => match op with
    | .filled s _ => s == slot
    | .freed _ => false

/-- The loop, the callbacks made, and the calls that the next ones are going to make on the loop. -/
structure Batch (κ : Type) where
  loop : Loop κ
  called : List (Called κ) := []
  scripts : List (List (LoopCall κ))

def dispatchOne (b : Backend) (takes : Source κ → Ready → Bool) (s : Batch κ) (e : Ready) :
    Batch κ :=
  match e.source with
  | none => s
  | some slot =>
    let source := s.loop.sources slot
    if takes source e then
      { loop := runCalls b s.loop (s.scripts.headD [])
        called := s.called ++ [⟨slot, source.fd, e.mask, source.callback, s.loop.fills slot⟩]
        scripts := s.scripts.tail }
    else s

def dispatchAll (b : Backend) (takes : Source κ → Ready → Bool) (s : Batch κ)
    (batch : List Ready) : Batch κ :=
  batch.foldl (dispatchOne b takes) s

def epollTakes (s : Source κ) (_ : Ready) : Bool := s.active

def kqueueTakes (s : Source κ) (e : Ready) : Bool := s.active && s.fd == e.fd

structure Kevent where
  udata : Option Slot
  ident : Int
  filter : Option Filter
  error : Bool
  eof : Bool
  fflags : Nat
  data : Int

def kqueueMask (e : Kevent) : Mask :=
  if e.error then ERR
  else
    let error := if e.eof && e.fflags != 0 then ERR else 0
    match e.filter with
    | some .read => IN ||| error ||| (if e.eof && e.data == 0 then HUP else 0)
    | some .write => if e.eof then OUT ||| (HUP ||| error) else OUT
    | none => 0

def mergeEvent (slot : Slot) (e : Kevent) : List Ready → List Ready
  | [] => [⟨some slot, e.ident, kqueueMask e⟩]
  | r :: rs =>
    if r.source = some slot then { r with mask := r.mask ||| kqueueMask e } :: rs
    else r :: mergeEvent slot e rs

def kqueueMerge (events : List Kevent) : List Ready :=
  events.foldl (fun ready e => match e.udata with
    | none => ready
    | some slot => mergeEvent slot e ready) []

inductive Wait
  | epoll (events : List Ready)
  | kqueue (events : List Kevent)

def Wait.backend : Wait → Backend
  | .epoll _ => .epoll
  | .kqueue _ => .kqueue

def Wait.ready : Wait → List Ready
  | .epoll events => events
  | .kqueue events => kqueueMerge events

def Wait.takes (w : Wait) : Source κ → Ready → Bool :=
  match w with
  | .epoll _ => epollTakes
  | .kqueue _ => kqueueTakes

/-- `backend_dispatch` after its wait, `upTo` of the ready sources dispatched. -/
def dispatchUpTo (w : Wait) (l : Loop κ) (scripts : List (List (LoopCall κ))) (upTo : Nat) :
    Batch κ :=
  dispatchAll w.backend w.takes { loop := l, scripts } (w.ready.take upTo)

def backendDispatch (w : Wait) (l : Loop κ) (scripts : List (List (LoopCall κ))) : Batch κ :=
  dispatchUpTo w l scripts w.ready.length

/-- The descriptor that operations on the table, newest first, left in a slot they filled. -/
def refill (slot : Slot) : List TableOp → Option Int
  | [] => none
  | .filled s fd :: ops => if s = slot then some fd else refill slot ops
  | .freed s :: ops => if s = slot then none else refill slot ops

def opsSince (l l' : Loop κ) : List TableOp :=
  l'.history.take (l'.history.length - l.history.length)

/-- The slot holds a younger registration that the dispatch does not tell from the one the event
is about. -/
def Mistaken (w : Wait) (e : Ready) (refilled : Option Int) : Prop :=
  match w with
  | .epoll _ => refilled.isSome
  | .kqueue _ => refilled = some e.fd

structure Evolves (l l' : Loop κ) (ops : List TableOp) : Prop where
  history : l'.history = ops ++ l.history
  refilled : ∀ slot fd, refill slot ops = some fd →
    (l'.sources slot).active ∧ (l'.sources slot).fd = fd ∧ l.fills slot < l'.fills slot
  kept : ∀ slot, refill slot ops = none → (l'.sources slot).active → l'.fills slot = l.fills slot

theorem fills_filled_same (h : l'.history = .filled slot fd :: l.history) :
    Loop.fills l' slot = Loop.fills l slot + 1 := by
  simp [Loop.fills, h]

theorem fills_filled_other (h : l'.history = .filled s fd :: l.history) (hi : slot ≠ s) :
    Loop.fills l' slot = Loop.fills l slot := by
  have hs : (s == slot) = false := by simpa using Ne.symm hi
  simp [Loop.fills, h, hs]

theorem fills_freed (h : l'.history = .freed s :: l.history) :
    Loop.fills l' slot = Loop.fills l slot := by
  simp [Loop.fills, h]

theorem fills_same (h : l'.history = l.history) : Loop.fills l' slot = Loop.fills l slot := by
  simp [Loop.fills, h]

theorem Evolves.refl : Evolves l l [] where
  history := rfl
  refilled slot fd h := by cases h
  kept _ _ _ := rfl

theorem Evolves.step (h : Evolves l l' ops) (ht : TableStep l' l'') :
    ∃ ops', Evolves l l'' ops' := by
  cases ht with
  | kept hs hh =>
    refine ⟨ops, hh.trans h.history, ?_, ?_⟩
    · intro slot fd hr
      obtain ⟨hact, hfd, hlt⟩ := h.refilled slot fd hr
      obtain ⟨hactive, hsame⟩ := hs slot
      rw [fills_same hh]
      exact ⟨hactive.trans hact, (hsame hact).trans hfd, hlt⟩
    · intro slot hr hact
      rw [fills_same hh]
      exact h.kept slot hr ((hs slot).1.symm.trans hact)
  | filled s fd _ hs ho hh =>
    refine ⟨.filled s fd :: ops, by rw [hh, h.history]; rfl, ?_, ?_⟩
    · intro slot fd' hr
      by_cases hi : s = slot
      · subst hi
        rw [refill, if_pos rfl] at hr
        cases hr
        refine ⟨hs.1, hs.2, ?_⟩
        rw [fills_filled_same hh]
        have hle : l.fills s ≤ l'.fills s := by
          unfold Loop.fills
          rw [h.history, List.countP_append]
          exact Nat.le_add_left _ _
        exact Nat.lt_succ_of_le hle
      · rw [refill, if_neg hi] at hr
        rw [fills_filled_other hh (Ne.symm hi), ho slot (Ne.symm hi)]
        exact h.refilled slot fd' hr
    · intro slot hr hact
      have hi : s ≠ slot := by
        intro hi
        rw [refill, if_pos hi] at hr
        cases hr
      rw [refill, if_neg hi] at hr
      rw [ho slot hi.symm] at hact
      rw [fills_filled_other hh hi.symm]
      exact h.kept slot hr hact
  | freed s _ hs ho hh =>
    refine ⟨.freed s :: ops, by rw [hh, h.history]; rfl, ?_, ?_⟩
    · intro slot fd hr
      have hi : s ≠ slot := by
        intro hi
        rw [refill, if_pos hi] at hr
        cases hr
      rw [refill, if_neg hi] at hr
      rw [fills_freed hh, ho slot hi.symm]
      exact h.refilled slot fd hr
    · intro slot hr hact
      have hi : s ≠ slot := by
        intro hi
        subst hi
        rw [hs] at hact
        cases hact
      rw [refill, if_neg hi] at hr
      rw [ho slot hi.symm] at hact
      rw [fills_freed hh]
      exact h.kept slot hr hact

theorem Evolves.runCalls (h : Evolves l l' ops) : ∃ ops', Evolves l (runCalls b l' calls) ops' := by
  induction calls generalizing l' ops with
  | nil => exact ⟨ops, h⟩
  | cons c _ ih =>
    obtain ⟨_, h₁⟩ := h.step c.step
    exact ih h₁

theorem Evolves.dispatchOne (h : Evolves l s.loop ops) :
    ∃ ops', Evolves l (dispatchOne b takes s e).loop ops' := by
  unfold Runtime.dispatchOne
  split
  · exact ⟨ops, h⟩
  · simp only
    split
    · exact h.runCalls
    · exact ⟨ops, h⟩

theorem dispatchUpTo_succ (l : Loop κ) (scripts : List (List (LoopCall κ)))
    (h : w.ready[n]? = some e) : dispatchUpTo w l scripts (n + 1) =
      dispatchOne w.backend w.takes (dispatchUpTo w l scripts n) e := by
  unfold dispatchUpTo dispatchAll
  rw [List.take_add_one, h, Option.toList_some, List.foldl_append, List.foldl_cons, List.foldl_nil]

theorem dispatchUpTo_evolves : ∃ ops, Evolves l (dispatchUpTo w l scripts n).loop ops := by
  induction n with
  | zero => exact ⟨[], Evolves.refl⟩
  | succ n ih =>
    obtain ⟨ops, h⟩ := ih
    cases he : w.ready[n]? with
    | none =>
      have hn : w.ready.length ≤ n := List.getElem?_eq_none_iff.mp he
      have hsame : dispatchUpTo w l scripts (n + 1) = dispatchUpTo w l scripts n := by
        unfold dispatchUpTo
        rw [List.take_of_length_le hn, List.take_of_length_le (Nat.le_succ_of_le hn)]
      rw [hsame]
      exact ⟨ops, h⟩
    | some =>
      rw [dispatchUpTo_succ l scripts he]
      exact h.dispatchOne

theorem Evolves.opsSince (h : Evolves l l' ops) : opsSince l l' = ops := by
  unfold Runtime.opsSince
  rw [h.history, List.length_append, Nat.add_sub_cancel, List.take_left]

/-- A slot is called for a registration it did not hold at the wait exactly when the dispatch
mistakes its refill. -/
theorem takes_own_iff (h : Evolves l l' ops) (w : Wait) (e : Ready)
    (slot : Slot) : (w.takes (l'.sources slot) e → l'.fills slot = l.fills slot) ↔
      ¬ Mistaken w e (refill slot ops) := by
  cases hr : refill slot ops with
  | none =>
    have hkept := h.kept slot hr
    cases w with
    | epoll => simpa [Wait.takes, epollTakes, Mistaken] using hkept
    | kqueue =>
      simp only [Wait.takes, kqueueTakes, Mistaken, Bool.and_eq_true, reduceCtorEq,
        not_false_eq_true, iff_true]
      exact fun ht => hkept ht.1
  | some fd =>
    obtain ⟨hact, hfd, hlt⟩ := h.refilled slot fd hr
    have hne : l'.fills slot ≠ l.fills slot := ne_of_gt hlt
    cases w with
    | epoll => simp [Wait.takes, epollTakes, Mistaken, hact, hne]
    | kqueue => simp [Wait.takes, kqueueTakes, Mistaken, hact, hfd, hne]

theorem dispatchUpTo_own_iff (hn : n ≤ w.ready.length) :
    (∀ c ∈ (dispatchUpTo w l scripts n).called, c.fills = l.fills c.slot) ↔
      ∀ m < n, ∀ e slot, w.ready[m]? = some e → e.source = some slot →
        ¬ Mistaken w e (refill slot (opsSince l (dispatchUpTo w l scripts m).loop)) := by
  induction n with
  | zero => simp [dispatchUpTo, dispatchAll]
  | succ n ih =>
    have he : w.ready[n]? = some w.ready[n] := List.getElem?_eq_getElem hn
    have hstep := dispatchUpTo_succ l scripts he
    obtain ⟨_, hev⟩ := dispatchUpTo_evolves
    have hnew : (∀ c ∈ (dispatchUpTo w l scripts (n + 1)).called, c.fills = l.fills c.slot) ↔
        (∀ c ∈ (dispatchUpTo w l scripts n).called, c.fills = l.fills c.slot) ∧
        ∀ slot, w.ready[n].source = some slot →
          ¬ Mistaken w w.ready[n]
            (refill slot (opsSince l (dispatchUpTo w l scripts n).loop)) := by
      rw [hstep, hev.opsSince]
      unfold dispatchOne
      cases hs : w.ready[n].source with
      | none => simp
      | some slot =>
        have hown := takes_own_iff hev w w.ready[n] slot
        simp only [Option.some.injEq, forall_eq']
        rw [← hown]
        split
        · rename_i ht
          simp [ht, or_imp, forall_and]
        · rename_i ht
          simp [ht]
    rw [hnew, ih (Nat.le_of_succ_le hn)]
    constructor
    · rintro ⟨hold, hlast⟩ m hm e slot hme hsource
      rcases Nat.lt_succ_iff_lt_or_eq.mp hm with hlt | heq
      · exact hold m hlt e slot hme hsource
      · subst heq
        rw [he] at hme
        cases hme
        exact hlast slot hsource
    · intro hall
      refine ⟨fun m hm => hall m (Nat.lt_succ_of_lt hm), fun slot hsource => ?_⟩
      exact hall n (Nat.lt_succ_self n) _ slot he hsource

/-- Each callback of a batch is for the registration its event was reported for exactly when its
slot was not filled again since the wait: at all under epoll, and with the same descriptor under
kqueue. -/
theorem backendDispatch_own_iff (w : Wait) (l : Loop κ) (scripts : List (List (LoopCall κ))) :
    (∀ c ∈ (backendDispatch w l scripts).called, c.fills = l.fills c.slot) ↔
      ∀ n e slot, w.ready[n]? = some e → e.source = some slot →
        ¬ Mistaken w e (refill slot (opsSince l (dispatchUpTo w l scripts n).loop)) := by
  refine (dispatchUpTo_own_iff (le_rfl)).trans ?_
  constructor
  · intro h n e slot he hs
    obtain ⟨hn, _⟩ := List.getElem?_eq_some_iff.mp he
    exact h n hn e slot he hs
  · intro h n _ e slot he hs
    exact h n e slot he hs

def threeSources (b : Backend) : Loop Nat :=
  runCalls b {} [.addFd 3 IN (some 3), .addFd 4 IN (some 4), .addFd 5 IN (some 5)]

/-- The first callback gives slot 2 to another registration, which epoll then calls with the event
of descriptor 5, and kqueue if the descriptor has the old number. -/
theorem refilled_slot_called :
    (∃ c ∈ (backendDispatch (.epoll [⟨some 1, 4, IN⟩, ⟨some 2, 5, IN⟩]) (threeSources .epoll)
        [[.removeFd 5, .addFd 6 IN (some 6)]]).called,
      c.slot = 2 ∧ c.fd = 6 ∧ c.callback = some 6 ∧ c.fills ≠ (threeSources .epoll).fills 2) ∧
    ∃ c ∈ (backendDispatch (.kqueue [⟨some 1, 4, some .read, false, false, 0, 1⟩,
        ⟨some 2, 5, some .read, false, false, 0, 1⟩]) (threeSources .kqueue)
        [[.removeFd 5, .addFd 5 IN (some 6)]]).called,
      c.slot = 2 ∧ c.fd = 5 ∧ c.callback = some 6 ∧ c.fills ≠ (threeSources .kqueue).fills 2 := by
  decide

end Inkwell.Runtime
