import Mathlib.Data.List.Nodup
import Inkwell.Net.Stream.Conservation

namespace Inkwell.Streams
open Library List

def handedOver (trace : List Event) : List Letter := trace.filterMap Event.handed?
def refused (trace : List Event) : List Letter := trace.filterMap Event.refused?
def finished (trace : List Event) : List Letter := trace.filterMap Event.finished?
def reported (trace : List Event) : List Letter := trace.filterMap Event.reported?
def discarded (trace : List Event) : List Letter := trace.filterMap Event.discarded?

/-- How often a letter has been answered for: refused, sent whole, or reported as dropped. -/
def verdicts (trace : List Event) (l : Letter) : Nat :=
  (refused trace).count l + (finished trace).count l + (reported trace).count l

def Balanced (q : List Frame) (trace : List Event) : Prop :=
  ∀ l, (handedOver trace).count l =
    verdicts trace l + (discarded trace).count l + (q.map Frame.letter).count l

theorem verdicts_append (trace events : List Event) (l : Letter) :
    verdicts (trace ++ events) l = verdicts trace l + verdicts events l := by
  simp only [verdicts, refused, finished, reported, filterMap_append, count_append]
  omega

theorem Balanced.append (h : Balanced q trace)
    (hevents : ∀ l, (handedOver events).count l + (q.map Frame.letter).count l =
      verdicts events l + (discarded events).count l + (q'.map Frame.letter).count l) :
    Balanced q' (trace ++ events) := by
  intro l
  have hbefore := h l
  have hstep := hevents l
  rw [verdicts_append]
  simp only [handedOver, discarded, filterMap_append, count_append] at hbefore hstep ⊢
  omega

theorem drain_letters (writes : Writes) (q : List Frame) :
    q.map Frame.letter = finished (drain writes q).events ++
      (drain writes q).queue.map Frame.letter := by
  fun_induction drain writes q with
  | case1 | case2 | case3 | case5 | case6 => rfl
  | case4 _ _ _ _ ih => exact ih
  | case7 _ _ _ _ _ _ _ ih =>
    rw [map_cons, ih]
    rfl

theorem drain_verdicts (writes : Writes) (q : List Frame) (l : Letter) :
    (q.map Frame.letter).count l =
      verdicts (drain writes q).events l + ((drain writes q).queue.map Frame.letter).count l := by
  have hrefused := filterMap_drain Event.refused? (fun _ => rfl) (fun _ => rfl) writes q
  have hreported := filterMap_drain Event.reported? (fun _ => rfl) (fun _ => rfl) writes q
  rw [drain_letters writes q, count_append, verdicts, refused, hrefused, reported, hreported]
  simp

theorem dropped_verdicts (q : List Frame) (answered : Bool) (l : Letter) :
    (q.map Frame.letter).count l =
      verdicts (q.map fun f => dropEvent answered f.letter) l +
        (discarded (q.map fun f => dropEvent answered f.letter)).count l := by
  induction q with
  | nil => rfl
  | cons f q ih =>
    have hone : [f.letter].count l = verdicts [dropEvent answered f.letter] l +
        (discarded [dropEvent answered f.letter]).count l := by
      unfold dropEvent
      split <;> simp [verdicts, refused, finished, reported, discarded, filterMap_cons,
        Event.refused?, Event.finished?, Event.reported?, Event.discarded?]
    rw [map_cons, map_cons, ← singleton_append, count_append, hone, ih,
      ← singleton_append (l := List.map _ q), verdicts_append, discarded, discarded,
      discarded, filterMap_append, count_append]
    omega

theorem dropped_nameless (q : List Frame) :
    ∀ l ∈ discarded (q.map fun f => dropEvent true f.letter), l.id = 0 := by
  intro l hl
  obtain ⟨_, he, hpick⟩ := mem_filterMap.mp hl
  obtain ⟨_, -, rfl⟩ := mem_map.mp he
  unfold dropEvent at hpick
  split at hpick
  · cases hpick
  · rename_i hname
    cases hpick
    simpa using hname

structure Answered (line : Line) : Prop where
  balanced : Balanced line.queue line.trace
  numbered : Numbered (handedOver line.trace) line.sends
  nameless : ∀ l ∈ discarded line.trace, l.id = 0
  closed : line.isOpen = false → line.queue = []

theorem Answered.append (h : Answered line)
    (hbalance : ∀ l, (handedOver events).count l + (line.queue.map Frame.letter).count l =
      verdicts events l + (discarded events).count l + (q.map Frame.letter).count l)
    (hnumbered : Numbered (handedOver line.trace ++ handedOver events) sends)
    (hnameless : ∀ l ∈ discarded events, l.id = 0) (hclosed : isOpen = false → q = []) :
    Answered ⟨isOpen, sends, q, line.trace ++ events⟩ := by
  refine ⟨h.balanced.append hbalance, ?_, ?_, hclosed⟩
  · rwa [handedOver, filterMap_append]
  · intro l hl
    rw [discarded, filterMap_append, mem_append] at hl
    rcases hl with hl | hl
    · exact h.nameless l hl
    · exact hnameless l hl

theorem Answered.quiet (h : Answered line)
    (hnone : ∀ e ∈ events, e.handed? = none ∧ e.refused? = none ∧ e.finished? = none ∧
      e.reported? = none ∧ e.discarded? = none) :
    Answered { line with trace := line.trace ++ events } := by
  have hhanded : handedOver events = [] := filterMap_eq_nil_iff.mpr fun e he => (hnone e he).1
  have hrefused : refused events = [] := filterMap_eq_nil_iff.mpr fun e he => (hnone e he).2.1
  have hfinished : finished events = [] := filterMap_eq_nil_iff.mpr fun e he => (hnone e he).2.2.1
  have hreported : reported events = [] := filterMap_eq_nil_iff.mpr fun e he => (hnone e he).2.2.2.1
  have hdiscarded : discarded events = [] :=
    filterMap_eq_nil_iff.mpr fun e he => (hnone e he).2.2.2.2
  apply h.append
  · simp [verdicts, hhanded, hrefused, hfinished, hreported, hdiscarded]
  · rw [hhanded, append_nil]
    exact h.numbered
  · rw [hdiscarded]
    nofun
  · exact h.closed

theorem drain_quiet :
    handedOver (drain writes q).events = [] ∧ discarded (drain writes q).events = [] :=
  ⟨filterMap_drain _ (fun _ => rfl) (fun _ => rfl) ..,
    filterMap_drain _ (fun _ => rfl) (fun _ => rfl) ..⟩

theorem Answered.after (h : Answered line) (hfits : deed.Fits line) (hsound : deed.Sound line) :
    Answered (line.after deed) := by
  cases deed with
  | receive =>
    apply h.quiet
    intro e he
    obtain ⟨_, -, rfl⟩ := mem_map.mp he
    exact ⟨rfl, rfl, rfl, rfl, rfl⟩
  | raw =>
    apply h.quiet
    intro e he
    cases mem_singleton.mp he
    exact ⟨rfl, rfl, rfl, rfl, rfl⟩
  | opens =>
    have hbalanced := h.balanced
    rw [h.closed hfits] at hbalanced
    exact ⟨hbalanced, h.numbered, h.nameless, fun _ => rfl⟩
  | refuse =>
    refine h.append ?_ (h.numbered.snoc hfits.1) (fun _ hl => by cases hl) h.closed
    simp [handedOver, verdicts, refused, finished, reported, discarded, filterMap_cons,
      Event.handed?, Event.refused?, Event.finished?, Event.reported?, Event.discarded?]
  | send letter writes =>
    obtain ⟨hhanded, hdiscarded⟩ := drain_quiet
    have hresult : (drain writes (line.queue ++ [⟨letter, 0⟩])).result = .ok () := hsound
    have htaken : Line.after line (.send letter writes) =
        ⟨line.isOpen, line.sends + 1, (drain writes (line.queue ++ [⟨letter, 0⟩])).queue,
          line.trace ++ ([.handed letter, .queued letter] ++
            (drain writes (line.queue ++ [⟨letter, 0⟩])).events)⟩ := by
      simp [Line.after, hresult, failure]
    have hnew : handedOver ([.handed letter, .queued letter] ++
        (drain writes (line.queue ++ [⟨letter, 0⟩])).events) = [letter] := by
      rw [handedOver, filterMap_append]
      rw [handedOver] at hhanded
      rw [hhanded]
      rfl
    have hkept : discarded ([.handed letter, .queued letter] ++
        (drain writes (line.queue ++ [⟨letter, 0⟩])).events) = [] := by
      rw [discarded, filterMap_append]
      rw [discarded] at hdiscarded
      rw [hdiscarded]
      rfl
    rw [htaken]
    apply h.append
    · intro l
      have hdrain := drain_verdicts writes (line.queue ++ [⟨letter, 0⟩]) l
      rw [map_append, count_append] at hdrain
      rw [hnew, hkept, verdicts_append]
      have hnone : verdicts [.handed letter, .queued letter] l = 0 := rfl
      simp only [map_cons, map_nil] at hdrain
      rw [hnone, count_nil]
      omega
    · rw [hnew]
      exact h.numbered.snoc hfits.1
    · rw [hkept]
      simp
    · intro hclosed
      rw [hfits.2] at hclosed
      cases hclosed
  | flush writes =>
    obtain ⟨hhanded, hdiscarded⟩ := drain_quiet
    apply h.append
    · intro l
      rw [hhanded, hdiscarded, drain_verdicts writes line.queue l]
      simp
    · rw [hhanded, append_nil]
      exact h.numbered
    · rw [hdiscarded]
      simp
    · intro hclosed
      rw [show line.isOpen = true from hfits] at hclosed
      cases hclosed
  | close =>
    cases hsound
    have hhanded : handedOver (line.queue.map fun f => dropEvent true f.letter) = [] := by
      rw [handedOver, filterMap_eq_nil_iff]
      intro e he
      obtain ⟨_, -, rfl⟩ := mem_map.mp he
      unfold dropEvent
      split <;> rfl
    apply h.append
    · intro l
      rw [hhanded, dropped_verdicts line.queue true l]
      simp
    · rw [hhanded, append_nil]
      exact h.numbered
    · exact dropped_nameless line.queue
    · exact fun _ => rfl

def Steps (P : Site → Call → Prop) : Site → List Call → Prop
  | _, [] => True
  | site, call :: calls => P site call ∧ Steps P (call.run site) calls

end Inkwell.Streams
