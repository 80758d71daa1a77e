import Mathlib.Data.List.Infix
import Inkwell.Net.Mqtt.Lifecycle

namespace Inkwell.Mqtt
open List

theorem tails_cons_forall {p : List Event → Prop} (h : ∀ u ∈ t.tails, p u) (he : p (e :: t)) :
    ∀ u ∈ (e :: t).tails, p u := by
  intro u hu
  rw [tails_cons, mem_cons] at hu
  rcases hu with rfl | hu
  · exact he
  · exact h u hu

theorem enter_grows {c : Core} (h : t <:+ c.trace) : t <:+ (c.enter st).trace := by
  unfold Core.enter
  split
  · exact h
  · exact h.trans (suffix_cons _ _)

theorem failed_grows {c : Core} (h : t <:+ c.trace) : t <:+ (c.failed f).trace :=
  enter_grows (h.trans (suffix_append [_, _] c.trace))

theorem Send.grows (h : Send o t o' t') : t <:+ t' := by
  cases h with
  | accepted | blocked | refused => exact suffix_cons _ _
  | drained | compacted => exact suffix_rfl

theorem Prelude.grows (h : Prelude who c b) : c.trace <:+ b.trace := by
  cases h with
  | start _ onMessage => exact suffix_append [.attempted, .started onMessage] c.trace
  | retry _ h nowMs => exact suffix_append [.attempted, .retried nowMs] c.trace
  | resolved => exact suffix_rfl

theorem Pump.grows (h : Pump c c') : c.trace <:+ c'.trace := by
  cases h with
  | idle => exact suffix_rfl
  | subscribe | noRoom => exact suffix_append [_, _] c.trace

theorem Goodbye.grows (h : Goodbye c t) : c.trace <:+ t := by
  cases h with
  | silent => exact suffix_rfl
  | said => exact suffix_append [_, _] c.trace

theorem answered_grows (c : Core) : c.trace <:+ (c.answered n code).trace := by
  unfold Core.answered
  split
  · exact suffix_append [_, _, _] c.trace
  · exact suffix_append [_, _] c.trace

theorem Act.grows (h : Act who c c') : c.trace <:+ c'.trace := by
  cases h with
  | clock | moved => exact suffix_rfl
  | called | received | skipped | delivered | queued | ignored | cleared | shutdown =>
    exact suffix_cons _ _
  | send _ h => exact h.grows
  | failed => exact failed_grows suffix_rfl
  | connect h => exact enter_grows (h.grows.trans (suffix_cons _ _))
  | lookUp h => exact enter_grows h.grows
  | missed h => exact failed_grows h.grows
  | refused h => exact failed_grows (h.grows.trans (suffix_cons _ _))
  | secure | greet => exact enter_grows suffix_rfl
  | answered _ _ _ h => exact (answered_grows _).trans h.grows
  | addFilter _ _ _ _ _ h => exact h.grows
  | stopped h hg => exact enter_grows (hg.grows.trans (suffix_cons _ _))

theorem Steps.grows (h : Steps who c c') : c.trace <:+ c'.trace := by
  induction h with
  | refl => exact suffix_rfl
  | tail _ ha ih => exact ih.trans ha.grows

theorem accepted_grows (c : Core) : c.trace <:+ c.accepted.trace := enter_grows suffix_rfl

theorem Move.grows (h : Move c c') : c.trace <:+ c'.trace := by
  cases h with
  | act h => exact h.grows
  | accepted _ _ h _ hp =>
    exact (accepted_grows c).trans (h.grows.trans ((suffix_cons _ _).trans hp.grows))
  | replaced _ _ h => exact (accepted_grows c).trans h.grows

theorem Moves.grows (h : Moves c c') : c.trace <:+ c'.trace := by
  induction h with
  | refl => exact suffix_rfl
  | tail _ hm ih => exact ih.trans hm.grows

/-- What may not have happened by the end may not have happened before. -/
def Lasting (ok : List Event → Prop) : Prop := ∀ {t t'}, t <:+ t' → ok t' → ok t

theorem lasting_tails (p : List Event → Prop) : Lasting (fun t => ∀ u ∈ t.tails, p u) := by
  intro t _ hs hp u hu
  exact hp u ((mem_tails _ _).mpr (((mem_tails _ _).mp hu).trans hs))

theorem lasting_mem (p : Event → Prop) : Lasting (fun t => ∀ e ∈ t, p e) := by
  intro t _ hs hp e he
  exact hp e (hs.subset he)

/-- An invariant of what `who` does, in runs in which only `ok` things happen. -/
def Kept (who : Role) (ok : List Event → Prop) (inv : Core → Prop) : Prop :=
  ∀ {c c'}, Quiet c → inv c → Act who c c' → ok c'.trace → inv c'

theorem Steps.keeps (hl : Lasting ok) (hk : Kept who ok inv) (h : Steps who c c') (hq : Quiet c)
    (hi : inv c) (hok : ok c'.trace) : inv c' := by
  induction h with
  | refl => exact hi
  | tail hsteps ha ih =>
    have hi' := ih (hl ha.grows hok)
    have hq' := Steps.quiet hsteps hq
    exact hk hq' hi' ha hok

theorem Moves.keeps (hl : Lasting ok) (hk : Kept .reader ok inv)
    (haccepted : ∀ {c c₁ c'}, Quiet c → inv c → c.socket → c.state = .greeting →
      Calls c.accepted c₁ → c₁.generation = c.generation → Pump c₁.resubscribed c' →
      ok c'.trace → inv c')
    (hreplaced : ∀ {c c₁}, Quiet c → inv c → c.socket → c.state = .greeting →
      Calls c.accepted c₁ → c₁.generation ≠ c.generation → ok c₁.trace → inv c₁)
    (h : Moves c c') (hq : Quiet c) (hi : inv c) (hok : ok c'.trace) : inv c' := by
  induction h with
  | refl => exact hi
  | tail hmoves hm ih =>
    have hi' := ih (hl hm.grows hok)
    have hq' := Moves.quiet hmoves hq
    cases hm with
    | act ha => exact hk hq' hi' ha hok
    | accepted hs hg h hsame hp => exact haccepted hq' hi' hs hg h hsame hp hok
    | replaced hs hg h hnew => exact hreplaced hq' hi' hs hg h hnew hok

end Inkwell.Mqtt
