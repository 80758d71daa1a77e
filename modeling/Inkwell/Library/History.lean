import Mathlib.Data.List.TakeWhile

namespace Inkwell.Library
open List

/-- Every event of a history, newest first, was as `P` says, given what came before it. -/
def Always (P : α → List α → Prop) (t : List α) : Prop := ∀ e before, e :: before <:+ t → P e before

theorem Always.nil : Always P [] := by
  intro e _ h
  cases suffix_nil.mp h

theorem Always.cons (h : Always P t) (he : P e t) : Always P (e :: t) := by
  intro e' before hbefore
  rcases suffix_cons_iff.mp hbefore with heq | hold
  · cases heq
    exact he
  · exact h e' before hold

theorem Always.suffix (h : Always P t) (ht : t' <:+ t) : Always P t' :=
  fun e before hsuffix => h e before (hsuffix.trans ht)

theorem Always.head (h : Always P (e :: t)) : P e t := h e t suffix_rfl

theorem Always.tail (h : Always P (e :: t)) : Always P t := h.suffix (suffix_cons e t)

theorem Always.either (h : Always P t) (he : e ∈ t) (he' : e' ∈ t) (hne : e ≠ e') :
    ∃ before, (P e before ∧ e' ∈ before) ∨ (P e' before ∧ e ∈ before) := by
  obtain ⟨_, before, rfl⟩ := append_of_mem he
  obtain hafter | hbefore := mem_append.mp he'
  · obtain ⟨later, between, rfl⟩ := append_of_mem hafter
    refine ⟨between ++ e :: before, .inr ⟨h e' _ ?_, by simp⟩⟩
    exact ⟨later, by simp⟩
  · obtain heq | hmem := mem_cons.mp hbefore
    · exact absurd heq.symm hne
    · exact ⟨before, .inl ⟨h e before (suffix_append _ _), hmem⟩⟩

/-- What has happened since some moment, oldest first, and until the next event that `opens`. -/
def lifetime (opens : α → Bool) (after : List α) : List α := after.reverse.takeWhile (!opens ·)

theorem lifetime_open (h : ∀ e ∈ later, opens e = false) :
    lifetime opens (e :: later) = lifetime opens later ++ [e].filter (!opens ·) := by
  have hall : ∀ e ∈ later.reverse, (!opens e) := by
    intro e he
    rw [h e (mem_reverse.mp he)]
    rfl
  rw [lifetime, lifetime, reverse_cons, takeWhile_append_of_pos hall,
    takeWhile_eq_self_iff.mpr hall]
  cases hopens : opens e <;> simp [hopens]

theorem lifetime_closed (h : ¬ ∀ e ∈ later, opens e = false) :
    lifetime opens (e :: later) = lifetime opens later := by
  have hshort : (later.reverse.takeWhile (!opens ·)).length ≠ later.reverse.length := by
    intro hlen
    apply h
    intro e he
    have hwhole := takeWhile_prefix _ |>.eq_of_length hlen
    have hall := takeWhile_eq_self_iff.mp hwhole e (mem_reverse.mpr he)
    exact (Bool.not_eq_true' _).mp hall
  rw [lifetime, lifetime, reverse_cons, takeWhile_append, if_neg hshort]

/-- What comes about unless a rank sinks, comes about. -/
theorem eventually_of_sinks {goal : Nat → Prop} (rank : Nat → Nat)
    (h : ∀ n ≥ start, ∃ m ≥ n, goal m ∨ rank m < rank n) (hn : start ≤ n) : ∃ m ≥ n, goal m := by
  induction hrank : rank n using Nat.strong_induction_on generalizing n with
  | _ r ih =>
    subst hrank
    obtain ⟨m, hm, hgoal | hlt⟩ := h n hn
    · exact ⟨m, hm, hgoal⟩
    · obtain ⟨k, hk, hgoal⟩ := ih _ hlt (hn.trans hm) rfl
      exact ⟨k, hm.trans hk, hgoal⟩

end Inkwell.Library
