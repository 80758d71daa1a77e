import Mathlib.Data.List.Lex
import Mathlib.Data.Prod.Lex
import Mathlib.Data.Sum.Order

namespace Inkwell.Library

variable [LinearOrder α] [LinearOrder β]

/-- What a three-way comparison returns: negative for lower, zero for equal, positive for higher. -/
def threeWay (a b : α) : Int := if a ≠ b then if a < b then -1 else 1 else 0

@[simp] theorem threeWay_self (a : α) : threeWay a a = 0 := by simp [threeWay]

theorem threeWay_of_lt {a b : α} (h : a < b) : threeWay a b = -1 := by
  simp [threeWay, h, ne_of_lt h]

theorem threeWay_of_gt {a b : α} (h : b < a) : threeWay a b = 1 := by
  simp [threeWay, not_lt_of_gt h, ne_of_gt h]

theorem threeWay_swap (b : α) : threeWay b a = -threeWay a b := by
  obtain h | rfl | h := lt_trichotomy a b
  · rw [threeWay_of_lt h, threeWay_of_gt h]
    rfl
  · simp
  · rw [threeWay_of_lt h, threeWay_of_gt h]

theorem threeWay_eq_zero {a b : α} : threeWay a b = 0 ↔ a = b := by
  unfold threeWay
  split
  · split <;> simp_all
  · simp_all

theorem threeWay_le_zero {a b : α} : threeWay a b ≤ 0 ↔ a ≤ b := by
  obtain h | rfl | h := lt_trichotomy a b
  · simp [threeWay_of_lt h, h.le]
  · simp
  · simp [threeWay_of_gt h, h]

theorem threeWay_lex {γ : Type*} [LinearOrder γ] {a b : α} {x y : β} {u v : γ}
    (heq : a = b ↔ x = y ∧ u = v) (hlt : a < b ↔ x < y ∨ x = y ∧ u < v) :
    threeWay a b = if x ≠ y then if x < y then -1 else 1 else threeWay u v := by
  by_cases h : x = y
  · have he : a = b ↔ u = v := by simpa [h] using heq
    have hl : a < b ↔ u < v := by simpa [h] using hlt
    simp only [threeWay, ne_eq, he, hl, h, not_true_eq_false, if_false]
  · have he : a ≠ b := fun e => h (heq.mp e).1
    have hl : a < b ↔ x < y := by simpa [h] using hlt
    simp only [threeWay, ne_eq, he, hl, h, not_false_eq_true, if_true]

theorem threeWay_toLex (y : α) (v : β) : threeWay (toLex (x, u)) (toLex (y, v)) =
      if x ≠ y then if x < y then -1 else 1 else threeWay u v :=
  threeWay_lex (by simp) Prod.Lex.toLex_lt_toLex

theorem threeWay_cons (v : List α) :
    threeWay (x :: u) (y :: v) = if threeWay x y ≠ 0 then threeWay x y else threeWay u v := by
  rw [threeWay_lex (by simp) List.cons_lt_cons_iff]
  by_cases h : x = y
  · simp [h]
  · simp [threeWay, h]
    split <;> simp

theorem threeWay_nil_cons (v : List α) : threeWay [] (y :: v) = -1 :=
  threeWay_of_lt (List.nil_lt_cons y v)

theorem threeWay_cons_nil (u : List α) : threeWay (x :: u) [] = 1 :=
  threeWay_of_gt (List.nil_lt_cons x u)

theorem threeWay_congr {f : α → β} (hf : StrictMono f) (a b : α) :
    threeWay (f a) (f b) = threeWay a b := by
  simp only [threeWay, ne_eq, hf.injective.eq_iff, hf.lt_iff_lt]

end Inkwell.Library
