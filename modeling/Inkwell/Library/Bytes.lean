import Mathlib.Data.List.TakeWhile

namespace Inkwell

abbrev Bytes := List UInt8

namespace Library
open List

theorem forall_byte [DecidablePred p] (h : ∀ n : Fin 256, p (UInt8.ofNat n)) (c : UInt8) : p c := by
  have hc := h ⟨c.toNat, c.toNat_lt⟩
  rwa [UInt8.ofNat_toNat] at hc

theorem span_eq {p : α → Bool} {x y : List α} (hbefore : ∀ c ∈ x, p c)
    (hafter : ∀ c ∈ y.head?, p c = false) :
    (x ++ y).takeWhile p = x ∧ (x ++ y).dropWhile p = y := by
  rw [takeWhile_append_of_pos hbefore, dropWhile_append_of_pos hbefore]
  cases y with
  | nil => exact ⟨append_nil _, rfl⟩
  | cons c =>
    have hc := hafter c rfl
    rw [takeWhile_cons_of_neg (by simp [hc]), dropWhile_cons_of_neg (by simp [hc])]
    exact ⟨append_nil _, rfl⟩

theorem head_dropWhile (text : List α) : ∀ c ∈ (text.dropWhile p).head?, p c = false := by
  intro c hc
  have hstop := head?_dropWhile_not p text
  rw [Option.mem_def.mp hc] at hstop
  exact hstop

theorem exists_span (p : α → Bool) (text : List α) : ∃ before after, text = before ++ after ∧
    (∀ c ∈ before, p c) ∧ (∀ c ∈ after.head?, p c = false) ∧
    text.takeWhile p = before ∧ text.dropWhile p = after :=
  ⟨text.takeWhile p, text.dropWhile p, takeWhile_append_dropWhile.symm,
    fun _ hc => mem_takeWhile_imp hc, head_dropWhile text, rfl, rfl⟩

end Library

end Inkwell
