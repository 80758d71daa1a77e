import Mathlib.Data.Nat.Digits.Lemmas
import Inkwell.Library.Bytes

namespace Inkwell.Library
open List

def isDigit (c : UInt8) : Bool := 48 ≤ c && c ≤ 57

def decimal (n : Nat) : Bytes :=
  if n = 0 then [48] else (Nat.digits 10 n).reverse.map fun d => UInt8.ofNat (48 + d)

def numeral (digits : Bytes) : Nat := digits.foldl (fun n c => n * 10 + (c.toNat - 48)) 0

theorem toNat_digit (h : d < 10) : (UInt8.ofNat (48 + d)).toNat = 48 + d := by
  rw [UInt8.toNat_ofNat']
  omega

theorem isDigit_digit (h : d < 10) : isDigit (UInt8.ofNat (48 + d)) := by
  have htoNat := toNat_digit h
  simp only [isDigit, Bool.and_eq_true, decide_eq_true_eq, UInt8.le_iff_toNat_le, htoNat]
  exact ⟨Nat.le_add_right 48 d, Nat.add_le_add_left (Nat.le_of_lt_succ h) 48⟩

theorem isDigit_decimal (n : Nat) : ∀ c ∈ decimal n, isDigit c := by
  intro c hc
  unfold decimal at hc
  split at hc
  · cases mem_singleton.mp hc
    rfl
  · obtain ⟨d, hd, rfl⟩ := mem_map.mp hc
    exact isDigit_digit (Nat.digits_lt_base (by decide) (mem_reverse.mp hd))

theorem decimal_ne_nil (n : Nat) : decimal n ≠ [] := by
  unfold decimal
  split
  · exact nofun
  · rename_i hn
    simpa [Nat.digits_eq_nil_iff_eq_zero] using hn

theorem length_decimal (h : n < 10 ^ (k + 1)) : (decimal n).length ≤ k + 1 := by
  unfold decimal
  split
  · exact Nat.succ_le_succ (Nat.zero_le k)
  · rw [length_map, length_reverse]
    exact (Nat.digits_length_le_iff (by decide) n).mpr h

theorem numeral_append : numeral (digits ++ [c]) = numeral digits * 10 + (c.toNat - 48) := by
  rw [numeral, foldl_append]
  rfl

theorem numeral_reverse (h : ∀ d ∈ digits, d < 10) :
    numeral (digits.reverse.map fun d => UInt8.ofNat (48 + d)) = Nat.ofDigits 10 digits := by
  induction digits with
  | nil => rfl
  | cons d _ ih =>
    rw [reverse_cons, map_append, map_singleton, numeral_append,
      ih fun d hd => h d (mem_cons_of_mem _ hd), toNat_digit (h d mem_cons_self),
      Nat.ofDigits_cons, Nat.add_sub_cancel_left, mul_comm, add_comm]

theorem numeral_decimal (n : Nat) : numeral (decimal n) = n := by
  unfold decimal
  split
  · rename_i hn
    rw [hn]
    rfl
  · rw [numeral_reverse fun d hd => Nat.digits_lt_base (by decide) hd, Nat.ofDigits_digits]

theorem toNat_digit_sub : ∀ c : UInt8, isDigit c → (c - 0x30).toNat = c.toNat - 48 :=
  forall_byte (by decide +kernel)

theorem foldl_digits (h : ∀ c ∈ text, isDigit c) :
    text.foldl (fun n c => n * 10 + (c - 0x30).toNat) 0 = numeral text := by
  apply foldl_ext
  intro n c hc
  rw [toNat_digit_sub c (h c hc)]

end Inkwell.Library
