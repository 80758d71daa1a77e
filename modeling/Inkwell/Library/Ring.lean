import Mathlib.Data.List.Range
import Mathlib.Data.Nat.ModEq

namespace Inkwell.Library
open List hiding count head

/-! ### Rings

A queue in `capacity` cells, of which `count` from `head` on are in use, round the end. -/

def ringContents (cell : Nat → α) (capacity head count : Nat) : List α :=
  (List.range count).map fun i => cell ((head + i) % capacity)

@[simp] theorem ringContents_zero : ringContents cell capacity head 0 = [] := rfl

@[simp] theorem length_ringContents : (ringContents cell capacity head count).length = count := by
  simp [ringContents]

theorem ringContents_succ : ringContents cell capacity head (count + 1) =
      cell (head % capacity) :: ringContents cell capacity ((head + 1) % capacity) count := by
  rw [ringContents, range_succ_eq_map, map_cons, map_map, add_zero]
  congr 1
  apply map_congr_left
  intro i _
  rw [Function.comp_apply, Nat.mod_add_mod, Nat.succ_eq_add_one, add_assoc, add_comm 1 i]

theorem ring_index_inj {head i j capacity : Nat} (hi : i < capacity) (hj : j < capacity)
    (h : (head + i) % capacity = (head + j) % capacity) : i = j := by
  have hmod : i ≡ j [MOD capacity] := Nat.ModEq.add_left_cancel' head h
  rwa [Nat.ModEq, Nat.mod_eq_of_lt hi, Nat.mod_eq_of_lt hj] at hmod

theorem mem_ringContents (hi : i < count) :
    cell ((head + i) % capacity) ∈ ringContents cell capacity head count :=
  mem_map.mpr ⟨i, mem_range.mpr hi, rfl⟩

theorem ringContents_push (hroom : count < capacity)
    (hnew : cell' ((head + count) % capacity) = x)
    (hold : ∀ i ≠ (head + count) % capacity, cell i ∈ ringContents cell capacity head count →
      cell' i = cell i) :
    ringContents cell' capacity head (count + 1) = ringContents cell capacity head count ++
      [x] := by
  rw [ringContents, range_succ, map_append, map_singleton, hnew]
  congr 1
  apply map_congr_left
  intro i hi
  have hi := mem_range.mp hi
  apply hold _ _ (mem_ringContents hi)
  intro h
  exact absurd (ring_index_inj (by omega) hroom h) (by omega)

theorem ringContents_front (hcount : count < capacity)
    (hold : ∀ i ≠ head % capacity, cell i ∈ ringContents cell capacity head (count + 1) →
      cell' i = cell i) :
    ringContents cell' capacity ((head + 1) % capacity) count =
      ringContents cell capacity ((head + 1) % capacity) count := by
  apply map_congr_left
  intro i hi
  have hi := mem_range.mp hi
  have hindex : ((head + 1) % capacity + i) % capacity = (head + (i + 1)) % capacity := by
    rw [Nat.mod_add_mod, add_assoc, add_comm 1 i]
  rw [hindex]
  apply hold _ _ (mem_ringContents (by omega))
  intro h
  have hzero : i + 1 = 0 := ring_index_inj (by omega) (by omega) h
  omega

end Inkwell.Library
