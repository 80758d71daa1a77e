import Mathlib.Data.List.Range
import Inkwell.Library.Bytes

namespace Inkwell.Library
open List hiding length

/-! ### Memory

A buffer is a byte for each offset, of which a caller owns the first so many. -/

abbrev Memory := Nat → UInt8

def Memory.read (mem : Memory) (offset length : Nat) : Bytes :=
  (List.range length).map fun i => mem (offset + i)

def Memory.write (mem : Memory) (offset : Nat) (data : Bytes) : Memory := fun i =>
  if offset ≤ i ∧ i < offset + data.length then data.getD (i - offset) 0 else mem i

@[simp] theorem Memory.length_read (mem : Memory) : (mem.read offset length).length = length := by
  simp [Memory.read]

theorem Memory.read_write (mem : Memory) :
    (mem.write offset data).read offset data.length = data := by
  apply ext_getElem
  · simp
  · intro i _ hdata
    simp [Memory.read, Memory.write, hdata, getD_eq_getElem?_getD]

theorem Memory.read_write_apart (h : offset' + length ≤ offset ∨ offset + data.length ≤ offset') :
    (Memory.write mem offset data).read offset' length = mem.read offset' length := by
  apply map_congr_left
  intro i hi
  have hi := mem_range.mp hi
  rw [Memory.write, if_neg (by omega)]

theorem Memory.read_part (mem : Memory) (offset length : Nat) (h : skip + n ≤ length) :
    mem.read (offset + skip) n = ((mem.read offset length).drop skip).take n := by
  apply ext_getElem
  · simp
    omega
  · simp [Memory.read, Nat.add_assoc]

theorem block_apart (size : Nat) (h : i ≠ j) :
    i * size + size ≤ j * size ∨ j * size + size ≤ i * size := by
  rcases Nat.lt_or_gt_of_ne h with h | h
  · left
    calc i * size + size = (i + 1) * size := (Nat.succ_mul i size).symm
      _ ≤ j * size := Nat.mul_le_mul_right size h
  · right
    calc j * size + size = (j + 1) * size := (Nat.succ_mul j size).symm
      _ ≤ i * size := Nat.mul_le_mul_right size h

/-! ### What a call stores

The bytes a call has put at the offsets of its output, and nothing where it has put none. -/

def Stored (α : Type) := Nat → Option α

namespace Stored

def nothing : Stored α := fun _ => none

def put (out : Stored α) (offset : Nat) (data : List α) : Stored α := fun i =>
  if offset ≤ i ∧ i < offset + data.length then data[i - offset]? else out i

/-- All of `data` from the start on, and nothing else. -/
def holding (data : List α) : Stored α := fun i => data[i]?

theorem put_holding (h : offset = held.length) :
    (holding held).put offset data = holding (held ++ data) := by
  subst h
  funext i
  unfold put holding
  by_cases hbehind : held.length ≤ i
  · rw [getElem?_append_right hbehind]
    split
    · rfl
    · rw [getElem?_eq_none hbehind, getElem?_eq_none]
      omega
  · rw [if_neg (fun hin => hbehind hin.1), getElem?_append_left (lt_of_not_ge hbehind)]

theorem isSome_holding (data : List α) (i : Nat) : (holding data i).isSome ↔ i < data.length := by
  simp [holding]

end Stored

end Inkwell.Library
