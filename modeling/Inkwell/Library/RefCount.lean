import Mathlib.Data.Finset.Card

namespace Inkwell.Library
open Function

/-- The count of an object that is freed with its last reference; `strays` counts those taken or
released after that. -/
structure Counted where
  refs : Nat := 1
  taken : Nat := 1
  released : Nat := 0
  freed : Nat := 0
  strays : Nat := 0
  deriving DecidableEq

namespace Counted
variable {c : Counted}

def retain (c : Counted) : Counted :=
  { c with
    refs := c.refs + 1
    taken := c.taken + 1
    strays := if c.refs = 0 then c.strays + 1 else c.strays }

def release (c : Counted) : Counted :=
  { c with
    refs := c.refs - 1
    released := c.released + 1
    freed := if c.refs = 1 then c.freed + 1 else c.freed
    strays := if c.refs = 0 then c.strays + 1 else c.strays }

/-- The object has so many references that are not released, and was freed if there are none. -/
structure Held (c : Counted) (n : Nat) : Prop where
  refs : c.refs = n
  balance : c.taken = c.released + n
  freed : c.freed = if n = 0 then 1 else 0
  strays : c.strays = 0

theorem held_new : Held {} 1 := ⟨rfl, rfl, rfl, rfl⟩

theorem Held.retain (h : c.Held n) (hpos : 0 < n) : c.retain.Held (n + 1) := by
  have hne : c.refs ≠ 0 := h.refs ▸ hpos.ne'
  refine ⟨congrArg (· + 1) h.refs, congrArg (· + 1) h.balance, ?_, ?_⟩
  · exact h.freed.trans (if_neg hpos.ne')
  · exact (if_neg hne).trans h.strays

theorem Held.release (h : c.Held (n + 1)) : c.release.Held n := by
  have hrefs := h.refs
  have hbalance := h.balance
  refine ⟨?_, ?_, ?_, ?_⟩
  · exact congrArg (· - 1) hrefs
  · simp only [Counted.release]
    omega
  · have hfreed : c.freed = 0 := h.freed
    simp [Counted.release, hrefs, hfreed]
  · simp [Counted.release, hrefs, h.strays]

end Counted

/-! Objects by number, each of which holds something as long as it lives. -/

/-- Those of the first `n` objects that were not freed. -/
def living (objects : Nat → Counted) (n : Nat) : Finset Nat :=
  (Finset.range n).filter fun i => 0 < (objects i).refs

section Living
variable {objects : Nat → Counted}

theorem mem_living : i ∈ living objects n ↔ i < n ∧ 0 < (objects i).refs := by simp [living]

theorem living_update (hi : 0 < (objects i).refs) (hc : 0 < c.refs) :
    living (update objects i c) n = living objects n := by
  ext j
  rw [mem_living, mem_living]
  by_cases hj : j = i
  · subst hj
    simp [hi, hc]
  · simp [hj]

theorem living_free (hc : c.refs = 0) :
    living (update objects i c) n = (living objects n).erase i := by
  ext j
  rw [Finset.mem_erase, mem_living, mem_living]
  by_cases hj : j = i
  · subst hj
    simp [hc]
  · simp [hj]

theorem living_new (hc : 0 < c.refs) :
    living (update objects n c) (n + 1) = insert n (living objects n) := by
  ext j
  rw [Finset.mem_insert, mem_living, mem_living]
  by_cases hj : j = n
  · subst hj
    simp [hc]
  · have hlt : j < n + 1 ↔ j < n := by omega
    simp [hj, hlt]

theorem card_living_free (hc : c.refs = 0) (hi : i < n) (hlive : 0 < (objects i).refs) :
    (living (update objects i c) n).card + 1 = (living objects n).card := by
  rw [living_free hc]
  exact Finset.card_erase_add_one (mem_living.mpr ⟨hi, hlive⟩)

theorem card_living_new (hc : 0 < c.refs) :
    (living (update objects n c) (n + 1)).card = (living objects n).card + 1 := by
  rw [living_new hc]
  exact Finset.card_insert_of_notMem fun hmem => (mem_living.mp hmem).1.ne rfl

theorem living_eq_empty (h : ∀ i < n, (objects i).refs = 0) : living objects n = ∅ := by
  ext j
  rw [mem_living]
  simp only [Finset.notMem_empty, iff_false, not_and, not_lt, Nat.le_zero]
  exact h j

/-- The counts of the first `n` objects are those of their holders; the others have none. -/
structure Tally (objects : Nat → Counted) (n : Nat) (holders : Nat → Nat) : Prop where
  held : ∀ i < n, (objects i).Held (holders i)
  unmade : ∀ i, n ≤ i → holders i = 0

theorem Tally.made (h : Tally objects n holders) (hpos : 0 < holders i) : i < n := by
  by_contra hnot
  exact hpos.ne' (h.unmade i (le_of_not_gt hnot))

theorem Tally.set (h : Tally objects n holders) (hi : i < n) (hc : c.Held k) :
    Tally (update objects i c) n (update holders i k) := by
  constructor
  · intro j hj
    by_cases heq : j = i
    · subst heq
      rw [update_self, update_self]
      exact hc
    · rw [update_of_ne heq, update_of_ne heq]
      exact h.held j hj
  · intro j hj
    rw [update_of_ne (hi.trans_le hj).ne']
    exact h.unmade j hj

theorem Tally.retain (h : Tally objects n holders) (hpos : 0 < holders i) :
    Tally (update objects i (objects i).retain) n
        (update holders i (holders i + 1)) ∧
      living (update objects i (objects i).retain) n = living objects n := by
  have hi := h.made hpos
  have hheld := h.held i hi
  exact ⟨h.set hi (hheld.retain hpos), living_update (hheld.refs ▸ hpos) (Nat.succ_pos _)⟩

theorem Tally.release (h : Tally objects n holders) (hk : holders i = k + 1) :
    Tally (update objects i (objects i).release) n (update holders i k) ∧
      (living (update objects i (objects i).release) n).card +
        (if (objects i).refs = 1 then 1 else 0) = (living objects n).card := by
  have hi : i < n := h.made (hk ▸ Nat.succ_pos k)
  have hheld : (objects i).Held (k + 1) := hk ▸ h.held i hi
  have hrelease := hheld.release
  have hpos : 0 < (objects i).refs := hheld.refs ▸ Nat.succ_pos k
  refine ⟨h.set hi hrelease, ?_⟩
  split
  · rename_i hone
    have hzero : k = 0 := Nat.succ.inj (hheld.refs.symm.trans hone)
    exact card_living_free (hrelease.refs.trans hzero) hi hpos
  · rename_i hmore
    have hk : 0 < k := by
      apply Nat.pos_of_ne_zero
      intro hzero
      exact hmore (hheld.refs.trans (congrArg (· + 1) hzero))
    rw [living_update hpos (hrelease.refs ▸ hk), Nat.add_zero]

theorem Tally.make (h : Tally objects n holders) :
    Tally (update objects n {}) (n + 1) (update holders n 1) ∧
      (living (update objects n {}) (n + 1)).card = (living objects n).card + 1 := by
  refine ⟨⟨fun i hi => ?_, fun i hi => ?_⟩, card_living_new Nat.one_pos⟩
  · by_cases heq : i = n
    · subst heq
      rw [update_self, update_self]
      exact Counted.held_new
    · rw [update_of_ne heq, update_of_ne heq]
      exact h.held i (lt_of_le_of_ne (Nat.lt_succ_iff.mp hi) heq)
  · rw [update_of_ne (Nat.lt_of_succ_le hi).ne']
    exact h.unmade i (Nat.le_of_succ_le hi)

theorem one_more {f f' : Nat → Nat} (h : ∀ j, f' j = f j + [i].count j) :
    f' = update f i (f i + 1) ∧ f = update f' i (f i) := by
  constructor <;> funext j <;> by_cases hj : j = i
  · subst hj
    simp [h]
  · simp [h, hj, Ne.symm hj]
  · subst hj
    simp
  · simp [h, hj, Ne.symm hj]

/-- Two kinds of objects that have a reference on a hub as long as they live, each one. -/
structure Shared (c : Counted) (own : Nat) (a : Nat → Counted) (n : Nat) (f : Nat → Nat)
    (b : Nat → Counted) (m : Nat) (g : Nat → Nat) : Prop where
  left : Tally a n f
  right : Tally b m g
  held : c.Held (own + ((living a n).card + (living b m).card))

theorem Shared.swap (h : Shared c own a n f b m g) : Shared c own b m g a n f :=
  ⟨h.right, h.left, Nat.add_comm (living a n).card _ ▸ h.held⟩

theorem Shared.retain (h : Shared c own a n f b m g) (hpos : 0 < f i)
    (hf : ∀ j, f' j = f j + [i].count j) : Shared c own (update a i (a i).retain) n f' b m g := by
  obtain ⟨htally, hlive⟩ := h.left.retain hpos
  rw [← (one_more hf).1] at htally
  have hheld := h.held
  rw [← hlive] at hheld
  exact ⟨htally, h.right, hheld⟩

theorem Shared.release (h : Shared c own a n f b m g) (hf : ∀ j, f j = f' j + [i].count j) :
    Shared (if (a i).refs = 1 then c.release else c) own (update a i (a i).release) n f'
      b m g := by
  obtain ⟨htally, hcard⟩ := h.left.release (i := i) (k := f' i) (by simp [hf])
  rw [← (one_more hf).2] at htally
  refine ⟨htally, h.right, ?_⟩
  have hheld := h.held
  rw [← hcard] at hheld
  split
  · rename_i hone
    rw [if_pos hone, Nat.add_right_comm, ← Nat.add_assoc] at hheld
    exact hheld.release
  · rename_i hmore
    rw [if_neg hmore] at hheld
    exact hheld

theorem Shared.make (h : Shared c own a n f b m g) (hown : 0 < own)
    (hf : ∀ j, f' j = f j + [n].count j) :
    Shared c.retain own (update a n {}) (n + 1) f' b m g := by
  obtain ⟨htally, hcard⟩ := h.left.make
  have hone : f' = update f n 1 := by rw [(one_more hf).1, h.left.unmade n le_rfl]
  rw [← hone] at htally
  refine ⟨htally, h.right, ?_⟩
  have hheld := h.held.retain (by omega)
  rw [hcard, Nat.add_right_comm, ← Nat.add_assoc]
  exact hheld

end Living

end Inkwell.Library
