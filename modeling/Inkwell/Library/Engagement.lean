import Mathlib.Data.List.Count
import Inkwell.Library.History

namespace Inkwell.Library
open List hiding after

inductive Stage (ι : Type)
  | opens (i : ι)
  | closes (i : ι)
  | neutral
  deriving DecidableEq

section Engagement
variable (stage : α → Stage ι)

/-- The engagement that is open; at most one is at a time. -/
def engaged : List α → Option ι
  | [] => none
  | e :: t =>
    match stage e with
    | .opens i => some i
    | .closes _ => none
    | .neutral => engaged t

/-- An engagement is new when it opens, no other being open, and open when it closes. -/
def Orderly (e : α) (t : List α) : Prop :=
  match stage e with
  | .opens i => engaged stage t = none ∧ ∀ e' ∈ t, stage e' ≠ .opens i
  | .closes i => engaged stage t = some i
  | .neutral => True

variable {stage}

theorem Always.unique {P : α → Prop} (h : Always Q t) (he : e ∈ t) (he' : e' ∈ t)
    (hnew : ∀ {e t}, Always Q (e :: t) → P e → ∀ e' ∈ t, ¬ P e') (hp : P e) (hp' : P e') :
    e = e' := by
  induction t with
  | nil => cases he
  | cons _ t ih =>
    obtain heq | hmem := mem_cons.mp he
    · obtain heq' | hmem' := mem_cons.mp he'
      · exact heq.trans heq'.symm
      · exact absurd hp' (hnew h (heq ▸ hp) e' hmem')
    · obtain heq' | hmem' := mem_cons.mp he'
      · exact absurd hp (hnew h (heq' ▸ hp') e hmem)
      · exact ih h.tail hmem hmem'

theorem Always.opened_unique (h : Always (Orderly stage) t) (he : e ∈ t) (he' : e' ∈ t)
    (hs : stage e = .opens i) (hs' : stage e' = .opens i) : e = e' := by
  refine h.unique (P := (stage · = .opens i)) he he' (fun h hs => ?_) hs hs'
  have hhead := h.head
  rw [Orderly, hs] at hhead
  exact hhead.2

variable (stage) [DecidableEq ι]

def openings (i : ι) (t : List α) : Nat := t.countP fun e => stage e = .opens i

def closings (i : ι) (t : List α) : Nat := t.countP fun e => stage e = .closes i

variable {stage} {t : List α} (h : Always (Orderly stage) t)
include h

/-- Every engagement that was opened is open or closed, and none is both or closed twice. -/
theorem Always.balance (i : ι) :
    closings stage i t + (if engaged stage t = some i then 1 else 0) = openings stage i t := by
  induction t with
  | nil => rfl
  | cons e t ih =>
    have hold := ih h.tail
    have he : Orderly stage e t := h.head
    simp only [closings, openings] at hold
    cases hstage : stage e with
    | neutral => simpa [closings, openings, engaged, countP_cons, hstage] using hold
    | opens =>
      simp only [Orderly, hstage] at he
      simp only [he.1, reduceCtorEq, if_false, Nat.add_zero] at hold
      simp [closings, openings, engaged, countP_cons, hstage, hold]
    | closes =>
      simp only [Orderly, hstage] at he
      simp only [he, Option.some.injEq] at hold
      simp [closings, openings, engaged, countP_cons, hstage, ← hold]

theorem Always.openings_le_one (i : ι) : openings stage i t ≤ 1 := by
  induction t with
  | nil => exact Nat.zero_le _
  | cons e t ih =>
    have he : Orderly stage e t := h.head
    by_cases hopens : stage e = .opens i
    · simp only [Orderly, hopens] at he
      have hnone : t.countP (fun e => stage e = .opens i) = 0 :=
        countP_eq_zero.mpr fun e' hmem => by simpa using he.2 e' hmem
      simp [openings, hopens, hnone]
    · simpa [openings, countP_cons, hopens] using ih h.tail

theorem Always.closings_eq (he : e ∈ t) (hs : stage e = .opens i) :
    closings stage i t + (if engaged stage t = some i then 1 else 0) = 1 := by
  have hone := h.openings_le_one i
  have hpos : 0 < openings stage i t := countP_pos_iff.mpr ⟨e, he, by simpa using hs⟩
  rw [h.balance i]
  omega

theorem Always.engaged_opened (hi : engaged stage t = some i) : ∃ e ∈ t, stage e = .opens i := by
  have hbalance := h.balance i
  have hpos : 0 < openings stage i t := by
    rw [if_pos hi] at hbalance
    omega
  obtain ⟨e, hmem, he⟩ := countP_pos_iff.mp hpos
  exact ⟨e, hmem, by simpa using he⟩

theorem engaged_eq_none_of_closed (he : e ∈ t)
    (hclose : stage e = .closes i) : engaged stage t ≠ some i := by
  intro hi
  have hbalance := h.balance i
  have hone := h.openings_le_one i
  have hpos : 0 < closings stage i t := countP_pos_iff.mpr ⟨e, he, by simpa using hclose⟩
  rw [if_pos hi] at hbalance
  omega

theorem Always.closed_unique (he : e ∈ t) (he' : e' ∈ t)
    (hs : stage e = .closes i) (hs' : stage e' = .closes i) : e = e' := by
  refine h.unique (P := (stage · = .closes i)) he he' (fun h hs e' hmem hs' => ?_) hs hs'
  have hhead := h.head
  rw [Orderly, hs] at hhead
  exact engaged_eq_none_of_closed h.tail hmem hs' hhead

theorem Always.closed_of_opened (he : e ∈ t)
    (hs : stage e = .opens i) (hi : engaged stage t ≠ some i) : ∃ e' ∈ t, stage e' = .closes i := by
  have hclosed := h.closings_eq he hs
  rw [if_neg hi, Nat.add_zero] at hclosed
  obtain ⟨e', hmem, he'⟩ := countP_pos_iff.mp (hclosed ▸ Nat.one_pos : 0 < closings stage i t)
  exact ⟨e', hmem, by simpa using he'⟩

theorem Always.engaged_between (hs : s <:+ u) (hu : u <:+ t) (hbefore : engaged stage s = some i)
    (hafter : engaged stage t = some i) : engaged stage u = some i := by
  by_contra hnot
  have horderly := h.suffix hu
  obtain ⟨_, hmem, he⟩ := (horderly.suffix hs).engaged_opened hbefore
  obtain ⟨_, hmem', he'⟩ := horderly.closed_of_opened (hs.subset hmem) he hnot
  exact engaged_eq_none_of_closed h (hu.subset hmem') he' hafter

omit h in
/-- An engagement is closed only after it was opened, and once unless it still is open. -/
theorem Always.closings_after (h : Always (Orderly stage) (after ++ e :: before))
    (he : stage e = .opens i) :
    closings stage i before = 0 ∧
      closings stage i after = if engaged stage (after ++ e :: before) = some i then 0 else 1 := by
  have hbefore : Always (Orderly stage) (e :: before) := h.suffix (suffix_append _ _)
  have hnew : Orderly stage e before := hbefore.head
  simp only [Orderly, he] at hnew
  have hnone : openings stage i before = 0 :=
    countP_eq_zero.mpr fun e' hmem => by simpa using hnew.2 e' hmem
  have hold := hbefore.tail.balance i
  have hall := h.balance i
  have hone := h.openings_le_one i
  have hsplit : closings stage i (after ++ e :: before) =
      closings stage i after + closings stage i before := by
    simp [closings, countP_append, he]
  have hopened : openings stage i (after ++ e :: before) = openings stage i after + 1 := by
    have : before.countP (fun e => stage e = .opens i) = 0 := hnone
    simp [openings, countP_append, he, this]
  by_cases hopen : engaged stage (after ++ e :: before) = some i
  · rw [if_pos hopen] at hall ⊢
    omega
  · rw [if_neg hopen] at hall ⊢
    omega

end Engagement

end Inkwell.Library
