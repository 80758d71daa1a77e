import Mathlib.Order.BooleanAlgebra.Set

namespace Inkwell.Library

/-- An item of a replicated structure is there, as one of some kinds with values for its keys, or
has other values, or is gone. -/
inductive Change (ι κ ν : Type)
  | add (i : ι) (values : κ → Option ν)
  | update (i : ι) (values : κ → Option ν)
  | remove (i : ι)

abbrev Item (ι κ ν : Type) := Option (ι × (κ → ν))

/-- An item of a copy that takes an item to be of several kinds if it is told so. -/
structure Mirror (ι κ ν : Type) where
  kinds : Set ι
  values : ι → κ → ν

def overlay (values : κ → Option ν) (f : κ → ν) : κ → ν := fun k => (values k).getD (f k)

theorem overlay_eq : overlay values g k = overlay values f k ∨ overlay values g k = g k := by
  unfold overlay
  cases values k with
  | none => exact .inr rfl
  | some => exact .inl rfl

section Replica
variable (blank : ι → κ → ν)

def Change.apply : Change ι κ ν → Item ι κ ν → Item ι κ ν
  | .add i values, _ => some (i, overlay values (blank i))
  | .update _ values, t => t.map fun item => (item.1, overlay values item.2)
  | .remove _, _ => none

/-- An item is added where there is none, and changed and removed where there is one. -/
def Change.Fits : Change ι κ ν → Item ι κ ν → Prop
  | .add _ _, t => t = none
  | .update i _, t => ∃ f, t = some (i, f)
  | .remove i, t => ∃ f, t = some (i, f)

open Classical in
noncomputable def Change.follow [DecidableEq ι] :
    Change ι κ ν → Option (Mirror ι κ ν) → Option (Mirror ι κ ν)
  | .add i values, c =>
    let m := c.getD ⟨∅, blank⟩
    some ⟨insert i m.kinds, Function.update m.values i (overlay values (m.values i))⟩
  | .update i values, c =>
    c.map fun m =>
      if i ∈ m.kinds then
        { m with values := Function.update m.values i (overlay values (m.values i)) }
      else m
  | .remove i, c =>
    c.bind fun m =>
      if m.kinds \ {i} = ∅ then none else some { m with kinds := m.kinds \ {i} }

/-- A copy is the original: of the one kind, with its values. -/
def Agrees : Option (Mirror ι κ ν) → Item ι κ ν → Prop
  | none, none => True
  | some m, some (i, f) => m.kinds = {i} ∧ m.values i = f
  | _, _ => False

theorem Agrees.none_left (h : Agrees c (none : Item ι κ ν)) : c = none := by
  cases c with
  | none => rfl
  | some => cases h

theorem Agrees.some_left (h : Agrees c (some (i, f) : Item ι κ ν)) :
    ∃ m, c = some m ∧ m.kinds = {i} ∧ m.values i = f := by
  cases c with
  | none => cases h
  | some m => exact ⟨m, rfl, h⟩

def kindsOf (c : Option (Mirror ι κ ν)) : Set ι := c.elim ∅ Mirror.kinds

/-- A copy that was at `s` already, told how the original came to be `t` on its way to `s`: of
every kind it is what one of the two is, with their values. -/
structure Between (s : Item ι κ ν) (c : Option (Mirror ι κ ν)) (t : Item ι κ ν) : Prop where
  some_kind : ∀ m, c = some m → m.kinds.Nonempty
  kinds : ∀ i, (i ∈ kindsOf c ↔ t.map Prod.fst = some i) ∨ (i ∈ kindsOf c ↔ s.map Prod.fst = some i)
  values : ∀ m i g, c = some m → i ∈ m.kinds → s = some (i, g) →
    ∀ k, m.values i k = g k ∨ ∃ f, t = some (i, f) ∧ m.values i k = f k

theorem Agrees.between (h : Agrees c s) : Between s c t := by
  cases s with
  | none =>
    rw [h.none_left]
    exact ⟨nofun, fun i => .inr ⟨nofun, nofun⟩, nofun⟩
  | some item =>
    obtain ⟨j, _⟩ := item
    obtain ⟨m, rfl, hkinds, hvalues⟩ := h.some_left
    refine ⟨?_, fun i => .inr ?_, ?_⟩
    · rintro _ ⟨⟩
      exact hkinds ▸ Set.singleton_nonempty j
    · change i ∈ m.kinds ↔ some j = some i
      rw [hkinds, Set.mem_singleton_iff, Option.some.injEq, eq_comm]
    · rintro _ i _ ⟨⟩ - heq k
      cases heq
      exact .inl (congrFun hvalues k)

theorem Between.agrees (h : Between s c s) : Agrees c s := by
  have hkinds : ∀ i, i ∈ kindsOf c ↔ s.map Prod.fst = some i := fun i => or_self_iff.mp (h.kinds i)
  cases c with
  | none =>
    cases s with
    | none => trivial
    | some item => exact ((hkinds item.1).mpr rfl).elim
  | some m =>
    obtain ⟨i, hi⟩ := h.some_kind m rfl
    cases s with
    | none => cases (hkinds i).mp hi
    | some item =>
      obtain ⟨j, g⟩ := item
      have hj : j ∈ m.kinds := (hkinds j).mpr rfl
      refine ⟨Set.eq_singleton_iff_unique_mem.mpr ⟨hj, fun i hi => ?_⟩, funext fun k => ?_⟩
      · exact (Option.some.inj ((hkinds i).mp hi)).symm
      · obtain heq | ⟨_, hf, heq⟩ := h.values m j g rfl hj rfl k
        · exact heq
        · cases hf
          exact heq

def Fitting (blank : ι → κ → ν) (t : Item ι κ ν) : List (Change ι κ ν) → Prop
  | [] => True
  | change :: changes => change.Fits t ∧ Fitting blank (change.apply blank t) changes

def applyAll (blank : ι → κ → ν) (changes : List (Change ι κ ν)) (t : Item ι κ ν) : Item ι κ ν :=
  changes.foldl (fun t change => change.apply blank t) t

variable {blank}

theorem Fitting.append (h : Fitting blank t changes)
    (h' : Fitting blank (applyAll blank changes t) changes') :
    Fitting blank t (changes ++ changes') := by
  induction changes generalizing t with
  | nil => exact h'
  | cons _ _ ih => exact ⟨h.1, ih h.2 h'⟩

theorem applyAll_append :
    applyAll blank (changes ++ changes') t = applyAll blank changes' (applyAll blank changes t) :=
  List.foldl_append ..

variable [DecidableEq ι]

theorem Agrees.step (h : Agrees c t) {change : Change ι κ ν} (hfits : change.Fits t) :
    Agrees (change.follow blank c) (change.apply blank t) := by
  cases change with
  | add i =>
    cases hfits
    rw [h.none_left]
    exact ⟨insert_empty_eq i, Function.update_self ..⟩
  | update i values =>
    obtain ⟨f, rfl⟩ := hfits
    obtain ⟨m, rfl, hkinds, hvalues⟩ := h.some_left
    have hmem : i ∈ m.kinds := hkinds ▸ Set.mem_singleton i
    simp only [Change.follow, Option.map_some, if_pos hmem]
    refine ⟨hkinds, ?_⟩
    change Function.update m.values i (overlay values (m.values i)) i = overlay values f
    rw [Function.update_self, hvalues]
  | remove i =>
    obtain ⟨_, rfl⟩ := hfits
    obtain ⟨m, rfl, hkinds, -⟩ := h.some_left
    have hempty : m.kinds \ {i} = ∅ := by rw [hkinds, Set.sdiff_self]
    simp only [Change.follow, Option.bind_some, if_pos hempty]
    trivial

noncomputable def followAll (blank : ι → κ → ν) (changes : List (Change ι κ ν))
    (c : Option (Mirror ι κ ν)) : Option (Mirror ι κ ν) :=
  changes.foldl (fun c change => change.follow blank c) c

theorem followAll_append :
    followAll blank (changes ++ changes') c =
      followAll blank changes' (followAll blank changes c) :=
  List.foldl_append ..

theorem Agrees.followAll (h : Agrees c t) (hfits : Fitting blank t changes) :
    Agrees (followAll blank changes c) (applyAll blank changes t) := by
  induction changes generalizing c t with
  | nil => exact h
  | cons _ _ ih => exact ih (h.step hfits.1) hfits.2

theorem Between.add (h : Between s c none) (values : κ → Option ν) :
    Between s ((Change.add i values).follow blank c) ((Change.add i values).apply blank none) := by
  refine ⟨?_, fun j => ?_, ?_⟩
  · rintro _ ⟨⟩
    exact ⟨i, Set.mem_insert i _⟩
  · by_cases hj : j = i
    · subst hj
      exact .inl ⟨fun _ => rfl, fun _ => Set.mem_insert j _⟩
    · have hsame : j ∈ kindsOf ((Change.add i values).follow blank c) ↔ j ∈ kindsOf c := by
        cases c <;> exact Set.mem_insert_iff.trans (or_iff_right hj)
      rw [hsame]
      obtain hold | hold := h.kinds j
      · refine .inl ⟨fun hmem => ?_, fun heq => absurd (Option.some.inj heq).symm hj⟩
        cases hold.mp hmem
      · exact .inr hold
  · rintro _ j g ⟨⟩ hmem hs k
    by_cases hj : j = i
    · subst hj
      simp only [Function.update_self]
      cases c with
      | none => exact .inr ⟨_, rfl, rfl⟩
      | some m =>
        -- some kind of the copy is what the original will be, and that is this one
        have hold : j ∈ m.kinds := by
          obtain ⟨j', hj'⟩ := h.some_kind m rfl
          obtain hkind | hkind := h.kinds j'
          · cases hkind.mp hj'
          · have hkind' := hkind.mp hj'
            rw [hs] at hkind'
            cases hkind'
            exact hj'
        obtain heq | heq := overlay_eq
        · exact .inr ⟨_, rfl, heq⟩
        · obtain hg | ⟨_, hf, -⟩ := h.values m j g rfl hold hs k
          · exact .inl (heq.trans hg)
          · cases hf
    · simp only [Function.update_of_ne hj]
      have hold : j ∈ (c.getD ⟨∅, blank⟩).kinds := (Set.mem_insert_iff.mp hmem).resolve_left hj
      cases c with
      | none => exact hold.elim
      | some m =>
        obtain hg | ⟨_, hf, -⟩ := h.values m j g rfl hold hs k
        · exact .inl hg
        · cases hf

theorem Between.update (h : Between s c (some (i, f))) (values : κ → Option ν) :
    Between s ((Change.update i values).follow blank c)
      ((Change.update i values).apply blank (some (i, f))) := by
  cases c with
  | none => exact ⟨nofun, h.kinds, nofun⟩
  | some m =>
    by_cases hi : i ∈ m.kinds
    · simp only [Change.follow, Option.map_some, if_pos hi]
      refine ⟨?_, h.kinds, ?_⟩
      · rintro _ ⟨⟩
        exact h.some_kind m rfl
      · rintro _ j g ⟨⟩ hmem hs k
        have hold := h.values m j g rfl hmem hs k
        by_cases hj : j = i
        · subst hj
          simp only [Function.update_self]
          obtain heq | heq := overlay_eq
          · exact .inr ⟨_, rfl, heq⟩
          · obtain hg | ⟨_, hf, hvalue⟩ := hold
            · exact .inl (heq.trans hg)
            · cases hf
              refine .inr ⟨_, rfl, ?_⟩
              simp only [overlay, hvalue]
        · simp only [Function.update_of_ne hj]
          obtain hg | ⟨_, hf, -⟩ := hold
          · exact .inl hg
          · cases hf
            exact absurd rfl hj
    · simp only [Change.follow, Option.map_some, if_neg hi]
      refine ⟨h.some_kind, h.kinds, ?_⟩
      rintro _ j g ⟨⟩ hmem hs k
      obtain hg | ⟨_, hf, -⟩ := h.values m j g rfl hmem hs k
      · exact .inl hg
      · cases hf
        exact absurd hmem hi

theorem Between.remove (h : Between s c (some (i, f))) :
    Between s ((Change.remove i).follow blank c) none := by
  have hkinds : ∀ j, j ∈ kindsOf ((Change.remove i).follow blank c) ↔ j ∈ kindsOf c ∧ j ≠ i := by
    intro j
    cases c with
    | none => exact ⟨nofun, fun hj => hj.1.elim⟩
    | some m =>
      simp only [Change.follow, Option.bind_some]
      split
      · rename_i hempty
        refine ⟨nofun, fun hj => ?_⟩
        have hmem : j ∈ m.kinds \ {i} := hj
        rw [hempty] at hmem
        exact hmem
      · exact Iff.rfl
  have hvalues : ∀ m', (Change.remove i).follow blank c = some m' →
      ∃ m, c = some m ∧ m'.values = m.values ∧ m'.kinds = m.kinds \ {i} ∧ m.kinds \ {i} ≠ ∅ := by
    intro _ hm'
    cases c with
    | none => cases hm'
    | some m =>
      simp only [Change.follow, Option.bind_some] at hm'
      split at hm'
      · cases hm'
      · rename_i hsome
        cases hm'
        exact ⟨m, rfl, rfl, rfl, hsome⟩
  refine ⟨fun m' hm' => ?_, fun j => ?_, fun m' j g hm' hmem hs k => ?_⟩
  · obtain ⟨m, -, -, hkind, hsome⟩ := hvalues m' hm'
    rw [hkind]
    exact Set.nonempty_iff_ne_empty.mpr hsome
  · rw [hkinds]
    by_cases hj : j = i
    · exact .inl ⟨fun hmem => absurd hj hmem.2, nofun⟩
    · obtain hold | hold := h.kinds j
      · refine .inl ⟨fun hmem => ?_, nofun⟩
        exact absurd (Option.some.inj (hold.mp hmem.1)).symm hj
      · exact .inr ((and_iff_left hj).trans hold)
  · obtain ⟨m, hm, hvalue, hkind, -⟩ := hvalues m' hm'
    rw [hkind] at hmem
    rw [hvalue]
    obtain hg | ⟨_, hf, -⟩ := h.values m j g hm hmem.1 hs k
    · exact .inl hg
    · cases hf
      exact absurd rfl hmem.2

theorem Between.step (h : Between s c t) {change : Change ι κ ν} (hfits : change.Fits t) :
    Between s (change.follow blank c) (change.apply blank t) := by
  cases change with
  | add i values =>
    cases hfits
    exact h.add values
  | update i values =>
    obtain ⟨_, rfl⟩ := hfits
    exact h.update values
  | remove =>
    obtain ⟨_, rfl⟩ := hfits
    exact h.remove

/-- A copy that is told of changes it has seen the outcome of comes to that outcome again. -/
theorem Agrees.replay (h : Agrees c (applyAll blank changes t)) (hfits : Fitting blank t changes) :
    Agrees (Library.followAll blank changes c) (applyAll blank changes t) := by
  have hrun : ∀ {s changes c t}, Between s c t → Fitting blank t changes →
      Between s (Library.followAll blank changes c) (applyAll blank changes t) := by
    intro s changes c t hbetween hfits
    induction changes generalizing c t with
    | nil => exact hbetween
    | cons _ _ ih => exact ih (hbetween.step hfits.1) hfits.2
  exact (hrun h.between hfits).agrees

end Replica

end Inkwell.Library
