import Mathlib.Data.List.Basic

namespace Inkwell.Library

/-- A machine that reads one symbol at a time and emits output until it halts. -/
structure Machine (σ α β : Type) where
  step : σ → α → σ × List β
  halted : σ → Bool

/-- What reading some symbols leaves: the state, everything emitted and the number read. -/
@[ext] structure Outcome (σ β : Type) where
  state : σ
  output : List β
  used : Nat
  deriving DecidableEq

namespace Outcome

def stay (s : σ) : Outcome σ β := ⟨s, [], 0⟩

/-- Continue from where an outcome ended, adding up the output and the symbols read. -/
def andThen (o : Outcome σ β) (f : σ → Outcome σ β) : Outcome σ β :=
  let t := f o.state
  ⟨t.state, o.output ++ t.output, o.used + t.used⟩

@[simp] theorem stay_andThen : (stay s).andThen f = f s := by simp [stay, andThen]

@[simp] theorem andThen_stay (o : Outcome σ β) : o.andThen stay = o := by simp [stay, andThen]

theorem andThen_assoc (o : Outcome σ β) :
    (o.andThen f).andThen g = o.andThen fun s => (f s).andThen g := by
  simp [andThen, Nat.add_assoc]

end Outcome

namespace Machine

def run (m : Machine σ α β) : σ → List α → Outcome σ β
  | s, [] => .stay s
  | s, a :: as =>
    if m.halted s then .stay s
    else (⟨(m.step s a).1, (m.step s a).2, 1⟩ : Outcome σ β).andThen fun s' => m.run s' as

section
variable (m : Machine σ α β)

@[simp] theorem run_nil : m.run s [] = .stay s := rfl

theorem run_halted (h : m.halted s) : m.run s as = .stay s := by
  cases as with
  | nil => rfl
  | cons => simp [run, h]

theorem run_cons (h : m.halted s = false) : m.run s (a :: as) =
      (⟨(m.step s a).1, (m.step s a).2, 1⟩ : Outcome σ β).andThen fun s' => m.run s' as := by
  simp [run, h]

theorem run_append (s : σ) (as bs : List α) :
    m.run s (as ++ bs) = (m.run s as).andThen fun s' => m.run s' bs := by
  induction as generalizing s with
  | nil => simp
  | cons a _ ih =>
    cases h : m.halted s with
    | true => simp [run_halted m h]
    | false =>
      rw [List.cons_append, run_cons m h, run_cons m h, Outcome.andThen_assoc]
      simp only [ih]

theorem run_used_le (s : σ) (as : List α) : (m.run s as).used ≤ as.length := by
  induction as generalizing s with
  | nil => simp [Outcome.stay]
  | cons a _ ih =>
    cases h : m.halted s with
    | true => simp [run_halted m h, Outcome.stay]
    | false =>
      have hr := ih (m.step s a).1
      rw [run_cons m h]
      simp only [Outcome.andThen, List.length_cons]
      omega

theorem run_induction {I : σ → Prop} (hstep : ∀ s a, I s → m.halted s = false → I (m.step s a).1)
    (hs : I s) (as : List α) : I (m.run s as).state := by
  induction as generalizing s with
  | nil => exact hs
  | cons a _ ih =>
    cases h : m.halted s with
    | true => simpa [run_halted m h, Outcome.stay] using hs
    | false =>
      rw [run_cons m h]
      exact ih (hstep s a hs h)

/-- A relation of what was read, the state and what was emitted that every step keeps. -/
theorem run_record {I : List α → σ → List β → Prop}
    (hstep : ∀ as s out a, I as s out → m.halted s = false →
      I (as ++ [a]) (m.step s a).1 (out ++ (m.step s a).2))
    (h : I as s out) (bs : List α) :
    I (as ++ bs.take (m.run s bs).used) (m.run s bs).state (out ++ (m.run s bs).output) := by
  induction bs generalizing as s out with
  | nil => simpa [Outcome.stay] using h
  | cons b _ ih =>
    cases hs : m.halted s with
    | true => simpa [run_halted m hs, Outcome.stay] using h
    | false =>
      have hrest := ih (hstep as s out b h hs)
      rw [run_cons m hs]
      simpa [Outcome.andThen, Nat.add_comm 1] using hrest

end

/-- Each call of a bulk reader is a run over what it reads, and reads something if there is
something. -/
structure Feeds (m : Machine σ α β) (I : σ → Prop) (feed : σ → List α → Outcome σ β) : Prop where
  run_eq : ∀ s as, I s → feed s as = m.run s (as.take (feed s as).used)
  progress : ∀ s as, I s → m.halted s = false → as ≠ [] → 0 < (feed s as).used
  keeps : ∀ s a, I s → m.halted s = false → I (m.step s a).1

/-- Calls of a bulk reader until the piece is read or the machine has halted. -/
def drain (halted : σ → Bool) (feed : σ → List α → Outcome σ β) : Nat → σ → List α → Outcome σ β
  | 0, s, _ => .stay s
  | fuel + 1, s, as =>
    if as.isEmpty || halted s then .stay s
    else
      let r := feed s as
      r.andThen fun s' => drain halted feed fuel s' (as.drop r.used)

def drainPieces (halted : σ → Bool) (feed : σ → List α → Outcome σ β) :
    σ → List (List α) → Outcome σ β
  | s, [] => .stay s
  | s, p :: ps => (drain halted feed p.length s p).andThen fun s' => drainPieces halted feed s' ps

theorem drain_eq_run {m : Machine σ α β} (h : m.Feeds I feed) (hs : I s) (as : List α)
    (hf : as.length ≤ fuel) : drain m.halted feed fuel s as = m.run s as := by
  induction fuel generalizing s as with
  | zero =>
    have ha : as = [] := List.eq_nil_of_length_eq_zero (by omega)
    subst ha
    rfl
  | succ fuel ih =>
    by_cases ha : as = []
    · subst ha
      simp [drain]
    cases hh : m.halted s with
    | true => simp [drain, hh, run_halted m hh]
    | false =>
      have hr := h.run_eq s as hs
      have hp := h.progress s as hs hh ha
      have hI : I (feed s as).state := by
        rw [hr]
        exact run_induction m h.keeps hs _
      have hl : (as.drop (feed s as).used).length ≤ fuel := by
        rw [List.length_drop]
        omega
      have he : as.isEmpty = false := by simpa using ha
      simp only [drain, he, hh, Bool.or_self, Bool.false_eq_true, if_false]
      calc (feed s as).andThen (fun s' => drain m.halted feed fuel s' (as.drop (feed s as).used))
          = (feed s as).andThen fun s' => m.run s' (as.drop (feed s as).used) := by
            simp only [Outcome.andThen, ih hI _ hl]
        _ = (m.run s (as.take (feed s as).used)).andThen
              fun s' => m.run s' (as.drop (feed s as).used) := by rw [← hr]
        _ = m.run s as := by rw [← run_append, List.take_append_drop]

/-- However a stream is cut into pieces, draining them is one run over the stream. -/
theorem drainPieces_eq_run {m : Machine σ α β} (h : m.Feeds I feed) (hs : I s) :
    drainPieces m.halted feed s ps = m.run s ps.flatten := by
  induction ps generalizing s with
  | nil => rfl
  | cons p _ ih =>
    have hd := drain_eq_run h hs p (Nat.le_refl _)
    have hI : I (m.run s p).state := run_induction m h.keeps hs p
    rw [drainPieces, hd, List.flatten_cons, run_append]
    simp only [Outcome.andThen, ih hI]

end Machine
end Inkwell.Library
