import Inkwell.Runtime.Loop

namespace Inkwell.Runtime
open List Function

variable {k k' k₀ k₁ : Kernel}

/-- What the kernel holds under a key: epoll keys by descriptor, kqueue by descriptor and filter. -/
def Kernel.under (k : Kernel) (fd : Int) (key : Option Filter) : List Interest :=
  k.interest.filter fun i => i.fd == fd && i.filter == key

theorem Kernel.mem_under {k : Kernel} {i : Interest} :
    i ∈ k.interest ↔ i ∈ k.under i.fd i.filter := by
  simp [Kernel.under]

theorem Kernel.holds_iff : k.holds fd key ↔ k.under fd key ≠ [] := by
  simp [Kernel.holds, Kernel.under, filter_eq_nil_iff]

def Kernel.Sets (k k' : Kernel) (fd : Int) (key : Option Filter) (held : List Interest) : Prop :=
  ∀ fd' key', k'.under fd' key' = if fd' = fd ∧ key' = key then held else k.under fd' key'

theorem Kernel.sets_drop (k : Kernel) (fd : Int) (key : Option Filter)
    (answers : List (Option Errno)) : k.Sets ⟨k.drop fd key, answers⟩ fd key [] := by
  intro _ _
  simp only [Kernel.under, Kernel.drop, filter_filter]
  split
  · rename_i hkey
    obtain ⟨rfl, rfl⟩ := hkey
    simp
  · exact filter_congr (by grind)

theorem Kernel.sets_put (k : Kernel) (i : Interest) (answers : List (Option Errno)) :
    k.Sets ⟨i :: k.drop i.fd i.filter, answers⟩ i.fd i.filter [i] := by
  intro fd key
  have hdrop := k.sets_drop i.fd i.filter answers fd key
  simp only [Kernel.under, filter_cons] at hdrop ⊢
  by_cases hkey : fd = i.fd ∧ key = i.filter
  · obtain ⟨rfl, rfl⟩ := hkey
    simpa using hdrop
  · have hmiss : (i.fd == fd && i.filter == key) = false := by grind
    rw [hmiss, if_neg Bool.false_ne_true, hdrop, if_neg hkey, if_neg hkey]

def Kernel.grants (k : Kernel) (n : Nat) : Bool := (k.answers.take n).all (· == none)

theorem Kernel.grants_answer (h : k.grants (n + 1)) :
    k.answer = (none, { k with answers := k.answers.tail }) ∧
      Kernel.grants { k with answers := k.answers.tail } n := by
  cases ha : k.answers with
  | nil => simp [Kernel.answer, Kernel.grants, ha]
  | cons =>
    simp only [Kernel.grants, ha, take_succ_cons, all_cons, Bool.and_eq_true, beq_iff_eq] at h
    exact ⟨by simp [Kernel.answer, ha, h.1], h.2⟩

def filterInterest (fd : Int) (slot : Slot) (events : Mask) (f : Filter) : List Interest :=
  if wants events f then [⟨fd, some f, f.bit, slot⟩] else []

def registration (b : Backend) (s : Source κ) (slot : Slot) (key : Option Filter) : List Interest :=
  match b, key with
  | .epoll, none => [⟨s.fd, none, s.events, slot⟩]
  | .kqueue, some f => filterInterest s.fd slot s.events f
  | _, _ => []

def registrations (b : Backend) (s : Source κ) (slot : Slot) : List Interest :=
  [none, some .read, some .write].flatMap (registration b s slot)

theorem registration_key (h : i ∈ registration b (s : Source κ) slot key) :
    i.fd = s.fd ∧ i.filter = key := by
  unfold registration at h
  split at h
  · simp_all
  · unfold filterInterest at h
    split at h <;> simp_all
  · cases h

theorem mem_registrations : i ∈ registrations b s slot ↔ i ∈ registration b s slot i.filter := by
  refine ⟨fun h => ?_, fun h => mem_flatMap.mpr ⟨i.filter, ?_, h⟩⟩
  · obtain ⟨_, -, h⟩ := mem_flatMap.mp h
    rwa [(registration_key h).2]
  · obtain _ | _ | _ := i.filter <;> simp

def Kernel.Same (k k' : Kernel) : Prop := ∀ fd key, k'.under fd key = k.under fd key

theorem Kernel.Sets.own (h : k.Sets k' fd key held) : k'.under fd key = held := by
  simpa using h fd key

theorem Kernel.Sets.other (h : k.Sets k' fd key held)
    (hne : ¬(fd' = fd ∧ key' = key)) : k'.under fd' key' = k.under fd' key' := by
  simpa [hne] using h fd' key'

theorem kqueueChange_failed (h : kqueueChange k fd f add slot = (some e, k')) : k.Same k' := by
  unfold kqueueChange Kernel.answer at h
  cases ha : k.answers.head?.join with
  | some =>
    simp only [ha] at h
    cases h
    exact fun _ _ => rfl
  | none =>
    simp only [ha] at h
    split at h
    · cases h
    · split at h
      · cases h
      · cases h
        exact fun _ _ => rfl

theorem kqueueChange_done (h : kqueueChange k fd f (wants now f) slot = (none, k')) :
    k.Sets k' fd (some f) (filterInterest fd slot now f) := by
  unfold kqueueChange Kernel.answer at h
  cases ha : k.answers.head?.join with
  | some =>
    simp only [ha] at h
    cases h
  | none =>
    simp only [ha] at h
    split at h
    · rename_i hadd
      cases h
      rw [filterInterest, if_pos hadd]
      exact k.sets_put ⟨fd, some f, f.bit, slot⟩ _
    · rename_i hadd
      split at h
      · cases h
        rw [filterInterest, if_neg hadd]
        exact k.sets_drop fd (some f) _
      · cases h

theorem kqueueChange_granted (hg : k.grants (n + 1)) (hheld : add = false → k.holds fd (some f)) :
    ∃ k', kqueueChange k fd f add slot = (none, k') ∧ k'.grants n := by
  obtain ⟨ha, hn⟩ := Kernel.grants_answer hg
  unfold kqueueChange
  simp only [ha]
  cases add with
  | true => exact ⟨_, rfl, hn⟩
  | false =>
    have hh : Kernel.holds { k with answers := k.answers.tail } fd (some f) := hheld rfl
    simp only [hh, if_true, Bool.false_eq_true, if_false]
    exact ⟨_, rfl, hn⟩

/-- When a change fails, the calls that undo those `applied` are not refused. -/
def undoGranted (fd : Int) (slot : Slot) (was now : Mask) (applied : List Filter) :
    List Filter → Kernel → Bool
  | [], _ => true
  | f :: fs, k =>
    if wants was f = wants now f then undoGranted fd slot was now applied fs k
    else
      match kqueueChange k fd f (wants now f) slot with
      | (some _, k) => k.grants applied.length
      | (none, k) => undoGranted fd slot was now (applied ++ [f]) fs k

def Kernel.Watches (k : Kernel) (fd : Int) (slot : Slot) (events : Mask)
    (fs : List Filter) : Prop :=
  ∀ f ∈ fs, k.under fd (some f) = filterInterest fd slot events f

def Kernel.Apart (k k' : Kernel) (fd : Int) (fs : List Filter) : Prop :=
  ∀ fd' key, ¬(fd' = fd ∧ ∃ f ∈ fs, key = some f) → k'.under fd' key = k.under fd' key

theorem Kernel.Watches.sets (h : k.Watches fd slot events fs)
    (hs : k.Sets k' fd (some f) held) (hf : f ∉ fs) : k'.Watches fd slot events fs := by
  intro g hg
  rw [hs.other fun hc => hf (Option.some.inj hc.2 ▸ hg)]
  exact h g hg

theorem Kernel.Watches.holds (h : k.Watches fd slot events fs) (hf : f ∈ fs)
    (hw : wants events f) : k.holds fd (some f) := by
  rw [Kernel.holds_iff, h f hf, filterInterest, if_pos hw]
  exact cons_ne_nil _ _

theorem undo_spec (hnodup : fs.Nodup) (k : Kernel) (hg : k.grants fs.length)
    (hw : k.Watches fd slot now fs) (hdiff : ∀ f ∈ fs, wants was f ≠ wants now f) :
    let k' := fs.foldl (fun k f => (kqueueChange k fd f (wants was f) slot).2) k
    k'.Watches fd slot was fs ∧ k.Apart k' fd fs := by
  induction fs generalizing k with
  | nil => exact ⟨fun f hf => (not_mem_nil hf).elim, fun _ _ _ => rfl⟩
  | cons f fs ih =>
    obtain ⟨hf, hnodup⟩ := nodup_cons.mp hnodup
    have hheld : wants was f = false → k.holds fd (some f) := fun hwas =>
      hw.holds mem_cons_self (by simpa [hwas] using hdiff f mem_cons_self)
    obtain ⟨k₁, hchange, hg₁⟩ := kqueueChange_granted hg hheld
    have hsets := kqueueChange_done hchange
    have hw₁ : k₁.Watches fd slot now fs :=
      Kernel.Watches.sets (fun g hg => hw g (mem_cons_of_mem f hg)) hsets hf
    obtain ⟨hwas, hapart⟩ := ih hnodup k₁ hg₁ hw₁ fun g hg => hdiff g (mem_cons_of_mem f hg)
    have hk₁ : (kqueueChange k fd f (wants was f) slot).2 = k₁ := by rw [hchange]
    rw [foldl_cons, hk₁]
    constructor
    · intro g hg
      obtain rfl | hg := mem_cons.mp hg
      · rw [hapart fd (some g) fun ⟨_, f', hf', he⟩ => hf (Option.some.inj he ▸ hf')]
        exact hsets.own
      · exact hwas g hg
    · intro fd' key hne
      rw [hapart fd' key fun ⟨hfd, g, hg, he⟩ => hne ⟨hfd, g, mem_cons_of_mem f hg, he⟩]
      exact hsets.other fun hc => hne ⟨hc.1, f, mem_cons_self, hc.2⟩

structure Applies (k₀ k : Kernel) (fd : Int) (slot : Slot) (now : Mask) (fs : List Filter)
    (r : Option Errno × Kernel) : Prop where
  made : r.1 = none → r.2.Watches fd slot now fs ∧ k.Apart r.2 fd fs
  undone : r.1 ≠ none → k₀.Same r.2

theorem Applies.cons (h : Applies k₀ k₁ fd slot now fs r) (hf : f ∉ fs)
    (hown : k₁.under fd (some f) = filterInterest fd slot now f)
    (hother : ∀ fd' key, ¬(fd' = fd ∧ key = some f) → k₁.under fd' key = k.under fd' key) :
    Applies k₀ k fd slot now (f :: fs) r := by
  refine ⟨fun hr => ?_, h.undone⟩
  obtain ⟨hw, ha⟩ := h.made hr
  constructor
  · intro g hg
    obtain rfl | hg := mem_cons.mp hg
    · rw [ha fd (some g) fun ⟨_, f', hf', he⟩ => hf (Option.some.inj he ▸ hf')]
      exact hown
    · exact hw g hg
  · intro fd' key hne
    rw [ha fd' key fun ⟨hfd, g, hg, hkey⟩ => hne ⟨hfd, g, mem_cons_of_mem f hg, hkey⟩]
    exact hother fd' key fun hc => hne ⟨hc.1, f, mem_cons_self, hc.2⟩

theorem kqueueApplyFrom_applies (applied : List Filter) (k : Kernel)
    (hnodup : (applied ++ fs).Nodup) (hbefore : k₀.Watches fd slot was applied)
    (happlied : k.Watches fd slot now applied) (hleft : k.Watches fd slot was fs)
    (hdiff : ∀ f ∈ applied, wants was f ≠ wants now f) (hapart : k₀.Apart k fd applied)
    (hundo : undoGranted fd slot was now applied fs k) :
    Applies k₀ k fd slot now fs (kqueueApplyFrom fd slot was now applied fs k) := by
  induction fs generalizing applied k with
  | nil =>
    refine ⟨fun _ => ⟨fun f hf => (not_mem_nil hf).elim, fun _ _ _ => rfl⟩, fun h => ?_⟩
    exact absurd rfl h
  | cons f fs ih =>
    have hf : f ∉ applied := fun h => (nodup_append.mp hnodup).2.2 f h f mem_cons_self rfl
    have hfs : f ∉ fs := (nodup_cons.mp (nodup_append.mp hnodup).2.1).1
    have htail : k.Watches fd slot was fs := fun g hg => hleft g (mem_cons_of_mem f hg)
    rw [kqueueApplyFrom]
    rw [undoGranted] at hundo
    by_cases hsame : wants was f = wants now f
    · rw [if_pos hsame]
      rw [if_pos hsame] at hundo
      have hrest :=
        ih applied k (hnodup.sublist (by simp)) hbefore happlied htail hdiff hapart hundo
      refine hrest.cons hfs ?_ fun _ _ _ => rfl
      rw [hleft f mem_cons_self, filterInterest, filterInterest, hsame]
    · rw [if_neg hsame]
      rw [if_neg hsame] at hundo
      cases hchange : kqueueChange k fd f (wants now f) slot with
      | mk result k₁ =>
        rw [hchange] at hundo
        cases result with
        | some =>
          -- what was applied is undone and the rest was never touched
          refine ⟨nofun, fun _ => ?_⟩
          have hfailed := kqueueChange_failed hchange
          have hw : k₁.Watches fd slot now applied := fun g hg =>
            (hfailed fd (some g)).trans (happlied g hg)
          obtain ⟨hwas, ha⟩ := undo_spec (nodup_append.mp hnodup).1 k₁ hundo hw hdiff
          intro fd' key
          by_cases hkey : fd' = fd ∧ ∃ g ∈ applied, key = some g
          · obtain ⟨rfl, g, hg, rfl⟩ := hkey
            rw [hwas g hg, hbefore g hg]
          · rw [ha fd' key hkey, hfailed fd' key, hapart fd' key hkey]
        | none =>
          have hsets := kqueueChange_done hchange
          have hmem : ∀ g ∈ applied ++ [f], g ∈ applied ∨ g = f := fun g hg => by simpa using hg
          have hrest := ih (applied ++ [f]) k₁ (by simpa using hnodup) ?_ ?_ (htail.sets hsets hfs)
            ?_ ?_ hundo
          · exact hrest.cons hfs hsets.own fun _ _ => hsets.other
          · intro g hg
            obtain hg | rfl := hmem g hg
            · exact hbefore g hg
            · rw [← hapart fd (some g) fun ⟨_, f', hf', he⟩ => hf (Option.some.inj he ▸ hf')]
              exact hleft g mem_cons_self
          · intro g hg
            obtain hg | rfl := hmem g hg
            · exact happlied.sets hsets hf g hg
            · exact hsets.own
          · intro g hg
            obtain hg | rfl := hmem g hg
            · exact hdiff g hg
            · exact hsame
          · intro fd' key hne
            rw [hsets.other fun hc => hne ⟨hc.1, f, by simp, hc.2⟩]
            exact hapart fd' key fun ⟨hfd, g, hg, hkey⟩ => hne ⟨hfd, g, mem_append_left _ hg, hkey⟩

theorem kqueueApply_applies (h : k.Watches fd slot was [.read, .write])
    (hundo : undoGranted fd slot was now [] [.read, .write] k) :
    Applies k k fd slot now [.read, .write] (kqueueApply k fd slot was now) :=
  kqueueApplyFrom_applies [] k (by decide) nofun nofun h nofun
    (fun _ _ _ => rfl) hundo

theorem kqueueApplyFrom_granted (applied : List Filter) (k : Kernel) (hnodup : fs.Nodup)
    (hleft : k.Watches fd slot was fs) (hg : k.grants (fs.countP (wants was)) = true) :
    (kqueueApplyFrom fd slot was 0 applied fs k).1 = none ∧
      undoGranted fd slot was 0 applied fs k := by
  induction fs generalizing applied k with
  | nil => exact ⟨rfl, rfl⟩
  | cons f fs ih =>
    obtain ⟨hf, hnodup⟩ := nodup_cons.mp hnodup
    have htail : k.Watches fd slot was fs := fun g hg => hleft g (mem_cons_of_mem f hg)
    have hzero : wants 0 f = false := by cases f <;> rfl
    rw [kqueueApplyFrom, undoGranted, hzero]
    cases hwas : wants was f with
    | false =>
      rw [countP_cons_of_neg (by simp [hwas])] at hg
      simpa using ih applied k hnodup htail hg
    | true =>
      rw [countP_cons_of_pos hwas] at hg
      obtain ⟨k₁, hchange, hg₁⟩ : ∃ k₁, kqueueChange k fd f false slot = (none, k₁) ∧
          k₁.grants (fs.countP (wants was)) = true :=
        kqueueChange_granted hg fun _ => hleft.holds mem_cons_self hwas
      have hsets : k.Sets k₁ fd (some f) (filterInterest fd slot 0 f) :=
        kqueueChange_done (by rw [hzero]; exact hchange)
      simpa [hchange] using ih (applied ++ [f]) k₁ hnodup (htail.sets hsets hf) hg₁

def registrationAt (b : Backend) (slot : Slot) (entry : Option (Source κ)) (key : Option Filter) :
    List Interest :=
  entry.elim [] fun s => registration b s slot key

structure Kernel.Takes (b : Backend) (k k' : Kernel) (fd : Int) (slot : Slot)
    (entry : Option (Source κ)) : Prop where
  own : ∀ key, k'.under fd key = registrationAt b slot entry key
  other : ∀ fd' ≠ fd, ∀ key, k'.under fd' key = k.under fd' key

theorem epollCtl_failed (h : (epollCtl k op fd events slot).1 ≠ none) :
    k.Same (epollCtl k op fd events slot).2 := by
  unfold epollCtl Kernel.answer at h ⊢
  cases ha : k.answers.head?.join with
  | some => exact fun _ _ => rfl
  | none =>
    simp only [ha] at h ⊢
    split at h <;> first | exact absurd rfl h | exact fun _ _ => rfl

theorem epollCtl_set (hop : op = .add ∨ op = .mod) (h : (epollCtl k op fd events slot).1 = none) :
    k.Sets (epollCtl k op fd events slot).2 fd none [⟨fd, none, events, slot⟩] := by
  unfold epollCtl Kernel.answer at h ⊢
  cases ha : k.answers.head?.join with
  | some => simp [ha] at h
  | none =>
    simp only [ha] at h ⊢
    have hput := k.sets_put ⟨fd, none, events, slot⟩ k.answers.tail
    cases hh : Kernel.holds { k with answers := k.answers.tail } fd none with
    | true =>
      obtain rfl | rfl := hop
      · simp [hh] at h
      · exact hput
    | false =>
      obtain rfl | rfl := hop
      · have hall : k.drop fd none = k.interest := by
          rw [Kernel.drop, filter_eq_self]
          intro i hi
          rw [Bool.not_eq_true', Bool.eq_false_iff]
          exact any_eq_false.mp hh i hi
        rw [hall] at hput
        exact hput
      · simp [hh] at h

theorem epollCtl_del (hg : k.grants 1) (hheld : k.holds fd none) :
    (epollCtl k .del fd events slot).1 = none ∧
      k.Sets (epollCtl k .del fd events slot).2 fd none [] := by
  obtain ⟨ha, -⟩ := Kernel.grants_answer hg
  have hh : Kernel.holds { k with answers := k.answers.tail } fd none := hheld
  unfold epollCtl
  simp only [ha, hh]
  exact ⟨trivial, k.sets_drop fd none _⟩

theorem takes_of_epoll {entry : Option (Source κ)} (hkq : ∀ f, k.under fd (some f) = [])
    (h : k.Sets k' fd none (registrationAt .epoll slot entry none)) :
    k.Takes .epoll k' fd slot entry := by
  refine ⟨fun key => ?_, fun fd hfd key => h.other fun hc => hfd hc.1⟩
  cases key with
  | none => exact h.own
  | some f => cases entry <;> exact (h.other (by simp)).trans (hkq f)

theorem takes_of_kqueue {entry : Option (Source κ)} (hep : k.under fd none = [])
    (hw : ∀ f ∈ [.read, .write], k'.under fd (some f) = registrationAt .kqueue slot entry (some f))
    (ha : k.Apart k' fd [.read, .write]) : k.Takes .kqueue k' fd slot entry := by
  refine ⟨fun key => ?_, fun fd hfd key => ha fd key fun hc => hfd hc.1⟩
  cases key with
  | none => cases entry <;> exact (ha fd none (by simp)).trans hep
  | some f => exact hw f (by cases f <;> simp)

theorem watches_of_registration {s : Source κ}
    (h : ∀ key, k.under s.fd key = registration .kqueue { s with events := was } slot key) :
    k.Watches s.fd slot was [.read, .write] :=
  fun f _ => h (some f)

theorem watches_of_empty (h : ∀ key, k.under fd key = []) :
    k.Watches fd slot 0 [.read, .write] := by
  intro f _
  rw [h (some f)]
  cases f <;> rfl

theorem backendAdd_spec {s : Source κ} (hempty : ∀ key, k.under s.fd key = [])
    (hundo : b = .kqueue → undoGranted s.fd slot 0 s.events [] [.read, .write] k) :
    ((backendAdd b k s slot).1 = none → k.Takes b (backendAdd b k s slot).2 s.fd slot (some s)) ∧
      ((backendAdd b k s slot).1 ≠ none → k.Same (backendAdd b k s slot).2) := by
  cases b with
  | epoll =>
    exact ⟨fun h => takes_of_epoll (fun f => hempty (some f)) (epollCtl_set (.inl rfl) h),
      epollCtl_failed⟩
  | kqueue =>
    have h := kqueueApply_applies (watches_of_empty hempty) (hundo rfl)
    exact ⟨fun hr => takes_of_kqueue (hempty none) (h.made hr).1 (h.made hr).2, h.undone⟩

theorem backendUpdate_spec {s : Source κ}
    (hheld : ∀ key, k.under s.fd key = registration b { s with events := was } slot key)
    (hundo : b = .kqueue → undoGranted s.fd slot was s.events [] [.read, .write] k) :
    ((backendUpdate b k s slot was).1 = none →
        k.Takes b (backendUpdate b k s slot was).2 s.fd slot (some s)) ∧
      ((backendUpdate b k s slot was).1 ≠ none → k.Same (backendUpdate b k s slot was).2) := by
  cases b with
  | epoll =>
    exact ⟨fun h => takes_of_epoll (fun f => hheld (some f)) (epollCtl_set (.inr rfl) h),
      epollCtl_failed⟩
  | kqueue =>
    have h := kqueueApply_applies (watches_of_registration hheld) (hundo rfl)
    exact ⟨fun hr => takes_of_kqueue (hheld none) (h.made hr).1 (h.made hr).2, h.undone⟩

theorem length_registrations_kqueue :
    (registrations .kqueue s slot).length = [Filter.read, .write].countP (wants s.events) := by
  simp only [registrations, registration, filterInterest, flatMap_cons, flatMap_nil,
    countP_cons, countP_nil]
  cases wants s.events .read <;> cases wants s.events .write <;> rfl

theorem backendRemove_spec {s : Source κ}
    (hheld : ∀ key, k.under s.fd key = registration b s slot key)
    (hg : k.grants (registrations b s slot).length) :
    (backendRemove b k s slot).1 = none ∧
      k.Takes b (backendRemove b k s slot).2 s.fd slot (none : Option (Source κ)) := by
  cases b with
  | epoll =>
    have hholds : k.holds s.fd none := by
      rw [Kernel.holds_iff, hheld none]
      exact cons_ne_nil _ _
    obtain ⟨hr, hs⟩ := epollCtl_del hg hholds
    exact ⟨hr, takes_of_epoll (fun f => hheld (some f)) hs⟩
  | kqueue =>
    have hw := watches_of_registration hheld
    rw [length_registrations_kqueue] at hg
    obtain ⟨hr, hundo⟩ := kqueueApplyFrom_granted [] k (by decide) hw hg
    obtain ⟨hw', ha⟩ := (kqueueApply_applies hw hundo).made hr
    refine ⟨rfl, takes_of_kqueue (hheld none) (fun f hf => (hw' f hf).trans ?_) ha⟩
    cases f <;> rfl

variable {l l' : Loop κ} {history : List TableOp}

def Loop.entry (l : Loop κ) (slot : Slot) : Option (Source κ) :=
  if (l.sources slot).active then some (l.sources slot) else none

theorem Loop.entry_some : l.entry slot = some s ↔ (l.sources slot).active ∧ l.sources slot = s := by
  simp [Loop.entry]

theorem Loop.entry_set (l : Loop κ) :
    Loop.entry { l.set slot s with kernel := k, history := history } =
      update l.entry slot (if s.active then some s else none) := by
  funext i
  by_cases hi : i = slot
  · subst hi
    simp [Loop.entry]
  · simp [Loop.entry, Loop.set_other _ hi, hi]

/-- The active sources have descriptors of their own, and the kernel holds what they ask for. -/
structure InStep (b : Backend) (l : Loop κ) : Prop where
  distinct : ∀ i j s t, l.entry i = some s → l.entry j = some t → s.fd = t.fd → i = j
  held : ∀ slot s, l.entry slot = some s → ∀ key,
    l.kernel.under s.fd key = registration b s slot key
  unheld : ∀ fd, (∀ slot s, l.entry slot = some s → s.fd ≠ fd) → ∀ key, l.kernel.under fd key = []

def LoopCall.result (b : Backend) (l : Loop κ) : LoopCall κ → Option Errno
  | .addFd fd events callback => (Runtime.addFd b l fd events callback).1
  | .updateFd fd events => (Runtime.updateFd b l fd events).1
  | .removeFd fd => (Runtime.removeFd b l fd).1

/-- The kernel refuses no call that undoes another and none that removes what it holds. -/
def LoopCall.granted (b : Backend) (l : Loop κ) : LoopCall κ → Bool
  | .addFd fd events callback =>
    fd < 0 || callback.isNone || (findSourceIndex l fd).isSome || b == .epoll ||
      match freeSlot l with
      | none => true
      | some slot => undoGranted fd slot 0 events [] [.read, .write] l.kernel
  | .updateFd fd events =>
    b == .epoll ||
      match findSourceIndex l fd with
      | none => true
      | some slot => undoGranted fd slot (l.sources slot).events events [] [.read, .write] l.kernel
  | .removeFd fd =>
    match findSourceIndex l fd with
    | none => true
    | some slot => l.kernel.grants (registrations b (l.sources slot) slot).length

/-- What a call may do: nothing that shows when it fails, and both copies stay in step. -/
structure Kept (b : Backend) (l l' : Loop κ) (result : Option Errno) : Prop where
  inStep : InStep b l'
  failed : result ≠ none → l'.entry = l.entry ∧ l.kernel.Same l'.kernel

theorem findSourceIndex_none (h : findSourceIndex l fd = none) (slot : Slot)
    (s : Source κ) (hs : l.entry slot = some s) : s.fd ≠ fd := by
  obtain ⟨ha, rfl⟩ := Loop.entry_some.mp hs
  have hne := find?_eq_none.mp h slot (mem_finRange slot)
  simpa [ha] using hne

theorem InStep.same (h : InStep b l) (he : l'.entry = l.entry)
    (hk : l.kernel.Same l'.kernel) : InStep b l' := by
  refine ⟨?_, fun slot s hs key => ?_, fun fd hfd key => ?_⟩
  · rw [he]
    exact h.distinct
  · rw [he] at hs
    rw [hk, h.held slot s hs]
  · rw [he] at hfd
    rw [hk, h.unheld fd hfd]

theorem Kept.unchanged (h : InStep b l) : Kept b l l result := ⟨h, fun _ => ⟨rfl, fun _ _ => rfl⟩⟩

theorem InStep.put (h : InStep b l) (he : l'.entry = update l.entry slot entry)
    (hfd : ∀ i ≠ slot, ∀ s, l.entry i = some s → s.fd ≠ fd)
    (hold : ∀ s, l.entry slot = some s → s.fd = fd) (hnew : ∀ s, entry = some s → s.fd = fd)
    (ht : l.kernel.Takes b l'.kernel fd slot entry) : InStep b l' := by
  have hown : l'.entry slot = entry := by rw [he, update_self]
  have hother {i} (hi : i ≠ slot) : l'.entry i = l.entry i := by rw [he, update_of_ne hi]
  have hslot : ∀ i s, l'.entry i = some s → (s.fd = fd ↔ i = slot) := by
    intro i s hs
    by_cases hi : i = slot
    · subst hi
      exact iff_of_true (hnew s (hown.symm.trans hs)) rfl
    · exact iff_of_false (hfd i hi s ((hother hi).symm.trans hs)) hi
  refine ⟨fun i j s t hs ht hst => ?_, fun i s hs key => ?_, fun fd' hne key => ?_⟩
  · have hij : i = slot ↔ j = slot := by rw [← hslot i s hs, ← hslot j t ht, hst]
    by_cases hi : i = slot
    · exact hi.trans (hij.mp hi).symm
    · exact h.distinct i j s t ((hother hi).symm.trans hs)
        ((hother (hij.not.mp hi)).symm.trans ht) hst
  · by_cases hi : i = slot
    · subst hi
      obtain rfl := hown.symm.trans hs
      rw [hnew s rfl]
      exact ht.own key
    · rw [ht.other _ ((hslot i s hs).not.mpr hi), h.held i s ((hother hi).symm.trans hs)]
  · by_cases hfd' : fd' = fd
    · subst hfd'
      rw [ht.own]
      cases entry with
      | none => rfl
      | some s => exact absurd (hnew s rfl) (hne slot s hown)
    · rw [ht.other fd' hfd']
      refine h.unheld fd' (fun i s hs heq => ?_) key
      by_cases hi : i = slot
      · subst hi
        exact hfd' (heq.symm.trans (hold s hs))
      · exact hne i s ((hother hi).trans hs) heq

theorem addFd_kept (h : InStep b l) (hg : (LoopCall.addFd fd events callback).granted b l) :
    Kept b l (addFd b l fd events callback).2 (addFd b l fd events callback).1 := by
  unfold addFd
  split
  · exact .unchanged h
  rename_i hargs
  split
  · exact .unchanged h
  rename_i hfind
  have hnone : findSourceIndex l fd = none := by simpa using hfind
  split
  · exact .unchanged h
  rename_i slot hslot
  have hfree := freeSlot_inactive hslot
  have hundo : b = .kqueue → undoGranted fd slot 0 events [] [.read, .write] l.kernel := by
    rintro rfl
    simpa [LoopCall.granted, hargs, hfind, hslot] using hg
  have hnone' : l.entry slot = none := if_neg (by simp [hfree])
  have hunused := findSourceIndex_none hnone
  have hempty : ∀ key, l.kernel.under fd key = [] := h.unheld fd hunused
  simp only
  cases hr : backendAdd b l.kernel { fd, events, callback, active := true } slot with
  | mk result k =>
    have hspec := backendAdd_spec (s := { fd, events, callback, active := true }) hempty hundo
    rw [hr] at hspec
    cases result with
    | some =>
      have hsame : l.kernel.Same k := hspec.2 nofun
      have hentry :
          Loop.entry { l.set slot { fd, events, callback, active := false } with kernel := k } =
          l.entry := by
        rw [Loop.entry_set, update_eq_self_iff]
        exact hnone'.symm
      exact ⟨h.same hentry hsame, fun _ => ⟨hentry, hsame⟩⟩
    | none =>
      refine ⟨h.put (l.entry_set) (fun i _ => hunused i) (fun s hs => ?_) ?_ (hspec.1 rfl),
        fun hne => absurd rfl hne⟩
      · cases hs.symm.trans hnone'
      · rintro s ⟨⟩
        rfl

theorem updateFd_kept (h : InStep b l)
    (hg : (LoopCall.updateFd fd events : LoopCall κ).granted b l) :
    Kept b l (updateFd b l fd events).2 (updateFd b l fd events).1 := by
  unfold updateFd
  split
  · exact .unchanged h
  rename_i slot hslot
  obtain ⟨ha, rfl⟩ := findSourceIndex_active hslot
  have hentry := Loop.entry_some.mpr ⟨ha, rfl⟩
  have hundo : b = .kqueue → undoGranted (l.sources slot).fd slot (l.sources slot).events events []
      [.read, .write] l.kernel := by
    rintro rfl
    simpa [LoopCall.granted, hslot] using hg
  simp only
  cases hr : backendUpdate b l.kernel { l.sources slot with events } slot
    (l.sources slot).events with
  | mk result k =>
    have hspec := backendUpdate_spec (s := { l.sources slot with events })
        (h.held slot (l.sources slot) hentry) hundo
    rw [hr] at hspec
    cases result with
    | some =>
      have hsame : l.kernel.Same k := hspec.2 nofun
      exact ⟨h.same rfl hsame, fun _ => ⟨rfl, hsame⟩⟩
    | none =>
      refine ⟨h.put l.entry_set (fun i hi s hs he => hi (h.distinct i slot s _ hs hentry he))
        (fun s hs => ?_) (fun s hs => ?_) ?_, fun hne => absurd rfl hne⟩
      · cases hs.symm.trans hentry
        rfl
      · rw [if_pos ha] at hs
        cases hs
        rfl
      · rw [if_pos ha]
        exact hspec.1 rfl

theorem removeFd_kept (h : InStep b l) (hg : (LoopCall.removeFd fd : LoopCall κ).granted b l) :
    Kept b l (removeFd b l fd).2 (removeFd b l fd).1 := by
  unfold removeFd
  split
  · exact .unchanged h
  rename_i slot hslot
  obtain ⟨ha, rfl⟩ := findSourceIndex_active hslot
  have hentry := Loop.entry_some.mpr ⟨ha, rfl⟩
  have hgrants : l.kernel.grants (registrations b (l.sources slot) slot).length := by
    simpa [LoopCall.granted, hslot] using hg
  obtain ⟨hr, htakes⟩ := backendRemove_spec (h.held slot _ hentry) hgrants
  cases he : backendRemove b l.kernel (l.sources slot) slot with
  | mk result =>
    rw [he] at hr htakes
    obtain rfl : result = none := hr
    refine ⟨h.put l.entry_set (fun i hi s hs he => hi (h.distinct i slot s _ hs hentry he))
      (fun s hs => ?_) nofun htakes, fun hne => absurd rfl hne⟩
    cases hs.symm.trans hentry
    rfl

theorem LoopCall.kept (h : InStep b l) (c : LoopCall κ) (hg : c.granted b l) :
    Kept b l (c.run b l) (c.result b l) := by
  cases c with
  | addFd => exact addFd_kept h hg
  | updateFd => exact updateFd_kept h hg
  | removeFd => exact removeFd_kept h hg

def callsGranted (b : Backend) (l : Loop κ) : List (LoopCall κ) → Bool
  | [] => true
  | c :: calls => c.granted b l && callsGranted b (c.run b l) calls

theorem InStep.run (h : InStep b l) (hg : callsGranted b l calls) :
    InStep b (runCalls b l calls) := by
  induction calls generalizing l with
  | nil => exact h
  | cons c _ ih =>
    rw [callsGranted, Bool.and_eq_true] at hg
    exact ih (c.kept h hg.1).inStep hg.2

def freshLoop (κ : Type) (answers : List (Option Errno)) : Loop κ := { kernel := { answers } }

theorem freshLoop_inStep : InStep b (freshLoop κ answers) := ⟨nofun, nofun, fun _ _ _ => rfl⟩

theorem InStep.mem_interest (h : InStep b l) :
    i ∈ l.kernel.interest ↔
      ∃ slot, (l.sources slot).active ∧ i ∈ registrations b (l.sources slot) slot := by
  rw [Kernel.mem_under]
  constructor
  · intro hi
    by_cases hfd : ∃ slot s, l.entry slot = some s ∧ s.fd = i.fd
    · obtain ⟨slot, s, hs, hfd⟩ := hfd
      rw [← hfd, h.held slot s hs] at hi
      obtain ⟨ha, rfl⟩ := Loop.entry_some.mp hs
      exact ⟨slot, ha, mem_registrations.mpr hi⟩
    · rw [h.unheld i.fd fun slot s hs he => hfd ⟨slot, s, hs, he⟩] at hi
      cases hi
  · rintro ⟨slot, ha, hi⟩
    have hmem := mem_registrations.mp hi
    rw [(registration_key hmem).1, h.held slot _ (Loop.entry_some.mpr ⟨ha, rfl⟩)]
    exact hmem

/-- After any calls the active sources have descriptors of their own and fit the table, the
kernel's set is what they ask for, and a call that fails changes neither. -/
theorem runCalls_inStep (b : Backend) (answers : List (Option Errno)) (calls : List (LoopCall κ))
    (hg : callsGranted b (freshLoop κ answers) calls) :
    let l := runCalls b (freshLoop κ answers) calls
    (∀ i j, (l.sources i).active → (l.sources j).active →
      (l.sources i).fd = (l.sources j).fd → i = j) ∧
    ((List.finRange maxSources).filter fun i => (l.sources i).active).length ≤ 32 ∧
    (∀ i, i ∈ l.kernel.interest ↔
      ∃ slot, (l.sources slot).active ∧ i ∈ registrations b (l.sources slot) slot) ∧
    (∀ c : LoopCall κ, c.granted b l → c.result b l ≠ none →
      (c.run b l).entry = l.entry ∧
      ∀ i, i ∈ (c.run b l).kernel.interest ↔ i ∈ l.kernel.interest) := by
  intro l
  have h : InStep b l := freshLoop_inStep.run hg
  refine ⟨fun i j hi hj => ?_, ?_, fun i => h.mem_interest, fun c hc hr => ?_⟩
  · exact h.distinct i j _ _ (Loop.entry_some.mpr ⟨hi, rfl⟩) (Loop.entry_some.mpr ⟨hj, rfl⟩)
  · refine (length_filter_le _ _).trans ?_
    simp
  · obtain ⟨he, hk⟩ := (c.kept h hc).failed hr
    refine ⟨he, fun i => ?_⟩
    rw [Kernel.mem_under, Kernel.mem_under, hk]

/-- The read filter was dropped when the write filter is refused, and both copies are as before. -/
theorem runCalls_inStep_undone :
    let answers := [none, none, some .enomem, none]
    let l := runCalls .kqueue (freshLoop Unit answers) [.addFd 5 IN (some ())]
    let c : LoopCall Unit := .updateFd 5 OUT
    c.result .kqueue l = some .enomem ∧ (c.run .kqueue l).entry = l.entry ∧
      ∀ i, i ∈ (c.run .kqueue l).kernel.interest ↔ i ∈ l.kernel.interest := by
  intro answers l c
  have hfails : c.result .kqueue l = some .enomem := by decide
  have h := runCalls_inStep .kqueue answers [.addFd 5 IN (some ())] (by decide)
  exact ⟨hfails, h.2.2.2 c (by decide) (by rw [hfails]; exact Option.some_ne_none _)⟩

end Inkwell.Runtime
