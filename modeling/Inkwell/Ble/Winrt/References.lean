import Inkwell.Ble.Winrt

namespace Inkwell.Winrt
open Library List Function

def held (events : List Event) : List Nat := events.filterMap Event.completion

def Frame.holds : Frame → List Nat
  | .process events => held events
  | .apply event events => held (event :: events)
  | .close events => held events
  | .startOp c => [c]
  | .listen _ => []

def Frame.listens : Frame → List Nat
  | .listen l => [l]
  | _ => []

def Frame.closes : Frame → Bool
  | .close _ => true
  | _ => false

/-- The completions that a handler's call, the queue or the loop thread has references on, once
for each. -/
def Site.holding (s : Site) : List Nat :=
  s.invoking ++ (held s.hub.queue ++ s.frames.flatMap Frame.holds)

def Site.holders (s : Site) (c : Nat) : Nat := s.system c + s.holding.count c

def Site.listeningFor (s : Site) : List Nat := s.frames.flatMap Frame.listens

def Site.listenHolders (s : Site) (l : Nat) : Nat := s.systemListens l + s.listeningFor.count l

section Counts
variable {s t : Site}

def Kept (s : Site) : Prop :=
  Shared s.hub.count (if s.opened then 1 else 0) s.completions s.created s.holders s.listeners
    s.listening s.listenHolders

theorem Kept.same (h : Kept s) (hcount : t.hub.count = s.hub.count) (hopened : t.opened = s.opened)
    (hcompletions : t.completions = s.completions ∧ t.created = s.created)
    (hlisteners : t.listeners = s.listeners ∧ t.listening = s.listening)
    (hholders : t.holders = s.holders) (hlistens : t.listenHolders = s.listenHolders) : Kept t := by
  unfold Kept
  rw [hcount, hopened, hcompletions.1, hcompletions.2, hlisteners.1, hlisteners.2, hholders,
    hlistens]
  exact h

theorem completionRelease_eq : s.completionRelease c = { s with
      completions := update s.completions c (s.completions c).release
      hub := { s.hub with
        count := if (s.completions c).refs = 1 then s.hub.count.release else s.hub.count } } := by
  unfold Site.completionRelease
  split <;> rfl

theorem listenerRelease_eq : s.listenerRelease l = { s with
      listeners := update s.listeners l (s.listeners l).release
      hub := { s.hub with
        count := if (s.listeners l).refs = 1 then s.hub.count.release else s.hub.count } } := by
  unfold Site.listenerRelease
  split <;> rfl

/-- Only the innermost frame of the loop thread can be a close, and then the central has its own
reference. The hub is closed when the central is or is about to be, and then nothing is queued. -/
structure Orderly (s : Site) : Prop where
  innermost : ∀ frame ∈ s.frames.tail, frame.closes = false
  closing : ∀ frame ∈ s.frames, frame.closes → s.opened ∧ s.hub.closed
  closed : s.opened = false → s.hub.closed
  drained : s.hub.closed → s.hub.queue = []

theorem Orderly.atLarge (h : Orderly s) (hlarge : s.atLarge) :
    s.opened ∧ ∀ frame ∈ s.frames, frame.closes = false := by
  unfold Site.atLarge at hlarge
  rw [Bool.and_eq_true] at hlarge
  refine ⟨hlarge.1, fun frame hmem => ?_⟩
  have hinner := h.innermost
  have htop := hlarge.2
  cases hframes : s.frames with
  | nil =>
    rw [hframes] at hmem
    cases hmem
  | cons =>
    rw [hframes] at hmem hinner htop
    obtain rfl | htail := mem_cons.mp hmem
    · cases frame with
      | apply => rfl
      | _ => cases htop
    · exact hinner frame htail

theorem Orderly.push (h : Orderly s) (hlarge : s.atLarge) (hframes : t.frames = frame :: s.frames)
    (hopened : t.opened = s.opened) (hcloses : frame.closes → t.hub.closed)
    (hdrained : t.hub.closed → t.hub.queue = []) : Orderly t := by
  obtain ⟨hopen, hnone⟩ := h.atLarge hlarge
  have hopen' := hopened.trans hopen
  refine ⟨by rw [hframes]; exact hnone, ?_, fun hshut => ?_, hdrained⟩
  · rw [hframes]
    intro top hmem htop
    obtain rfl | hold := mem_cons.mp hmem
    · exact ⟨hopen', hcloses htop⟩
    · cases htop.symm.trans (hnone top hold)
  · cases hopen'.symm.trans hshut

theorem Orderly.turn (h : Orderly s) (hframes : s.frames = frame :: frames)
    (hcloses : frame'.closes → frame.closes) : Orderly { s with frames := frame' :: frames } := by
  have hinner := h.innermost
  have hclosing := h.closing
  rw [hframes] at hinner hclosing
  refine ⟨hinner, fun top hmem htop => ?_, h.closed, h.drained⟩
  obtain rfl | htail := mem_cons.mp hmem
  · exact hclosing frame mem_cons_self (hcloses htop)
  · exact hclosing top (mem_cons_of_mem _ htail) htop

theorem Orderly.pop (h : Orderly s) (hframes : s.frames = frame :: frames) :
    Orderly { s with frames } ∧ ∀ frame ∈ frames, frame.closes = false := by
  have hinner := h.innermost
  rw [hframes] at hinner
  refine ⟨⟨fun top hmem => hinner top (mem_of_mem_tail hmem), fun top hmem htop => ?_, h.closed,
    h.drained⟩, hinner⟩
  cases htop.symm.trans (hinner top hmem)

theorem completionRelease_orderly (h : Orderly s) : Orderly (s.completionRelease c) := by
  rw [completionRelease_eq]
  exact ⟨h.innermost, h.closing, h.closed, h.drained⟩

theorem listenerRelease_orderly (h : Orderly s) : Orderly (s.listenerRelease l) := by
  rw [listenerRelease_eq]
  exact ⟨h.innermost, h.closing, h.closed, h.drained⟩

theorem eventRelease_orderly (h : Orderly s) : Orderly (s.eventRelease event) := by
  unfold Site.eventRelease
  split
  · exact h
  · exact completionRelease_orderly h

theorem Orderly.proceed (h : Orderly s) : Orderly s.proceed := by
  unfold Site.proceed
  split
  · exact h
  · rename_i hframes
    exact (h.pop hframes).1
  · rename_i hframes
    exact h.turn hframes nofun
  · rename_i hframes
    exact eventRelease_orderly (h.turn hframes nofun)
  · rename_i hframes
    exact eventRelease_orderly (h.turn hframes fun _ => rfl)
  · rename_i hframes
    obtain ⟨hpopped, hnone⟩ := h.pop hframes
    refine ⟨hpopped.innermost, fun top hmem htop => ?_, fun _ => ?_, h.drained⟩
    · cases htop.symm.trans (hnone top hmem)
    · exact (h.closing (.close []) (hframes ▸ mem_cons_self) rfl).2
  · rename_i hframes
    exact completionRelease_orderly (h.pop hframes).1
  · rename_i hframes
    exact listenerRelease_orderly (h.pop hframes).1

theorem Orderly.hubPost (h : Orderly s) : Orderly (s.hubPost event) := by
  unfold Site.hubPost
  split
  · exact h
  · rename_i hopen
    exact ⟨h.innermost, h.closing, h.closed, fun hshut => absurd hshut hopen⟩

theorem Orderly.ite {p : Prop} [Decidable p] (h : Orderly s) (ht : p → Orderly t) :
    Orderly (if p then t else s) :=
  iteInduction ht fun _ => h

theorem Step.orderly (h : Orderly s) (step : Step) : Orderly (step.run s) := by
  cases step with
  | startOp | listen =>
    exact h.ite fun hmay => h.push (Bool.and_eq_true_iff.mp hmay).1 rfl rfl nofun h.drained
  | postAnswer | notify => exact h.ite fun _ => h.hubPost
  | process => exact h.ite fun hlarge => h.push hlarge rfl rfl nofun fun _ => rfl
  | close => exact h.ite fun hlarge => h.push hlarge rfl rfl (fun _ => rfl) fun _ => rfl
  | proceed => exact h.proceed
  | take | takeListener | invoke =>
    exact h.ite fun _ => ⟨h.innermost, h.closing, h.closed, h.drained⟩
  | release =>
    refine h.ite fun _ => completionRelease_orderly ?_
    exact ⟨h.innermost, h.closing, h.closed, h.drained⟩
  | releaseListener =>
    refine h.ite fun _ => listenerRelease_orderly ?_
    exact ⟨h.innermost, h.closing, h.closed, h.drained⟩
  | post =>
    refine h.ite fun _ => Orderly.hubPost ?_
    exact ⟨h.innermost, h.closing, h.closed, h.drained⟩

theorem holders_frames (old new : List Frame) (hframes : s.frames = old ++ frames) (c : Nat) :
    s.holders c + (new.flatMap Frame.holds).count c =
      ({ s with frames := new ++ frames } : Site).holders c +
      (old.flatMap Frame.holds).count c := by
  simp only [Site.holders, Site.holding, hframes, flatMap_append, count_append]
  omega

theorem listenHolders_frames (old new : List Frame) (hframes : s.frames = old ++ frames) (l : Nat) :
    s.listenHolders l + (new.flatMap Frame.listens).count l =
      ({ s with frames := new ++ frames } : Site).listenHolders l +
        (old.flatMap Frame.listens).count l := by
  simp only [Site.listenHolders, Site.listeningFor, hframes, flatMap_append, count_append]
  omega

theorem same_holders (new : List Frame) (hframes : s.frames = old ++ frames)
    (hholds : old.flatMap Frame.holds = new.flatMap Frame.holds) :
    ({ s with frames := new ++ frames } : Site).holders = s.holders := by
  funext c
  have hcount := holders_frames old new hframes c
  rw [hholds] at hcount
  omega

theorem same_listenHolders (new : List Frame) (hframes : s.frames = old ++ frames)
    (hlistens : old.flatMap Frame.listens = new.flatMap Frame.listens) :
    ({ s with frames := new ++ frames } : Site).listenHolders = s.listenHolders := by
  funext l
  have hcount := listenHolders_frames old new hframes l
  rw [hlistens] at hcount
  omega

theorem Kept.reframed (h : Kept s) (old : List Frame) (hframes : s.frames = old ++ frames)
    (hholds : old.flatMap Frame.holds = new.flatMap Frame.holds)
    (hlistens : old.flatMap Frame.listens = new.flatMap Frame.listens) :
    Kept { s with frames := new ++ frames } :=
  h.same rfl rfl ⟨rfl, rfl⟩ ⟨rfl, rfl⟩ (same_holders new hframes hholds)
    (same_listenHolders new hframes hlistens)

theorem Kept.letGo (h : Shared t.hub.count (if t.opened then 1 else 0) t.completions t.created f
    t.listeners t.listening t.listenHolders) (hholders : ∀ i, f i = t.holders i + [c].count i) :
    Kept (t.completionRelease c) := by
  rw [completionRelease_eq]
  exact h.release hholders

theorem Kept.letGoListener
    (h : Shared t.hub.count (if t.opened then 1 else 0) t.completions t.created
    t.holders t.listeners t.listening g) (hholders : ∀ i, g i = t.listenHolders i + [l].count i) :
    Kept (t.listenerRelease l) := by
  rw [listenerRelease_eq]
  exact (h.swap.release hholders).swap

theorem Kept.eventRelease (h : Kept s) (hframes : s.frames = [frame] ++ frames)
    (hholds : frame.holds = held [event] ++ frame'.holds)
    (hlistens : frame.listens = frame'.listens) :
    Kept (Site.eventRelease { s with frames := frame' :: frames } event) := by
  have hlistens' : [frame].flatMap Frame.listens = [frame'].flatMap Frame.listens := by
    simp [hlistens]
  unfold Site.eventRelease
  cases hevent : event.completion with
  | none =>
    refine h.reframed [frame] hframes ?_ hlistens'
    simp [hholds, held, hevent]
  | some c =>
    refine Kept.letGo (f := s.holders) ?_ fun i => ?_
    · unfold Kept at h
      rw [← same_listenHolders [frame'] hframes hlistens'] at h
      exact h
    · have hcount := holders_frames [frame] [frame'] hframes i
      simp only [flatMap_singleton, hholds, count_append] at hcount
      have hdone : (held [event]).count i = [c].count i := by simp [held, hevent]
      change s.holders i = ({ s with frames := [frame'] ++ frames } : Site).holders i + _
      omega

theorem Kept.proceed (h : Kept s) (ho : Orderly s) : Kept s.proceed := by
  unfold Site.proceed
  split
  · exact h
  · -- the last event was handled
    rename_i hframes
    exact h.reframed [.process []] hframes rfl rfl
  · rename_i event events _ hframes
    exact h.reframed [.process (event :: events)] hframes rfl rfl
  · rename_i event _ _ hframes
    exact h.eventRelease hframes (filterMap_append (l := [event])) rfl
  · rename_i event _ _ hframes
    exact h.eventRelease hframes (filterMap_append (l := [event])) rfl
  · -- the central's own reference goes last
    rename_i hframes
    have hopened := (ho.closing (.close []) (hframes ▸ mem_cons_self) rfl).1
    have hkept := h.reframed [.close []] hframes rfl rfl
    unfold Kept at hkept
    rw [if_pos hopened] at hkept
    have hheld := hkept.held
    rw [Nat.add_comm] at hheld
    exact ⟨hkept.left, hkept.right, (Nat.zero_add _).symm ▸ hheld.release⟩
  · -- the system has what it wants of the handler
    rename_i c _ hframes
    refine Kept.letGo (f := s.holders) ?_ fun i => ?_
    · unfold Kept at h
      rw [← same_listenHolders [] hframes rfl] at h
      exact h
    · exact holders_frames [.startOp c] [] hframes i
  · rename_i l _ hframes
    refine Kept.letGoListener (g := s.listenHolders) ?_ fun i => ?_
    · unfold Kept at h
      rw [← same_holders [] hframes rfl] at h
      exact h
    · exact listenHolders_frames [.listen l] [] hframes i

theorem Kept.hubPost (h : Kept s) (hevent : event.completion = none) : Kept (s.hubPost event) := by
  unfold Site.hubPost
  split
  · exact h
  · refine h.same rfl rfl ⟨rfl, rfl⟩ ⟨rfl, rfl⟩ ?_ rfl
    funext c
    simp [Site.holders, Site.holding, held, hevent]

theorem handing_frames (hhanding : s.handing frame) : ∃ frames, s.frames = [frame] ++ frames := by
  unfold Site.handing at hhanding
  cases hframes : s.frames with
  | nil =>
    rw [hframes] at hhanding
    cases hhanding
  | cons top frames =>
    rw [hframes] at hhanding
    obtain rfl : top = frame := by simpa using hhanding
    exact ⟨frames, rfl⟩

theorem handing_holders (hhanding : s.handing (.startOp c)) : 0 < s.holders c := by
  obtain ⟨_, hframes⟩ := handing_frames hhanding
  have hcount := holders_frames _ [] hframes c
  simp only [flatMap_cons, flatMap_nil, Frame.holds, append_nil, count_nil,
    count_singleton_self] at hcount
  omega

theorem handing_listenHolders (hhanding : s.handing (.listen l)) : 0 < s.listenHolders l := by
  obtain ⟨_, hframes⟩ := handing_frames hhanding
  have hcount := listenHolders_frames _ [] hframes l
  simp only [flatMap_cons, flatMap_nil, Frame.listens, append_nil, count_nil,
    count_singleton_self] at hcount
  omega

theorem update_succ (i : Nat) : update f c (f c + 1) i + n = f i + n + [c].count i := by
  by_cases hi : i = c
  · subst hi
    simp only [update_self, count_singleton_self]
    omega
  · simp [hi, Ne.symm hi]

theorem update_pred {f : Nat → Nat} (hpos : 0 < f c) :
    f i + n = update f c (f c - 1) i + n + [c].count i := by
  by_cases hi : i = c
  · subst hi
    simp only [update_self, count_singleton_self]
    omega
  · simp [hi, Ne.symm hi]

theorem Kept.post (h : Kept s) (hmem : c ∈ s.invoking) (hopen : s.hub.closed = false) :
    Kept (Site.hubPost { s with invoking := s.invoking.erase c } (.done c)) := by
  unfold Site.hubPost
  rw [hopen, if_neg nofun]
  refine h.same rfl rfl ⟨rfl, rfl⟩ ⟨rfl, rfl⟩ ?_ rfl
  funext i
  have hcount : (s.invoking.erase c).count i + [c].count i = s.invoking.count i := by
    have hperm := perm_cons_erase hmem
    rw [hperm.count_eq i, ← count_append]
    exact (perm_append_comm.count_eq i)
  have hheld : held (s.hub.queue ++ [.done c]) = held s.hub.queue ++ [c] := filterMap_append
  simp only [Site.holders, Site.holding, hheld, count_append]
  omega

/-- No call of a completion handler comes to its post when the hub is closed. -/
def Step.Heeds (s : Site) : Step → Prop
  | .post c => c ∈ s.invoking → s.hub.closed = false
  | _ => True

def Heeding (s : Site) : List Step → Prop
  | [] => True
  | step :: steps => step.Heeds s ∧ Heeding (step.run s) steps

theorem Kept.ite {p : Prop} [Decidable p] (h : Kept s) (ht : p → Kept t) :
    Kept (if p then t else s) :=
  iteInduction ht fun _ => h

theorem Step.kept (h : Kept s) (ho : Orderly s) (step : Step) (hstep : step.Heeds s) :
    Kept (step.run s) := by
  have hopen (hlarge : s.atLarge = true) : 0 < if s.opened then 1 else 0 := by
    rw [if_pos (ho.atLarge hlarge).1]
    exact Nat.one_pos
  cases step with
  | startOp =>
    refine h.ite fun hmay => Shared.make h (hopen (Bool.and_eq_true_iff.mp hmay).1) fun i => ?_
    simp only [Site.holders, Site.holding, Site.startOp, Site.push, Site.hubRetain,
      Site.setCompletion, flatMap_cons, Frame.holds, count_append]
    omega
  | listen =>
    refine h.ite fun hmay => (h.swap.make (hopen (Bool.and_eq_true_iff.mp hmay).1) fun i => ?_).swap
    simp only [Site.listenHolders, Site.listeningFor, Site.listen, Site.push, Site.hubRetain,
      Site.setListener, flatMap_cons, Frame.listens, count_append]
    omega
  | postAnswer | notify => exact h.ite fun _ => h.hubPost rfl
  | process | close => exact h.ite fun _ => h.same rfl rfl ⟨rfl, rfl⟩ ⟨rfl, rfl⟩ rfl rfl
  | proceed => exact h.proceed ho
  | take =>
    refine h.ite fun hmay => Shared.retain h ?_ fun i => update_succ i
    obtain hsystem | hhanding := Bool.or_eq_true_iff.mp hmay
    · exact Nat.add_pos_left (of_decide_eq_true hsystem) _
    · exact handing_holders hhanding
  | takeListener =>
    refine h.ite fun hmay => (h.swap.retain ?_ fun i => update_succ i).swap
    obtain hsystem | hhanding := Bool.or_eq_true_iff.mp hmay
    · exact Nat.add_pos_left (of_decide_eq_true hsystem) _
    · exact handing_listenHolders hhanding
  | release => exact h.ite fun hpos => Kept.letGo h fun i => update_pred hpos
  | releaseListener => exact h.ite fun hpos => Kept.letGoListener h fun i => update_pred hpos
  | invoke =>
    refine h.ite fun hmay => Shared.retain h ?_ fun i => ?_
    · exact Nat.add_pos_left (of_decide_eq_true (Bool.and_eq_true_iff.mp hmay).1) _
    · simp only [Site.holders, Site.holding, Site.completionAddRef, Site.setCompletion,
        count_append, count_cons, count_nil]
      omega
  | post => exact h.ite fun hmem => h.post hmem (hstep hmem)

theorem run_kept (h : Kept s) (ho : Orderly s) (hsteps : Heeding s steps) :
    Kept (run s steps) ∧ Orderly (run s steps) := by
  induction steps generalizing s with
  | nil => exact ⟨h, ho⟩
  | cons step _ ih => exact ih (step.kept h ho hsteps.1) (step.orderly ho) hsteps.2

theorem kept_new : Kept {} := ⟨⟨nofun, fun _ _ => rfl⟩, ⟨nofun, fun _ _ => rfl⟩, Counted.held_new⟩

theorem orderly_new : Orderly {} := ⟨nofun, nofun, nofun, nofun⟩

structure Site.Quiet (s : Site) : Prop where
  opened : s.opened = false
  frames : s.frames = []
  system : ∀ c < s.created, s.system c = 0
  systemListens : ∀ l < s.listening, s.systemListens l = 0
  invoking : s.invoking = []

theorem Site.Quiet.unheld (hquiet : s.Quiet) (hqueue : s.hub.queue = []) :
    (∀ c < s.created, s.holders c = 0) ∧ ∀ l < s.listening, s.listenHolders l = 0 := by
  constructor
  · intro c hc
    simp [Site.holders, Site.holding, hquiet.system c hc, hquiet.invoking, hquiet.frames,
      hqueue, held]
  · intro l hl
    simp [Site.listenHolders, Site.listeningFor, hquiet.systemListens l hl, hquiet.frames]

theorem Kept.freed (h : Kept s) (hquiet : s.Quiet) (hqueue : s.hub.queue = []) :
    (∀ c < s.created, (s.completions c).Held 0) ∧ s.hub.count.Held 0 := by
  obtain ⟨hcompletions, hlisteners⟩ := hquiet.unheld hqueue
  have hheld : ∀ c < s.created, (s.completions c).Held 0 := fun c hc =>
    hcompletions c hc ▸ h.left.held c hc
  have hheld' : ∀ l < s.listening, (s.listeners l).Held 0 := fun l hl =>
    hlisteners l hl ▸ h.right.held l hl
  refine ⟨hheld, ?_⟩
  have hhub := h.held
  rw [hquiet.opened, living_eq_empty fun c hc => (hheld c hc).refs,
    living_eq_empty fun l hl => (hheld' l hl).refs] at hhub
  exact hhub

/-- If no handler posts to a closed hub, nothing freed is touched or freed again; and once the
central is closed and the system has let go, everything taken was released and freed. -/
theorem run_references (hsteps : Heeding {} steps) :
    (∀ c < (run {} steps).created, ((run {} steps).completions c).strays = 0 ∧
      ((run {} steps).completions c).freed ≤ 1) ∧
    ((run {} steps).hub.count.strays = 0 ∧ (run {} steps).hub.count.freed ≤ 1) ∧
    ((run {} steps).Quiet →
      (∀ c < (run {} steps).created,
        ((run {} steps).completions c).released = ((run {} steps).completions c).taken ∧
        ((run {} steps).completions c).freed = 1) ∧
      (run {} steps).hub.count.released = (run {} steps).hub.count.taken ∧
      (run {} steps).hub.count.freed = 1) := by
  obtain ⟨hkept, horderly⟩ := run_kept kept_new orderly_new hsteps
  have honce :
      ∀ {count : Counted} {n : Nat}, count.Held n → count.strays = 0 ∧ count.freed ≤ 1 := by
    intro _ n h
    refine ⟨h.strays, ?_⟩
    rw [h.freed]
    split <;> decide
  refine ⟨fun c hc => honce (hkept.left.held c hc), honce hkept.held, fun hquiet => ?_⟩
  obtain ⟨hcompletions, hhub⟩ :=
    hkept.freed hquiet (horderly.drained (horderly.closed hquiet.opened))
  exact ⟨fun c hc => ⟨(hcompletions c hc).balance.symm, (hcompletions c hc).freed⟩,
    hhub.balance.symm, hhub.freed⟩

end Counts

def finishing : List Step :=
  [.startOp true, .take 0, .proceed, .invoke 0 true, .post 0, .release 0, .process, .proceed,
    .proceed,
    .proceed, .close, .proceed]

theorem run_references_finishing : Heeding {} finishing ∧ (run {} finishing).created = 1 ∧
    ((run {} finishing).completions 0).freed = 1 ∧ (run {} finishing).hub.count.freed = 1 := by
  have hheeds : Heeding {} finishing := by
    refine ⟨trivial, trivial, trivial, trivial, fun _ => rfl, trivial, trivial, trivial, trivial,
      trivial, trivial, trivial, trivial⟩
  have hcreated : (run {} finishing).created = 1 := by decide
  have hsystem : (run {} finishing).system 0 = 0 := by decide
  have hquiet : (run {} finishing).Quiet := by
    refine ⟨by decide, by decide, fun c hc => ?_, fun l hl => ?_, by decide⟩
    · obtain rfl : c = 0 := Nat.lt_one_iff.mp hc
      exact hsystem
    · cases hl
  obtain ⟨hcompletions, -, hhub⟩ := (run_references hheeds).2.2 hquiet
  exact ⟨hheeds, hcreated, (hcompletions 0 (hcreated ▸ Nat.one_pos)).2, hhub⟩

/-- An operation that finishes when the central is closed already. -/
def late : List Step :=
  [.startOp true, .take 0, .proceed, .close, .proceed, .invoke 0 true, .post 0, .release 0]

/-- The reference of the event that is not posted stays: neither the completion nor the hub is
freed. -/
theorem run_references_late : (run {} late).Quiet ∧ (run {} late).created = 1 ∧
    ((run {} late).completions 0).taken = ((run {} late).completions 0).released + 1 ∧
    ((run {} late).completions 0).freed = 0 ∧ (run {} late).hub.count.freed = 0 := by
  have hcreated : (run {} late).created = 1 := by decide
  have hsystem : (run {} late).system 0 = 0 := by decide
  refine ⟨⟨by decide, by decide, fun c hc => ?_, fun l hl => ?_, by decide⟩,
    hcreated, by decide, by decide, by decide⟩
  · obtain rfl : c = 0 := Nat.lt_one_iff.mp hc
    exact hsystem
  · cases hl

end Inkwell.Winrt
