import Inkwell.Net.ZipFetch.Account
import Inkwell.Net.ZipFetch.Attempts
import Inkwell.Net.ZipFetch.Cancel
import Inkwell.Net.ZipFetch.Outcome

namespace Inkwell.ZipFetch
open Net Http Zip Fetch Library List

def hostAt (customer : Customer τ) (s : System τ) (ops : Nat → HostOp τ) : Nat → System τ
  | 0 => s
  | n + 1 => hostStep customer (hostAt customer s ops n) (ops n)

/-- The download and the fetcher are ticked on and on, the fetcher at ever later times. -/
structure Ticking (ops : Nat → HostOp τ) : Prop where
  zip : ∀ n, ∃ m ≥ n, ∃ nowMs, ops m = .zipTick nowMs
  fetch : ∀ n leastMs, ∃ m ≥ n, ∃ nowMs ≥ leastMs, ops m = .tick nowMs

theorem hostAt_eq_run : hostAt customer s ops n = hostRun customer s ((range n).map ops) := by
  induction n with
  | zero => rfl
  | succ n ih =>
    rw [hostAt, ih, range_succ, map_append, hostRun, hostRun, foldl_append]
    rfl

theorem hostAt_moves (h : n ≤ m) :
    Moves (hostAt customer s ops n).desk (hostAt customer s ops m).desk := by
  induction m, h using Nat.le_induction with
  | base => exact .refl
  | succ m _ ih => exact ih.trans (hostStep_moves customer _ (ops m))

def Download.left (zip : Download) : Nat :=
  if zip.inflatePending then 0
  else
    match zip.step with
    | none => 9
    | some now => 2 * (4 - now.rank) - if zip.retried then 1 else 0

theorem Download.left_pending {zip : Download} (h : zip.inflatePending) : zip.left = 0 := if_pos h

theorem Download.left_pos {zip : Download} (h : zip.inflatePending = false) : 0 < zip.left := by
  unfold Download.left
  rw [h]
  simp only [Bool.false_eq_true, if_false]
  split
  · decide
  · rename_i now _
    cases now <;> cases zip.retried <;> decide

theorem Next.left {step : Step} (h : Next result app step app') (hd : Underway app.zip app.said) :
    (step.enter app'.zip).left < app.zip.left := by
  have hpending := hd.held.2
  have hpending' := (h.heading hd).pending
  obtain ⟨hlatest, hcases⟩ := h.onward hd
  have hrank : step.rank ≤ 3 := by cases step <;> decide
  rw [Download.left, Download.left, hpending, hpending', hlatest]
  rcases hcases with ⟨hstep, hfirst, hagain⟩ | ⟨hahead, hfirst⟩
  · rw [hstep, hfirst, hagain]
    simp only [if_true, Bool.false_eq_true, if_false]
    omega
  · rw [hfirst]
    cases hnow : app.zip.step with
    | none =>
      simp only [Bool.false_eq_true, if_false]
      omega
    | some now =>
      have hlt := hahead now hnow
      simp only [Bool.false_eq_true, if_false]
      split <;> omega

theorem Moves.onCourse (h : Moves d d') (hd : OnCourse d) : OnCourse d' :=
  h.keeps (fun _ _ hmove => hmove.onCourse) hd

theorem Moves.holds (h : Moves d d') (hc : OnCourse d)
    (hdeeds : d'.app.deeds = d.app.deeds) (hown : OwnErrand d'.errand) : OwnErrand d.errand ∧
      (d'.app.zip.left < d.app.zip.left ∨ d'.app.zip.left = d.app.zip.left ∧
        ∃ events, Unasked events ∧ d'.trace = events ++ d.trace) := by
  induction h with
  | refl => exact ⟨hown, .inr ⟨rfl, [], forall_mem_nil _, rfl⟩⟩
  | @tail d₁ _ hmoves hmove ih =>
    have hc₁ := Moves.onCourse hmoves hc
    have hsame : d₁.app.deeds = d.app.deeds := by
      have hshort := (Moves.deeds (.single hmove)).length_le
      rw [hdeeds] at hshort
      exact ((Moves.deeds hmoves).eq_of_length_le hshort).symm
    cases hmove.owns hc₁ hown with
    | @kept newer hown hzip hunasked htrace =>
      obtain ⟨hfirst, hless | ⟨hleft, events, hnone, heq⟩⟩ := ih hsame hown
      · exact ⟨hfirst, .inl (hzip ▸ hless)⟩
      · refine ⟨hfirst, .inr ⟨hzip ▸ hleft, newer ++ events, ?_, ?_⟩⟩
        · exact forall_mem_append.mpr ⟨hunasked, hnone⟩
        · rw [htrace, heq, append_assoc]
    | head _ _ hnew =>
      rw [hdeeds, hsame] at hnew
      exact absurd hnew.symm (cons_ne_self _ _)
    | range hown _ hnext hzip =>
      have hless := hnext.left (hc₁.underway hown)
      rw [← hzip] at hless
      obtain ⟨hfirst, hbefore | ⟨hleft, _⟩⟩ := ih hsame hown
      · exact ⟨hfirst, .inl (hless.trans hbefore)⟩
      · exact ⟨hfirst, .inl (hless.trans_eq hleft)⟩

theorem zipFinish_deeds (customer : Customer τ) (state : State) (error : Error) (s : System τ) :
    ∃ deed, deed :: s.app.deeds <:+ (zipFinish customer.done state error s).app.deeds := by
  obtain ⟨app, files, hcloses, hend⟩ := zipFinish_ends
  obtain ⟨deed, hdeeds, _⟩ := hcloses.deeds
  have hdeeds : app.deeds = deed :: s.app.deeds := hdeeds
  refine ⟨deed, ?_⟩
  rw [← hdeeds]
  rcases hend with hend | ⟨id, hend⟩
  · exact hend ▸ suffix_rfl
  · rw [hend]
    exact Moves.deeds (customer.done_moves id { s with app, files })

theorem zipInflate_deeds (customer : Customer τ) (s : System τ) :
    ∃ deed, deed :: s.app.deeds <:+ (zipInflate customer.done s).app.deeds := by
  obtain ⟨state, error, s', haside, hend, _⟩ := zipInflate_ends customer.done s
  have hsame : s'.app.deeds = s.app.deeds := by
    obtain ⟨_, _, _, rfl⟩ := haside
    rfl
  rw [hend, ← hsame]
  exact zipFinish_deeds customer state error s'

theorem zipFetchTick_ends (customer : Customer τ) (s : System τ) (h : s.app.zip.inflatePending) :
    ∃ deed, deed :: s.app.deeds <:+ (zipFetchTick customer.done s).app.deeds := by
  unfold zipFetchTick
  rw [if_neg (by rw [h]; exact Bool.false_ne_true)]
  exact zipInflate_deeds customer (edit s ({ · with inflatePending := false }))

theorem OwnErrand.conn {s : Sys σ} (h : OwnErrand s.desk.errand) :
    ∃ conn, s.fetch.conn = some conn := by
  obtain ⟨_, herrand⟩ := h
  obtain ⟨conn, hconn, _⟩ := Option.map_eq_some_iff.mp herrand
  exact ⟨conn, hconn⟩

theorem tick_sinks {customer : Customer τ} {s s' s'' : System τ} (hmoves : Moves s.desk s'.desk)
    (htick : s'' = fetchTick customer.run s' nowMs) (hc : OnCourse s.desk)
    (howing : Owing never s.core) (howing'' : Owing never s''.core)
    (hconn : s.fetch.conn = some conn) (hlate : conn.deadlineMs ≤ nowMs)
    (hdeeds : s''.app.deeds = s.app.deeds) (hown : OwnErrand s''.desk.errand) :
    s''.app.zip.left < s.app.zip.left := by
  have hafter : Moves { s'.desk with trace := .ticked nowMs :: s'.desk.trace } s''.desk := by
    rw [htick]
    exact (moves_employs customer _).afterTick .refl
  have hc' : OnCourse { s'.desk with trace := .ticked nowMs :: s'.desk.trace } :=
    (Move.ticked nowMs).onCourse (hmoves.onCourse hc)
  have hsame : s'.desk.app.deeds = s.desk.app.deeds := by
    have hshort : s'.app.deeds.length ≤ s''.app.deeds.length := hafter.deeds.length_le
    rw [hdeeds] at hshort
    exact (hmoves.deeds.eq_of_length_le hshort).symm
  obtain ⟨hown', hlast⟩ := hafter.holds hc' (hdeeds.trans hsame.symm) hown
  obtain ⟨_, hfirst⟩ := hmoves.holds hc hsame hown'
  rcases hlast with hless | ⟨hleft, newer, hnewer, htrace'⟩
  · rcases hfirst with hbefore | ⟨hleft, _⟩
    · exact hless.trans hbefore
    · exact hless.trans_eq hleft
  rcases hfirst with hbefore | ⟨_, older, holder, htrace⟩
  · exact hleft.trans_lt hbefore
  obtain ⟨_, hconn'⟩ := hown.conn
  have hunasked : Unasked (newer ++ .ticked nowMs :: older) :=
    forall_mem_append.mpr ⟨hnewer, holder.cons rfl⟩
  have hall : s''.trace = newer ++ .ticked nowMs :: older ++ s.trace := by
    have htrace : s'.trace = older ++ s.trace := htrace
    have htrace' : s''.trace = newer ++ .ticked nowMs :: s'.trace := htrace'
    rw [htrace', htrace, append_assoc, cons_append]
  have hearly := howing.before_deadline howing'' hconn hconn' hunasked hall
    (mem_append_right _ mem_cons_self)
  exact absurd hearly (not_lt.mpr hlate)

theorem zipFetchStart_started (s : System τ) (request : ZipRequest)
    (h : (zipFetchStart s request).1 = none) :
    (zipFetchStart s request).2.app.deeds = .started request.onDone :: s.app.deeds := by
  revert h
  unfold zipFetchStart
  iterate 4
    split
    · nofun
  simp only
  generalize hs' : answer (edit s fun _ => request.zip) _ = s'
  have hdeeds : s'.app.deeds = s.app.deeds := by
    subst hs'
    rfl
  have hbegun := fetchStart_begun s' (headRequest request.zip) (Net.next 0 s.app.around.clock).1
  generalize fetchStart s' _ (Net.next 0 s.app.around.clock).1 = started at *
  obtain ⟨refused, s''⟩ := started
  have happ : s''.app = s'.app := hbegun.leaves.1
  cases refused with
  | none =>
    intro _
    rw [← hdeeds, ← happ]
    rfl
  | some => nofun

section Run
variable (customer : Customer τ) (hasLoop : Bool) (world : World) (around : Surroundings)
  (files : Bytes → Option Bytes) (user : τ)

structure Governed (d : Desk (Host τ)) : Prop where
  onCourse : OnCourse d
  accounted : Accounted d
  counted : Counted d

theorem hostRun_governed (ops : List (HostOp τ)) :
    Governed (hostRun customer (hostBoot hasLoop world around files user) ops).desk := by
  apply (hostRun_moves customer (hostBoot hasLoop world around files user) ops).keeps
  · intro d _ hmove h
    exact ⟨hmove.onCourse h.onCourse, hmove.accounted h.onCourse h.accounted,
      hmove.counted h.onCourse h.counted⟩
  · refine ⟨.free not_ownErrand_none rfl, .idle .nil rfl rfl not_ownErrand_none rfl, ?_, ?_⟩
    · intro t ht _
      rw [suffix_nil.mp ht]
      exact Nat.zero_le 2
    · intro hown
      exact absurd hown not_ownErrand_none

theorem hostRun_tidy (hreliable : around.Reliable) :
    ∀ deed ∈ (hostRun customer (hostBoot hasLoop world around files user) ops).app.deeds,
      Tidy deed := by
  have hkept := (hostRun_moves customer (hostBoot hasLoop world around files user) ops).keeps
    (p := fun d => OnCourse d ∧ AllTidy d)
    (fun _ _ hmove h => ⟨hmove.onCourse h.1, hmove.allTidy h.1 h.2⟩)
  refine (hkept ⟨.free not_ownErrand_none rfl, hreliable, ?_⟩).2.2
  exact forall_mem_nil _

/-- As long as the ticks go on, the running download ends, is cancelled or stopped, or gets closer
to its end. -/
theorem hostAt_sinks {ops : Nat → HostOp τ} (hticking : Ticking ops) {s : Nat → System τ}
    (hs : s = hostAt customer (hostBoot hasLoop world around files user) ops)
    (hcurrent : current (s n).app.deeds = some onDone) :
    ∃ m ≥ n, ((s m).app.deeds ≠ (s n).app.deeds ∨ stopped (s m).trace) ∨
      (s m).app.zip.left < (s n).app.zip.left := by
  have hgoverned : ∀ m, Governed (s m).desk := by
    intro m
    rw [hs, hostAt_eq_run]
    exact hostRun_governed customer hasLoop world around files user _
  have howing : ∀ m, Owing never (s m).core := by
    intro m
    rw [hs, hostAt_eq_run]
    exact hostRun_owing customer hasLoop world around files user _
  have hmoves : ∀ {k m}, k ≤ m → Moves (s k).desk (s m).desk := by
    rw [hs]
    exact hostAt_moves
  have hstep : ∀ m, s (m + 1) = hostStep customer (s m) (ops m) := by
    rw [hs]
    exact fun _ => rfl
  by_contra hno
  push Not at hno
  have hwork : ∀ m ≥ n, OwnErrand (s m).desk.errand ∨ (s m).app.zip.inflatePending := by
    intro m hm
    obtain ⟨⟨hdeeds, hgoing⟩, _⟩ := hno m hm
    have hcurrent : current (s m).desk.app.deeds = some onDone :=
      (congrArg current hdeeds).trans hcurrent
    obtain ⟨_, _, hown | hpending | hstopped⟩ := (hgoverned m).accounted.busy onDone hcurrent
    · exact .inl hown
    · exact .inr hpending
    · exact absurd hstopped hgoing
  have hcourse := (hgoverned n).onCourse
  rcases hwork n (le_refl n) with hown | hpending
  · -- A request in flight: a tick comes at its deadline, and the member has not landed by then.
    obtain ⟨conn, hconn⟩ := hown.conn
    obtain ⟨m, hm, nowMs, hlate, hop⟩ := hticking.fetch n conn.deadlineMs
    have hnext : n ≤ m + 1 := hm.trans (Nat.le_succ m)
    obtain ⟨⟨hdeeds, _⟩, hleft⟩ := hno (m + 1) hnext
    have htick : s (m + 1) = fetchTick customer.run (s m) nowMs := by
      rw [hstep, hop]
      rfl
    rcases hwork (m + 1) hnext with hown' | hpending
    · have hless :=
        tick_sinks (hmoves hm) htick hcourse (howing n) (howing (m + 1)) hconn hlate hdeeds
        hown'
      exact absurd hless (not_lt.mpr hleft)
    · rw [Download.left_pending hpending] at hleft
      exact absurd (Download.left_pos (hcourse.underway hown).held.2) (not_lt.mpr hleft)
  · -- A member to inflate: the next tick of the download does, and that is the end.
    obtain ⟨m, hm, _, hop⟩ := hticking.zip n
    have htick : s (m + 1) = zipFetchTick customer.done (s m) := by
      rw [hstep, hop]
      rfl
    have hpending' : (s m).app.zip.inflatePending := by
      rcases hwork m hm with hown | hpending'
      · obtain ⟨hfirst, _⟩ := (hmoves hm).holds hcourse (hno m hm).1.1 hown
        exact absurd hfirst (hcourse.landed hpending).2.2
      · exact hpending'
    obtain ⟨_, hdeeds⟩ := zipFetchTick_ends customer (s m) hpending'
    have hlong := hdeeds.length_le
    rw [← htick, (hno (m + 1) (hm.trans (Nat.le_succ m))).1.1, (hno m hm).1.1] at hlong
    exact absurd hlong (Nat.not_succ_le_self _)

/-- The completion of a download is called once, when it ends, unless it is cancelled. Each range
is asked for twice at most. A success leaves the result, with its size and CRC-32, and no other
file; a failure or a cancel leaves none. And it does end, if the ticks go on, unless its request
is taken from it. -/
theorem run_download :
    (∀ ops s, s = hostRun customer (hostBoot hasLoop world around files user) ops →
      (∀ request, (zipFetchStart s request).1 = none →
        (zipFetchStart s request).2.app.deeds = .started request.onDone :: s.app.deeds) ∧
      (∀ after onDone before, s.app.deeds = after ++ .started onDone :: before →
        Fate onDone after) ∧
      (∀ t, t <:+ s.trace → ∀ path, attempts path t ≤ 2) ∧
      (around.Reliable → ∀ deed ∈ s.app.deeds, Tidy deed)) ∧
    ∀ ops, Ticking ops → ∀ s, s = hostAt customer (hostBoot hasLoop world around files user) ops →
      ∀ n onDone before, (s n).app.deeds = .started onDone :: before →
        ∃ m ≥ n, (∃ newer, newer ≠ [] ∧ (s m).app.deeds = newer ++ .started onDone :: before) ∨
          stopped (s m).trace := by
  refine ⟨?_, ?_⟩
  · rintro ops s rfl
    have hgoverned := hostRun_governed customer hasLoop world around files user ops
    refine ⟨fun request => zipFetchStart_started _ request, ?_, hgoverned.counted.most, ?_⟩
    · intro after onDone before hdeeds
      have hlawful : Always Rightful (after ++ .started onDone :: before) :=
        hdeeds ▸ hgoverned.accounted.lawful
      exact (Always.fate hlawful).1
    · exact fun hreliable => hostRun_tidy customer hasLoop world around files user hreliable
  · intro _ hticking s hs n onDone before hdeeds
    have hgrows : ∀ m ≥ n, .started onDone :: before <:+ (s m).app.deeds := by
      intro m hm
      rw [← hdeeds, hs]
      exact Moves.deeds (hostAt_moves hm)
    have hsinks : ∀ k ≥ n, ∃ m ≥ k, ((s m).app.deeds ≠ .started onDone :: before ∨
        stopped (s m).trace) ∨ (s m).app.zip.left < (s k).app.zip.left := by
      intro k _
      by_cases hsame : (s k).app.deeds = .started onDone :: before
      · have hcurrent : current (s k).app.deeds = some onDone := by
          rw [hsame]
          rfl
        rw [← hsame]
        exact hostAt_sinks customer hasLoop world around files user hticking hs hcurrent
      · exact ⟨k, le_refl k, .inl (.inl hsame)⟩
    obtain ⟨m, hm, hother | hstopped⟩ :=
      eventually_of_sinks (fun m => (s m).app.zip.left) hsinks (le_refl n)
    · obtain ⟨newer, hnewer⟩ := hgrows m hm
      refine ⟨m, hm, .inl ⟨newer, ?_, hnewer.symm⟩⟩
      rintro rfl
      exact hother hnewer.symm
    · exact ⟨m, hm, .inr hstopped⟩

/-- A download is busy exactly while the last one started has neither ended nor been cancelled, and
then has a request in flight for the step it is at, or a member to inflate, until it is stopped. -/
theorem run_in_step (ops : List (HostOp τ)) :
    let s := hostRun customer (hostBoot hasLoop world around files user) ops
    (zipFetchBusy s.app.zip ↔ (current s.app.deeds).isSome) ∧
    (∀ onDone, current s.app.deeds = some onDone → s.app.zip.onDone = onDone) ∧
    (zipFetchBusy s.app.zip →
      OwnErrand s.desk.errand ∨ s.app.zip.inflatePending ∨ stopped s.trace) ∧
    (OwnErrand s.desk.errand → Underway s.app.zip s.app.said) ∧
    (s.app.zip.inflatePending → s.app.zip.state = .inflating ∧ ¬ OwnErrand s.desk.errand) := by
  intro s
  obtain ⟨⟨hunderway, hlanded⟩, haccounted, _⟩ :=
    hostRun_governed customer hasLoop world around files user ops
  refine ⟨?_, fun _ h => (haccounted.busy _ h).2.1, fun hbusy => ?_, hunderway, fun h => ?_⟩
  · cases hcurrent : current s.app.deeds with
    | none =>
      have hbusy := (haccounted.settled hcurrent).1
      exact iff_of_false (fun h => by cases h.symm.trans hbusy) nofun
    | some => exact iff_of_true (haccounted.busy _ hcurrent).1 rfl
  · cases hcurrent : current s.app.deeds with
    | none => cases hbusy.symm.trans (haccounted.settled hcurrent).1
    | some => exact (haccounted.busy _ hcurrent).2.2
  · exact ⟨(hlanded h).1, (hlanded h).2.2⟩

end Run

def checkedCentral : Bytes :=
  le32 sigCentral ++ replicate 12 0 ++ le32 (crc32 (ascii "!")) ++ le32 1 ++ le32 1 ++ le16 1 ++
    replicate 12 0 ++ le32 0 ++ ascii "m"

def checkedReplies : List Bytes :=
  [sampleLength 101, sampleRange (sampleLocal ++ checkedCentral ++ sampleEnd 47 32),
    sampleRange (sampleLocal.take 30), sampleRange (ascii "!")]

def checkedBoot : System Unit :=
  hostBoot true (sampleWorld checkedReplies) { crc32 := fun bytes => some (crc32 bytes) }
    (fun _ => none) ()

def checkedOps (n : Nat) : HostOp Unit :=
  if n = 0 then .call (.start { sampleRequest with onDone := some 5 })
  else if n < 5 then .socketEvent Runtime.OUT
  else if n % 2 = 1 then .zipTick n
  else .tick n

theorem checkedOps_ticking : Ticking checkedOps := by
  refine ⟨fun n => ⟨2 * n + 5, by omega, 2 * n + 5, ?_⟩, fun n leastMs => ?_⟩
  · rw [checkedOps, if_neg (by omega), if_neg (by omega), if_pos (by omega)]
  · refine ⟨2 * (n + leastMs) + 6, by omega, 2 * (n + leastMs) + 6, by omega, ?_⟩
    rw [checkedOps, if_neg (by omega), if_neg (by omega), if_neg (by omega)]

def readyEnd : List Deed → Bool
  | [.ended (some 5) zip _ _, .started (some 5)] => zip.state == .ready
  | _ => false

theorem readyEnd_spec (h : readyEnd deeds) : ∃ zip said files,
    deeds = [.ended (some 5) zip said files, .started (some 5)] ∧ zip.state = .ready := by
  unfold readyEnd at h
  split at h
  · exact ⟨_, _, _, rfl, by simpa using h⟩
  · cases h

theorem run_download_checked :
    let s := hostRun idleCustomer checkedBoot ((range 6).map checkedOps)
    (∃ zip said files, s.app.deeds = [.ended (some 5) zip said files, .started (some 5)] ∧
      zip.state = .ready ∧ Fate (some 5) [.ended (some 5) zip said files] ∧
      Delivered zip said files) ∧
    (∀ path, attempts path s.trace ≤ 2) ∧
    ∃ m ≥ 1, (∃ newer, newer ≠ [] ∧ (hostAt idleCustomer checkedBoot checkedOps m).app.deeds =
      newer ++ [.started (some 5)]) ∨
        stopped (hostAt idleCustomer checkedBoot checkedOps m).trace := by
  intro s
  have hreliable : Surroundings.Reliable { crc32 := fun bytes => some (crc32 bytes) } :=
    ⟨forall_mem_nil _, fun _ _ h => (Option.some.inj h).symm⟩
  have hready : readyEnd s.app.deeds = true := by decide +kernel
  obtain ⟨zip, said, files, hdeeds, hstate⟩ := readyEnd_spec hready
  have hstarted : (hostAt idleCustomer checkedBoot checkedOps 1).app.deeds = [.started (some 5)] :=
    rfl
  obtain ⟨hruns, hends⟩ := run_download idleCustomer true (sampleWorld checkedReplies)
    { crc32 := fun bytes => some (crc32 bytes) } (fun _ => none) ()
  obtain ⟨_, hfate, hattempts, htidy⟩ := hruns ((range 6).map checkedOps) s rfl
  refine ⟨⟨zip, said, files, hdeeds, hstate, hfate _ _ _ hdeeds, ?_⟩,
    fun path => hattempts s.trace suffix_rfl path,
    hends checkedOps checkedOps_ticking _ rfl 1 (some 5) [] hstarted⟩
  have htidy :=
    htidy hreliable (.ended (some 5) zip said files) (by rw [hdeeds]; exact mem_cons_self)
  rcases htidy with ⟨hfailed, _⟩ | ⟨_, hdelivered⟩
  · cases hstate.symm.trans hfailed
  · exact hdelivered

end Inkwell.ZipFetch
