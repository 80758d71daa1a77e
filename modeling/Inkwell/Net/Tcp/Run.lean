import Inkwell.Net.Tcp.Attempt

namespace Inkwell.Tcp
open Library Net List

variable {s t : Site κ} {app : Site κ → Site κ} {log : List (Event κ)}

theorem onFd_runs (happ : Obeys app) (h : Inv s) : Runs (onFd app events s) s.log := by
  unfold onFd
  split
  · exact ⟨h, suffix_rfl⟩
  · rename_i hconnecting
    split
    · have hstate : s.connector.state = .connecting := not_not.mp hconnecting
      obtain ⟨_, _, _, _, hheld, hworking⟩ := h.held (by rw [hstate]; exact nofun)
      cases hworking with
      | resolving hstate' => cases hstate.symm.trans hstate'
      | connecting _ hlookup hsocket =>
        exact (finishConnect_ends happ h.books hheld hlookup hsocket).runs
    · exact ⟨h, suffix_rfl⟩

theorem Inv.looked (h : Inv s) (hlookup : s.lookup = some deadlineMs) :
    s.connector.state = .resolving ∧ ∃ n k startMs timeoutMs,
      Poised { s with lookup := none } n k startMs timeoutMs ∧ .looking n ∈ s.log := by
  have hworking : ∃ n k startMs timeoutMs, Held s n k startMs timeoutMs ∧
      Working s n startMs timeoutMs := by
    apply h.held
    intro hidle
    cases (h.idle hidle).2.lookup.symm.trans hlookup
  obtain ⟨n, k, startMs, timeoutMs, hh, hworking⟩ := hworking
  cases hworking with
  | connecting _ hnone => cases hnone.symm.trans hlookup
  | resolving hstate hsocket _ _ hlooking hopened =>
    exact ⟨hstate, n, k, startMs, timeoutMs, ⟨h.books, hh.keep, hsocket, rfl, hopened⟩, hlooking⟩

/-- A call comes to this, and an attempt that is still there has no lookup any more. -/
structure Looks (t : Site κ) (log : List (Event κ)) (n : Nat) : Prop where
  runs : Runs t log
  past : engaged Event.stage t.log = some n → t.lookup = none

theorem Ends.looks (h : Ends t log n k) : Looks t log n := by
  refine ⟨h.runs, fun hengaged => ?_⟩
  obtain ⟨_, hdone⟩ := h.done
  exact absurd hengaged (engaged_eq_none_of_closed h.runs.inv.books.attempts hdone rfl)

theorem onResolved_looks (happ : Obeys app) (hp : Poised s n k startMs timeoutMs)
    (hstate : s.connector.state = .resolving) (hlooking : .looking n ∈ s.log) :
    Looks (onResolved app result s) s.log n := by
  unfold onResolved
  rw [if_neg (not_not.mpr hstate)]
  split
  · exact (completeFailure_ends happ hp.books hp.held hp.lookup).looks
  · have htimed :
        Timed { s with connector := { s.connector with state := .idle } } n startMs false :=
      hlooking
    have hopens := tcpOpen_opens happ hp.keep htimed
    simp only
    generalize tcpOpen app false { s with connector := { s.connector with state := .idle } } =
      opened
      at hopens
    cases hopens with
    | failed hbooks hheld _ hlookup hlog =>
      exact ((completeFailure_ends happ hbooks hheld hlookup).since hlog).looks
    | pending hinv _ hlookup hlog => exact ⟨⟨hinv, hlog⟩, fun _ => hlookup⟩
    | finished hends => exact hends.looks

theorem deliver_runs (happ : Obeys app) (h : Inv s) (result : Resolve.Result) :
    Runs (deliver app result s) s.log ∧ ∀ n, engaged Event.stage s.log = some n →
      engaged Event.stage (deliver app result s).log = some n →
        (deliver app result s).lookup = none := by
  unfold deliver
  cases hlookup : s.lookup with
  | none => exact ⟨⟨h, suffix_rfl⟩, fun _ _ _ => hlookup⟩
  | some =>
    obtain ⟨hstate, n, k, _, _, hp, hlooking⟩ := h.looked hlookup
    have hlooks : Looks (onResolved app result { s with lookup := none }) s.log n :=
      onResolved_looks happ hp hstate hlooking
    refine ⟨hlooks.runs, fun m hm hm' => ?_⟩
    cases hm.symm.trans hp.held.engaged
    exact hlooks.past hm'

theorem resolveFinish_runs (happ : Obeys app) (h : Inv s) : Runs (resolveFinish app s) s.log := by
  unfold resolveFinish
  split
  · rename_i result answers _ _
    have hkeep : Inv { s with answers } := h.keep
    exact (deliver_runs happ hkeep result).1
  · exact ⟨h.keep, suffix_rfl⟩
  · exact ⟨h, suffix_rfl⟩

theorem resolveExpire_runs (happ : Obeys app) (h : Inv s) (nowMs : UInt64) :
    Runs (resolveExpire app nowMs s) s.log ∧ ∀ n deadlineMs, engaged Event.stage s.log = some n →
      engaged Event.stage (resolveExpire app nowMs s).log = some n →
      (resolveExpire app nowMs s).lookup = some deadlineMs → nowMs < deadlineMs := by
  unfold resolveExpire
  cases hlookup : s.lookup with
  | none => exact ⟨⟨h, suffix_rfl⟩, fun _ _ _ _ hsome => by cases hlookup.symm.trans hsome⟩
  | some =>
    simp only
    split
    · obtain ⟨hruns, hover⟩ := deliver_runs happ h { outcome := .timedOut }
      refine ⟨hruns, fun n deadlineMs' hbefore hafter hsome => ?_⟩
      cases (hover n hbefore hafter).symm.trans hsome
    · rename_i hearly
      refine ⟨⟨h, suffix_rfl⟩, fun n deadlineMs' _ _ hsome => ?_⟩
      cases hlookup.symm.trans hsome
      exact UInt64.not_le.mp hearly

theorem resolveTick_runs (happ : Obeys app) (h : Inv s) (nowMs : UInt64) :
    Runs (resolveTick app nowMs s) s.log ∧ ∀ n deadlineMs, engaged Event.stage s.log = some n →
      engaged Event.stage (resolveTick app nowMs s).log = some n →
      (resolveTick app nowMs s).lookup = some deadlineMs → nowMs < deadlineMs := by
  have hfinish := resolveFinish_runs happ h
  obtain ⟨hexpire, hearly⟩ := resolveExpire_runs happ hfinish.inv nowMs
  refine ⟨hfinish.trans hexpire, fun n deadlineMs hbefore hafter => ?_⟩
  exact hearly n deadlineMs
    (hexpire.inv.books.attempts.engaged_between hfinish.log hexpire.log hbefore hafter) hafter

theorem begin_poised (h : Inv s) (hidle : s.connector.state = .idle) (options : Options) (k : κ)
    (nowMs : UInt64) (htimeout : options.timeoutMs ≠ 0) :
    Poised (s.begin options k nowMs) s.attempts k nowMs options.timeoutMs := by
  obtain ⟨hnone, hidle⟩ := h.idle hidle
  have hfits : Fits s.log (.began s.attempts k nowMs options.timeoutMs) := by
    refine ⟨⟨hnone, fun e he hopens => ?_⟩, trivial, trivial⟩
    have hattempt : e.attempt = some s.attempts := by
      cases e <;> cases hopens
      rfl
    exact Nat.lt_irrefl _ (h.books.known e he _ hattempt)
  refine ⟨?_, ⟨rfl, rfl, rfl, rfl, mem_cons_self, ?_⟩, hidle.socket, hidle.lookup, fun i hi => ?_⟩
  · refine h.books.cons hfits h.books.socket h.books.registered h.books.watching (Nat.le_succ _)
      le_rfl ?_ nofun
    rintro n ⟨⟩
    exact Nat.lt_succ_self _
  · exact Nat.pos_of_ne_zero fun hzero => htimeout (UInt64.toNat_inj.mp hzero)
  · obtain heq | hmem := mem_cons.mp hi
    · cases heq
    · exact Nat.lt_irrefl _ (h.books.known _ hmem _ rfl)

theorem begin_only (h : Books s) (he : e ∈ (s.begin options k nowMs).log)
    (hattempt : e.attempt = some s.attempts) : e = .began s.attempts k nowMs options.timeoutMs := by
  obtain heq | hmem := mem_cons.mp he
  · exact heq
  · exact absurd (h.known e hmem _ hattempt) (lt_irrefl _)

theorem refuse_inv (h : Books t) (hh : Held t n k startMs timeoutMs)
    (hsocket : t.connector.socket = none) (hlookup : t.lookup = none)
    (haccepted : .accepted n ∉ t.log) : Inv ((clearAttempt t).note (.refused n e)) :=
  .ended (h.told hh.began ⟨hh.engaged, trivial, haccepted⟩ rfl rfl) rfl ⟨rfl, hsocket, rfl, hlookup⟩

theorem Due.accept (h : Due n startMs timeoutMs log deadlineMs) :
    Due n startMs timeoutMs (.accepted m :: log) deadlineMs := by
  have hlooking : Event.looking n ∈ Event.accepted m :: log ↔ .looking n ∈ log := by simp
  exact ⟨fun hmem => h.unset (hlooking.mp hmem), fun hmem => h.named (hlooking.mp hmem),
    fun hmem => h.literal (hlooking.not.mp hmem)⟩

theorem accept_inv (h : Inv t) (hbegan : .began n k startMs timeoutMs ∈ t.log)
    (hrefused : ∀ e, .refused n e ∉ t.log) : Inv (t.note (.accepted n)) := by
  have hbooks : Books (t.note (.accepted n)) :=
    h.books.told hbegan ⟨trivial, trivial, ⟨k, startMs, timeoutMs, hbegan⟩, hrefused⟩ rfl rfl
  cases hstate : t.connector.state with
  | idle =>
    obtain ⟨hnone, hidle⟩ := h.idle hstate
    exact .ended hbooks hnone ⟨hidle.state, hidle.socket, hidle.onDone, hidle.lookup⟩
  | _ =>
    obtain ⟨m, _, _, _, hh, hworking⟩ := h.held (by rw [hstate]; simp)
    refine .of_held hbooks (hh.told rfl) ?_
    cases hworking with
    | resolving hstate hsocket hlookup hreaches hlooking =>
      exact .resolving hstate hsocket hlookup hreaches (.tail _ hlooking) (by simpa [Site.note])
    | connecting hstate hlookup hsocket hopened hdue =>
      exact .connecting hstate hlookup hsocket (.tail _ hopened) hdue.accept

structure Starts (s : Site κ) (result : (Option Errno × NetFailure) × Site κ) : Prop where
  runs : Runs result.2 s.log
  silent : result.1.1.isSome → ∀ n k r, .done n k r ∈ result.2.log → .done n k r ∈ s.log

theorem Starts.unchanged {failure : NetFailure} (h : Inv s) : Starts s ((some e, failure), s) :=
  ⟨⟨h, suffix_rfl⟩, fun _ _ _ _ hdone => hdone⟩

theorem Starts.accept (hlog : (s.begin options k nowMs).log <:+ t.log) (hinv : Inv t)
    (hrefused : ∀ e, .refused s.attempts e ∉ t.log) :
    Starts s ((none, {}), t.note (.accepted s.attempts)) :=
  ⟨⟨accept_inv hinv (hlog.subset mem_cons_self) hrefused,
    ((suffix_cons _ _).trans hlog).trans (suffix_cons _ _)⟩, nofun⟩

theorem Starts.refuse {failure : NetFailure} (h : Books s) (hbooks : Books t)
    (hheld : Held t s.attempts k nowMs options.timeoutMs) (hsocket : t.connector.socket = none)
    (hlookup : t.lookup = none) (hlog : (s.begin options k nowMs).log <:+ t.log)
    (hnew : ∀ e ∈ t.log, e ∈ (s.begin options k nowMs).log ∨
      ∃ i, e = .opened s.attempts i ∨ e = .closed i) :
    Starts s ((some e, failure), (clearAttempt t).note (.refused s.attempts e)) := by
  have haccepted : .accepted s.attempts ∉ t.log := by
    intro hmem
    obtain hmem | ⟨_, heq | heq⟩ := hnew _ hmem
    · cases begin_only h hmem rfl
    · cases heq
    · cases heq
  refine ⟨⟨refuse_inv hbooks hheld hsocket hlookup haccepted,
    ((suffix_cons _ _).trans hlog).trans (suffix_cons _ _)⟩, fun _ n k' r hdone => ?_⟩
  obtain heq | hmem := mem_cons.mp hdone
  · cases heq
  obtain hmem | ⟨_, heq | heq⟩ := hnew _ hmem
  · obtain heq | hmem := mem_cons.mp hmem
    · cases heq
    · exact hmem
  · cases heq
  · cases heq

theorem startLiteral_starts (happ : Obeys app) (h : Inv s)
    (hp : Poised (s.begin options k nowMs) s.attempts k nowMs options.timeoutMs) :
    Starts s (match tcpOpen app true (s.begin options k nowMs) with
      | (some (e, failure), t) => ((some e, failure), (clearAttempt t).note (.refused s.attempts e))
      | (none, t) => ((none, {}), t.note (.accepted s.attempts))) := by
  have htimed : Timed (s.begin options k nowMs) s.attempts nowMs true := by
    refine ⟨rfl, fun hmem => ?_⟩
    cases begin_only h.books hmem rfl
  have hopens := tcpOpen_opens happ hp htimed
  generalize tcpOpen app true (s.begin options k nowMs) = opened at hopens
  cases hopens with
  | failed hbooks hheld hsocket hlookup hlog hnew =>
    exact .refuse h.books hbooks hheld hsocket hlookup hlog hnew
  | pending hinv hengaged _ hlog =>
    exact .accept hlog hinv fun e hmem =>
      engaged_eq_none_of_closed hinv.books.attempts hmem rfl hengaged
  | finished hends =>
    obtain ⟨⟨hinv, hlog⟩, r, hdone⟩ := hends
    refine .accept hlog hinv fun e hmem => ?_
    cases hinv.books.attempts.closed_unique hmem hdone rfl rfl

def Site.looks (s : Site κ) (n : Nat) (deadlineMs : UInt64) : Site κ :=
  { s.note (.looking n) with
    lookup := some deadlineMs, connector := { s.connector with state := .resolving } }

theorem looks_inv (hp : Poised s n k startMs timeoutMs) (lookups : List (Option Errno)) :
    Inv ({ s with lookups }.looks n (startMs + Resolve.timeoutMs)) := by
  have hfits : Fits s.log (.looking n) := ⟨trivial, trivial, trivial⟩
  refine .of_held (hp.books.told hp.held.began hfits rfl rfl) (hp.held.told rfl).keep
    (.resolving rfl hp.socket rfl reaches_add mem_cons_self fun i hi => ?_)
  obtain heq | hmem := mem_cons.mp hi
  · cases heq
  · exact hp.opened i hmem

theorem startNamed_starts (h : Inv s)
    (hp : Poised (s.begin options k nowMs) s.attempts k nowMs options.timeoutMs) :
    Starts s (match resolveStart (s.begin options k nowMs) nowMs with
      | (some e, t) =>
        ((some e, { reason := .lookupFailed, detail := .errno e }),
          (clearAttempt t).note (.refused s.attempts e))
      | (none, t) =>
        ((none, {}), ({ t.note (.looking s.attempts) with
          connector :=
            { t.connector with state := .resolving } }).note (.accepted s.attempts))) := by
  have hrefuse (e : Errno) (lookups : List (Option Errno)) : Starts s
      ((some e, { reason := .lookupFailed, detail := .errno e }),
        (clearAttempt { s.begin options k nowMs with lookups }).note (.refused s.attempts e)) :=
    .refuse h.books hp.books hp.held.keep hp.socket hp.lookup suffix_rfl fun _ => .inl
  have haccept (lookups : List (Option Errno)) : Starts s ((none, {}),
      ({ s.begin options k nowMs with lookups }.looks s.attempts (nowMs + Resolve.timeoutMs)).note
        (.accepted s.attempts)) := by
    have hinv := looks_inv hp lookups
    refine .accept (suffix_cons _ _) hinv fun e hmem => ?_
    exact engaged_eq_none_of_closed hinv.books.attempts hmem rfl hp.held.engaged
  have hidle : (s.begin options k nowMs).lookup.isSome = false := by
    rw [hp.lookup]
    rfl
  unfold resolveStart
  rw [hidle]
  cases hlookups : (s.begin options k nowMs).lookups with
  | nil => exact haccept []
  | cons answer lookups =>
    cases answer with
    | some e => exact hrefuse e lookups
    | none => exact haccept lookups

theorem start_starts (happ : Obeys app) (h : Inv s) : Starts s (start app s c) := by
  unfold start
  split
  · rename_i options k _ _
    split
    · exact .unchanged h
    · rename_i hargs
      split
      · exact .unchanged h
      · rename_i hidle
        have hstate : s.connector.state = .idle := by simpa [busy] using hidle
        have hp := begin_poised h hstate options k c.nowMs fun hzero => hargs (.inr (.inr hzero))
        split
        · exact startLiteral_starts happ h hp
        · exact startNamed_starts h hp
  · exact .unchanged h

theorem Reaches.lt_of_lt (h : Reaches fromMs spanMs deadlineMs) (hlt : nowMs < deadlineMs) :
    nowMs.toNat < fromMs.toNat + spanMs.toNat := by
  have hnow := nowMs.toNat_lt
  have hlt' := UInt64.lt_iff_toNat_lt.mp hlt
  by_cases hfits : fromMs.toNat + spanMs.toNat < 2 ^ 64
  · rw [← h hfits]
    exact hlt'
  · omega

theorem Reaches.far_of_zero (h : Reaches fromMs spanMs 0) (hpos : 0 < spanMs.toNat) :
    2 ^ 64 ≤ fromMs.toNat + spanMs.toNat := by
  by_contra hnear
  have hzero := h (lt_of_not_ge hnear)
  rw [UInt64.toNat_zero] at hzero
  omega

theorem Reaches.of_zero (h : Reaches fromMs spanMs 0) (hpos : 0 < spanMs.toNat) :
    Reaches fromMs spanMs deadlineMs :=
  fun hnear => absurd hnear (not_lt.mpr (h.far_of_zero hpos))

theorem Reaches.lt_of_zero (h : Reaches fromMs spanMs 0) (hpos : 0 < spanMs.toNat)
    (nowMs : UInt64) : nowMs.toNat < fromMs.toNat + spanMs.toNat :=
  nowMs.toNat_lt.trans_le (h.far_of_zero hpos)

section Due
variable {log : List (Event κ)}

theorem looking_mem_spared : Event.looking n ∈ Event.spared nowMs m :: log ↔ .looking n ∈ log := by
  simp

theorem firstSpared_spared :
    firstSpared n (.spared nowMs n :: log) = (firstSpared n log).or (some nowMs) := if_pos rfl

theorem Due.set (h : Due n startMs timeoutMs log 0) (hpos : 0 < timeoutMs.toNat) :
    Due n startMs timeoutMs (.spared nowMs n :: log) (nowMs + timeoutMs) := by
  refine ⟨fun _ hnone => ?_, fun hmem firstMs hsome => ?_, fun hmem => ?_⟩
  · rw [firstSpared_spared] at hnone
    cases hfirst : firstSpared n log <;> rw [hfirst] at hnone <;> cases hnone
  · rw [firstSpared_spared] at hsome
    cases hfirst : firstSpared n log with
    | none =>
      rw [hfirst] at hsome
      cases hsome
      exact reaches_add
    | some =>
      rw [hfirst] at hsome
      cases hsome
      exact (h.named (looking_mem_spared.mp hmem) firstMs hfirst).of_zero hpos
  · exact (h.literal (looking_mem_spared.not.mp hmem)).of_zero hpos

theorem Due.keep (h : Due n startMs timeoutMs log deadlineMs) (hset : deadlineMs ≠ 0) :
    Due n startMs timeoutMs (.spared nowMs n :: log) deadlineMs := by
  refine ⟨fun hmem hnone => ?_, fun hmem firstMs hsome => ?_, fun hmem => ?_⟩
  · rw [firstSpared_spared] at hnone
    exact h.unset (looking_mem_spared.mp hmem) (Option.or_eq_none_iff.mp hnone).1
  · have hmem' := looking_mem_spared.mp hmem
    rw [firstSpared_spared] at hsome
    cases hfirst : firstSpared n log with
    | none => exact absurd (h.unset hmem' hfirst) hset
    | some =>
      rw [hfirst] at hsome
      cases hsome
      exact h.named hmem' firstMs hfirst
  · exact h.literal (looking_mem_spared.not.mp hmem)

theorem Due.inTime (h : Due n startMs timeoutMs log deadlineMs) (hopened : .opened n i ∈ log)
    (hlt : ∀ fromMs, Reaches fromMs timeoutMs deadlineMs →
      nowMs.toNat < fromMs.toNat + timeoutMs.toNat) : InTime nowMs n startMs timeoutMs log where
  lookup hnone := absurd hopened (hnone i)
  named _ _ hmem firstMs hsome := hlt firstMs (h.named hmem firstMs hsome)
  literal _ _ hmem := hlt startMs (h.literal hmem)

end Due

theorem spare_inv (h : Books s) (hh : Held s n k startMs timeoutMs)
    (hin : InTime nowMs n startMs timeoutMs s.log)
    (hw : Working { s.note (.spared nowMs n) with
      connector := { s.connector with deadlineMs } } n startMs timeoutMs) :
    Inv { s.note (.spared nowMs n) with connector := { s.connector with deadlineMs } } := by
  have hfits : Fits s.log (.spared nowMs n) := by
    refine ⟨trivial, trivial, fun k' startMs' timeoutMs' hbegan => ?_⟩
    cases h.attempts.opened_unique hbegan hh.began rfl rfl
    exact hin
  exact .of_held (h.told hh.began hfits rfl rfl) (hh.told rfl).keep hw

theorem tickConnect_runs (happ : Obeys app) (h : Inv s)
    (hseen : ∀ n deadlineMs, seen = some n → engaged Event.stage s.log = some n →
      s.lookup = some deadlineMs → nowMs < deadlineMs) : Runs (tickConnect app nowMs seen s)
        s.log := by
  unfold tickConnect
  split
  · exact ⟨h, suffix_rfl⟩
  · rename_i hstate
    split
    · rename_i hattempt
      obtain ⟨n, _, startMs, timeoutMs, hh, hworking⟩ := h.held (by rw [hstate]; simp)
      cases hworking with
      | connecting hstate' => cases hstate.symm.trans hstate'
      | resolving _ hsocket hlookup hreaches hlooking hopened =>
        rw [hh.attempt] at hattempt ⊢
        have hlt := hseen n _ hattempt hh.engaged hlookup
        have hin : InTime nowMs n startMs timeoutMs s.log :=
          ⟨fun _ => hreaches.lt_of_lt hlt, fun i hmem => absurd hmem (hopened i),
            fun i hmem => absurd hmem (hopened i)⟩
        exact ⟨spare_inv h.books hh hin (.resolving hstate hsocket hlookup hreaches
          (.tail _ hlooking) (by simpa [Site.note])), suffix_cons _ _⟩
    · exact ⟨h, suffix_rfl⟩
  · rename_i hstate
    obtain ⟨n, _, _, _, hh, hworking⟩ := h.held (by rw [hstate]; simp)
    cases hworking with
    | resolving hstate' => cases hstate.symm.trans hstate'
    | connecting _ hlookup hsocket hopened hdue =>
      rw [hh.attempt, hh.timeout]
      have hopened' := mem_cons_of_mem (Event.spared nowMs n) hopened
      split
      · rename_i hunset
        rw [hunset] at hdue
        have hin := hdue.inTime hopened fun fromMs hreaches => hreaches.lt_of_zero hh.pos nowMs
        exact ⟨spare_inv h.books hh hin (.connecting hstate hlookup hsocket hopened'
          (hdue.set hh.pos)), suffix_cons _ _⟩
      · rename_i hset
        split
        · exact (completeFailure_ends happ h.books hh hlookup).runs
        · rename_i hearly
          have hlt := UInt64.not_le.mp hearly
          have hin := hdue.inTime hopened fun fromMs hreaches => hreaches.lt_of_lt hlt
          exact ⟨spare_inv h.books hh hin (.connecting hstate hlookup hsocket hopened'
            (hdue.keep hset)), suffix_cons _ _⟩

theorem tick_runs (happ : Obeys app) (h : Inv s) : Runs (tick app nowMs s) s.log := by
  have hnow : Inv { s with connector := { s.connector with nowMs } } := h.keep
  obtain ⟨hresolve, hearly⟩ := resolveTick_runs happ hnow nowMs
  exact hresolve.trans (tickConnect_runs happ hresolve.inv fun n deadlineMs hseen =>
    hearly n deadlineMs (h.current ▸ hseen))

theorem cancel_runs (h : Inv s) : Runs (cancel s) s.log ∧ (cancel s).connector.registration = none ∧
    (cancel s).connector.state = .idle := by
  have hbooks : Books { s with lookup := none } := h.books
  have hd := dropSocket_drops hbooks
  have hidle : Idle (clearAttempt (dropSocket { s with lookup := none })) :=
    ⟨rfl, congrArg Connector.socket hd.connector, rfl, hd.lookup⟩
  have hreg : (clearAttempt (dropSocket { s with lookup := none })).connector.registration = none :=
    congrArg Connector.registration hd.connector
  unfold cancel
  cases hdone : s.connector.onDone with
  | none =>
    have hstate : s.connector.state = .idle := by
      by_contra hbusy
      obtain ⟨n, k, _, _, hh, -⟩ := h.held hbusy
      cases hh.onDone.symm.trans hdone
    exact ⟨⟨.ended hd.books (hd.engaged.trans (h.idle hstate).1) hidle, hd.log⟩, hreg, rfl⟩
  | some onDone =>
    have hbusy : s.connector.state ≠ .idle := fun hidle => by
      cases (h.idle hidle).2.onDone.symm.trans hdone
    obtain ⟨n, _, startMs, timeoutMs, hh, -⟩ := h.held hbusy
    cases hh.onDone.symm.trans hdone
    have hbegan := hd.log.subset hh.began
    have hfits : Fits (dropSocket { s with lookup := none }).log (.cancelled n onDone) :=
      ⟨hd.engaged.trans hh.engaged, trivial, startMs, timeoutMs, hbegan⟩
    rw [hh.attempt]
    exact ⟨⟨.ended (hd.books.told hbegan hfits rfl rfl) rfl
      ⟨hidle.state, hidle.socket, hidle.onDone, hidle.lookup⟩, hd.log.trans (suffix_cons _ _)⟩,
        hreg, rfl⟩

theorem shutdown_runs (h : Inv s) : Runs (shutdown s) s.log := by
  obtain ⟨⟨hinv, hlog⟩, hreg, hstate⟩ := cancel_runs h
  obtain ⟨hnone, hidle⟩ := hinv.idle hstate
  refine ⟨.ended { hinv.books with registered := fun i hi => ?_ } hnone
    ⟨hstate, hidle.socket, hidle.onDone, rfl⟩, hlog⟩
  cases hreg.symm.trans hi

theorem Call.runs (c : Call κ) (happ : Obeys app) (h : Inv s) : Runs (c.step app s) s.log := by
  cases c with
  | start => exact (start_starts happ h).runs
  | ready => exact onFd_runs happ h
  | resolved result => exact (deliver_runs happ h result).1
  | tick => exact tick_runs happ h
  | cancel => exact (cancel_runs h).1
  | shutdown => exact shutdown_runs h

theorem foldl_runs {run : Site κ → Call κ → Site κ} (hrun : ∀ s c, Inv s → Runs (run s c) s.log)
    (calls : List (Call κ)) (h : Inv s) : Runs (calls.foldl run s) s.log := by
  induction calls generalizing s with
  | nil => exact ⟨h, suffix_rfl⟩
  | cons c _ ih =>
    have hc := hrun s c h
    exact hc.trans (ih hc.inv)

theorem appAt_runs (s : Site κ) (h : Inv s) : Runs (appAt depth s) s.log := by
  induction depth generalizing s with
  | zero => exact ⟨h, suffix_rfl⟩
  | succ _ ih =>
    unfold appAt callback
    split
    · exact ⟨h, suffix_rfl⟩
    · rename_i script scripts _
      have hscripts : Inv { s with scripts } := h.keep
      exact foldl_runs (fun s c hs => c.runs ih hs) script hscripts

theorem run_runs (h : Inv s) : Runs (run depth s calls) s.log :=
  foldl_runs (fun _ c hs => c.runs appAt_runs hs) calls h

theorem Site.Fresh.inv (h : s.Fresh) : Inv s := by
  obtain ⟨_, hconnector⟩ := h.connector
  obtain ⟨c, _, _, _, _, _, _, _, _, _, _, log⟩ := s
  obtain rfl : c = _ := hconnector
  obtain rfl : log = [] := h.log
  exact .ended ⟨.nil, .nil, .nil, rfl, nofun, h.watching, nofun, nofun⟩ rfl
    ⟨rfl, rfl, rfl, h.lookup⟩

theorem tickConnect_spares (happ : Obeys app) (h : Inv s)
    (hbefore : engaged Event.stage s.log = some n)
    (hafter : engaged Event.stage (tickConnect app nowMs (some n) s).log = some n) :
    (tickConnect app nowMs (some n) s).log = .spared nowMs n :: s.log := by
  have hbusy : s.connector.state ≠ .idle := fun hidle => by
    cases (h.idle hidle).1.symm.trans hbefore
  obtain ⟨m, _, _, _, hh, hworking⟩ := h.held hbusy
  cases hh.engaged.symm.trans hbefore
  unfold tickConnect at hafter ⊢
  rw [hh.attempt] at hafter ⊢
  cases hworking with
  | resolving hstate =>
    simp only [hstate, if_true]
    rfl
  | connecting hstate hlookup =>
    simp only [hstate] at hafter ⊢
    split
    · rfl
    · rename_i hset
      rw [if_neg hset] at hafter
      split
      · rename_i hlate
        rw [if_pos hlate] at hafter
        have hends : Ends (completeFailure app { reason := .timedOut } s) s.log _ _ :=
          completeFailure_ends happ h.books hh hlookup
        obtain ⟨_, hdone⟩ := hends.done
        exact absurd hafter (engaged_eq_none_of_closed hends.runs.inv.books.attempts hdone rfl)
      · rfl

theorem tick_spares (happ : Obeys app) (h : Inv s) (hbefore : s.current = some n)
    (hafter : (tick app nowMs s).current = some n) :
    ∃ before, (tick app nowMs s).log = .spared nowMs n :: before := by
  have hnow : Inv { s with connector := { s.connector with nowMs } } := h.keep
  obtain ⟨hresolve, hearly⟩ := resolveTick_runs happ hnow nowMs
  have hengaged : engaged Event.stage s.log = some n := h.current ▸ hbefore
  have hleft : engaged Event.stage (tick app nowMs s).log = some n :=
    (tick_runs happ h).inv.current ▸ hafter
  unfold tick at hleft ⊢
  rw [hbefore] at hleft ⊢
  have hconnect := tickConnect_runs happ hresolve.inv fun m deadlineMs hseen =>
    hearly m deadlineMs (hseen ▸ hengaged)
  have hbetween :=
    hconnect.inv.books.attempts.engaged_between hresolve.log hconnect.log hengaged hleft
  exact ⟨_, tickConnect_spares happ hresolve.inv hbetween hleft⟩

/-- Every attempt accepted is ended once, by its callback or a cancel, unless it is at hand, and a
refused one never calls back; every socket is the connector's until it is closed or given away,
once; what is held is of the attempt at hand; and a tick leaves an attempt only while its lookup,
and then its connect, has time left. -/
theorem run_attempts (hs : s.Fresh) (depth : Nat) (calls : List (Call κ)) :
    let t := run depth s calls
    (∀ n, .accepted n ∈ t.log → (∀ e, .refused n e ∉ t.log) ∧
      closings Event.stage n t.log = if t.current = some n then 0 else 1) ∧
    (∀ n k startMs timeoutMs, .began n k startMs timeoutMs ∈ t.log →
      ∀ k' r, .done n k' r ∈ t.log → k' = k) ∧
    (∀ n e, .refused n e ∈ t.log → ∀ k r, .done n k r ∉ t.log) ∧
    (∀ c e, (start (appAt depth) t c).1.1 = some e →
      ∀ n k r, .done n k r ∈ (start (appAt depth) t c).2.log → .done n k r ∈ t.log) ∧
    t.connector.socket = engaged Event.custody t.log ∧
    (∀ past, past <:+ t.log → ∀ n i, .opened n i ∈ past →
      closings Event.custody i past + (if engaged Event.custody past = some i then 1 else 0) = 1) ∧
    (∀ n, t.current = some n → ∃ k startMs timeoutMs,
      Held t n k startMs timeoutMs ∧ Working t n startMs timeoutMs) ∧
    (∀ after before nowMs n, t.log = after ++ .spared nowMs n :: before →
      ∀ k startMs timeoutMs, .began n k startMs timeoutMs ∈ before →
        InTime nowMs n startMs timeoutMs before) ∧
    ∀ n nowMs, t.current = some n → (perform depth t (.tick nowMs)).current = some n →
      ∃ before, (perform depth t (.tick nowMs)).log = .spared nowMs n :: before := by
  intro t
  have h : Inv t := (run_runs hs.inv).inv
  have hb := h.books
  refine ⟨?_, ?_, ?_, ?_, hb.socket, ?_, ?_, ?_, ?_⟩
  · intro n haccepted
    refine ⟨fun e hrefused => ?_, ?_⟩
    · obtain ⟨_, ⟨hrightful, hmem⟩ | ⟨hrightful, hmem⟩⟩ :=
        hb.rightful.either haccepted hrefused nofun
      · exact hrightful.2 e hmem
      · exact hrightful hmem
    · obtain ⟨_, before, hsplit⟩ := append_of_mem haccepted
      obtain ⟨⟨k, startMs, timeoutMs, hbegan⟩, -⟩ :=
        hb.rightful (.accepted n) before (hsplit ▸ suffix_append _ _)
      have hmem : .began n k startMs timeoutMs ∈ t.log := by
        rw [hsplit]
        exact mem_append_right _ (mem_cons_of_mem _ hbegan)
      have hclosings := hb.attempts.closings_eq hmem rfl
      rw [← h.current] at hclosings
      split at hclosings
      · rw [if_pos ‹_›]
        exact Nat.succ.inj hclosings
      · rw [if_neg ‹_›]
        exact hclosings
  · intro n k _ _ hbegan k' r hdone
    obtain ⟨_, before, hsplit⟩ := append_of_mem hdone
    obtain ⟨startMs', timeoutMs', hbegan'⟩ :=
      hb.rightful (.done n k' r) before (hsplit ▸ suffix_append _ _)
    have hmem : .began n k' startMs' timeoutMs' ∈ t.log := by
      rw [hsplit]
      exact mem_append_right _ (mem_cons_of_mem _ hbegan')
    cases hb.attempts.opened_unique hmem hbegan rfl rfl
    rfl
  · intro n e hrefused k r hdone
    cases hb.attempts.closed_unique hrefused hdone rfl rfl
  · intro c e he
    exact (start_starts appAt_runs h).silent (by rw [he]; rfl)
  · intro _ hpast n i hopened
    exact (hb.custody.suffix hpast).closings_eq hopened rfl
  · intro n hn
    have hquiet := h.quiet
    unfold Quiet at hquiet
    rw [← h.current, hn] at hquiet
    exact hquiet
  · intro _ before nowMs n hlog
    exact hb.rightful (.spared nowMs n) before (hlog ▸ suffix_append _ _)
  · intro n _ hbefore hafter
    exact tick_spares appAt_runs h hbefore hafter

def toLiteral : Start Unit where
  host := some [0x31]
  port := 80
  options := some { timeoutMs := 100 }
  onDone := some ()
  nowMs := 0
  literal := true

def atOnce : Site Unit where
  connector := { loop := true }
  openings := [{ connected := .done }]
  scripts := [[.start { toLiteral with literal := false }]]

theorem run_attempts_nested :
    let t := run 1 atOnce [.start toLiteral]
    t.current = some 1 ∧ closings Event.stage 0 t.log = 1 ∧ closings Event.stage 1 t.log = 0 ∧
      (∀ e, .refused 0 e ∉ t.log) ∧ t.connector.socket = none ∧
      closings Event.custody 0 t.log = 1 := by
  intro t
  have h := run_attempts (s := atOnce) ⟨⟨true, rfl⟩, rfl, rfl, rfl, rfl, rfl⟩ 1 [.start toLiteral]
  have hcurrent : t.current = some 1 := rfl
  have hfirst := h.1 0 (by decide)
  have hsecond := h.1 1 (by decide)
  have hsocket := h.2.2.2.2.2.1 t.log suffix_rfl 0 0 (by decide)
  refine ⟨hcurrent, ?_, ?_, hfirst.1, rfl, ?_⟩
  · simpa [t, hcurrent] using hfirst.2
  · simpa [t, hcurrent] using hsecond.2
  · have hnone : engaged Event.custody t.log = none := by decide
    simpa [t, hnone] using hsocket

end Inkwell.Tcp
