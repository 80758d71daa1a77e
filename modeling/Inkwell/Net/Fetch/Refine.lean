import Inkwell.Net.Fetch.Flight

namespace Inkwell.Fetch
open Net Http List

variable {σ : Type} {called : Core → Core → Prop} {cb : Nat → Result → Sys σ → Sys σ} {s : Sys σ}
  {conn : Conn} {c : Core}

theorem closeOutput_spec (s : Sys σ) (conn : Conn) (o : Outcome) :
    ∃ o' conn' s', closeOutput s conn o = (o', conn', s') ∧ (o' = o ∨ o = .ok ∧ o' = .file) ∧
      conn'.onDone = conn.onDone ∧ (finalResult conn' o').Of conn.flight o' ∧
      (conn'.token = conn.token ∧ conn'.socket = conn.socket ∧ conn'.outFd = false) ∧
      s'.trace = s.trace ∧ s'.fetch = s.fetch ∧ s'.app = s.app ∧ s'.files = s.files := by
  have hof : ∀ o', (finalResult conn o').Of conn.flight o' := fun o' => ⟨rfl, rfl, rfl, rfl⟩
  unfold closeOutput Net.next
  split
  · rename_i hfile
    rw [Bool.not_eq_true'] at hfile
    exact ⟨o, conn, s, rfl, .inl rfl, rfl, hof o, ⟨rfl, rfl, hfile⟩, rfl, rfl, rfl, rfl⟩
  simp only
  split
  · split
    · rename_i ho
      exact ⟨_, _, _, rfl, .inr ⟨ho, rfl⟩, rfl, ⟨rfl, rfl, rfl, rfl⟩, ⟨rfl, rfl, rfl⟩, rfl, rfl,
        rfl, rfl⟩
    · exact ⟨_, _, _, rfl, .inl rfl, rfl, ⟨rfl, rfl, rfl, rfl⟩, ⟨rfl, rfl, rfl⟩, rfl, rfl, rfl, rfl⟩
  · exact ⟨_, _, _, rfl, .inl rfl, rfl, ⟨rfl, rfl, rfl, rfl⟩, ⟨rfl, rfl, rfl⟩, rfl, rfl, rfl, rfl⟩

theorem fetchFree_released (h : conn.token = none ∧ conn.socket = none ∧ conn.outFd = false) :
    fetchFree s conn = s := by
  obtain ⟨htoken, hsocket, hfile⟩ := h
  unfold fetchFree Sys.drop
  rw [htoken, hsocket, hfile]
  simp

theorem fetchComplete_spec (cb : Nat → Result → Sys σ → Sys σ) (s : Sys σ) (conn : Conn)
    (o : Outcome) :
    ∃ o' result idle, (o' = o ∨ o = .ok ∧ o' = .file) ∧ Result.Of result conn.flight o' ∧
      idle.core = .ended s.trace conn.flight o' result ∧
      idle.fetch = { s.fetch with conn := none, lookup := none } ∧
      (idle.app = s.app ∧ idle.files = s.files) ∧
      fetchComplete cb s conn o =
        match conn.onDone with
        | none => idle
        | some id => cb id result idle := by
  obtain ⟨o', conn', s', hclose, ho, hdone, hof, hheld, htrace, hfetch, happ, hfiles⟩ :=
    closeOutput_spec
    (Sys.drop { s with fetch := { s.fetch with conn := none, lookup := none } } conn)
    (dropSocket conn) o
  have hdone' : conn'.onDone = conn.onDone := hdone
  unfold fetchComplete
  simp only [hclose, fetchFree_released hheld]
  rw [← hdone']
  have htrace' : s'.trace = s.trace := htrace
  have hflight : s'.fetch.conn = none := by
    rw [hfetch]
    rfl
  cases hid : conn'.onDone with
  | none =>
    refine ⟨o', finalResult conn' o', s'.log (.completed o'), ho, hof, ?_, hfetch,
      ⟨happ, hfiles⟩, rfl⟩
    have hended : conn.flight.onDone = none := hdone'.symm.trans hid
    unfold Sys.core Core.ended Sys.log
    simp only [hended, htrace', hflight]
    rfl
  | some id =>
    refine ⟨o', finalResult conn' o',
      (s'.log (.completed o')).log (.done id (finalResult conn' o')), ho, hof, ?_, hfetch,
      ⟨happ, hfiles⟩, rfl⟩
    have hended : conn.flight.onDone = some id := hdone'.symm.trans hid
    unfold Sys.core Core.ended Sys.log
    simp only [hended, htrace', hflight]
    rfl

theorem fetchCapture_spec :
    (∃ s', fetchCapture s conn bytes = (some { conn with body := conn.body ++ bytes }, s') ∧
      s'.trace = s.trace ∧ conn.body.length + bytes.length ≤ conn.responseMax) ∨
    ∃ s', fetchCapture s conn bytes = (none, s') ∧
      (s'.trace = s.trace ∧ conn.responseMax < conn.body.length + bytes.length ∨
        s'.trace = .outOfMemory :: s.trace) := by
  unfold fetchCapture Net.next
  split
  · rename_i hcap
    refine .inr ⟨s, rfl, .inl ⟨rfl, ?_⟩⟩
    rcases hcap with h | h
    · exact lt_of_lt_of_le h (Nat.le_add_left _ _)
    · exact h
  · rename_i hcap
    simp only
    split
    · exact .inl ⟨_, rfl, rfl, le_of_not_gt fun h => hcap (.inr h)⟩
    · exact .inr ⟨_, rfl, .inr rfl⟩

theorem writeAll_spec : (writeAll writes bytes).bytes <+: bytes ∧
      ((writeAll writes bytes).failed = none → (writeAll writes bytes).bytes = bytes) := by
  fun_induction writeAll writes bytes with
  | case1 | case2 => exact ⟨prefix_rfl, fun _ => rfl⟩
  | case3 => assumption
  | case4 | case5 => exact And.intro nil_prefix nofun
  | case6 n _ bytes _ _ ih =>
    obtain ⟨hpre, hall⟩ := ih
    refine ⟨?_, ?_⟩
    · have hsplit := prefix_append_right_inj (bytes.take (n + 1)) |>.mpr hpre
      rw [take_append_drop] at hsplit
      exact hsplit
    · intro hf
      have hrest := hall hf
      rw [hrest, take_append_drop]

theorem fetchOpen_spec : (∃ conn' s', fetchOpen s conn address = (true, conn', s') ∧
      conn'.flight = { conn.flight with phase := .connecting } ∧
      s'.trace = .tried address :: s.trace) ∨
    ∃ conn' s', fetchOpen s conn address = (false, conn', s') ∧ conn'.flight = conn.flight ∧
      s'.trace = .tried address :: s.trace := by
  unfold fetchOpen Net.next
  simp only
  iterate 3
    split
    · exact .inr ⟨_, _, rfl, rfl, rfl⟩
  · exact .inl ⟨_, _, rfl, rfl, rfl⟩

theorem resolveStart_spec (s : Sys σ) (host : Bytes) : (resolveStart s host).2.trace = s.trace := by
  unfold resolveStart Net.next
  iterate 3
    split
    · rfl
  simp only
  split <;> rfl

theorem redirects_range (h : redirects status) : 300 ≤ status ∧ status ≤ 399 := by
  simp only [redirects, Bool.or_eq_true, beq_iff_eq] at h
  omega

structure Going (r : Response) : Prop where
  counted : Counted r
  unfinished : responseOver r = false

theorem responseFeed_counted (h : Counted r) (bytes : Bytes) :
    Counted (responseFeed r bytes).response :=
  responseFeed_induction (fun _ c hr _ => byteStep_counted c hr) h h

theorem Decided.same (h : Decided f t f' t') : f'.response = f.response ∧ f'.phase = f.phase := by
  cases h <;> exact ⟨rfl, rfl⟩

theorem Sunk.same (h : Sunk f t bytes f' t') : f'.response = f.response ∧ f'.phase = f.phase := by
  cases h <;> exact ⟨rfl, rfl⟩

theorem Decided.terms (h : Decided f t f' t') : f'.terms = f.terms := by cases h <;> rfl

theorem Sunk.terms (h : Sunk f t bytes f' t') : f'.terms = f.terms := by cases h <;> rfl

section
variable (hcb : Cooperative called cb)
include hcb

theorem fetchComplete_steps
    (h : ∀ o' result, (o' = o ∨ o = .ok ∧ o' = .file) → Result.Of result conn.flight o' →
      Steps called c (.ended s.trace conn.flight o' result)) :
    Steps called c (fetchComplete cb s conn o).core := by
  obtain ⟨o', result, idle, ho, hof, hidle, _, _, heq⟩ := fetchComplete_spec cb s conn o
  have hended := h o' result ho hof
  rw [← hidle] at hended
  rw [heq]
  cases conn.onDone with
  | none => exact hended
  | some id =>
    have hflight : idle.core.flight = none := by
      rw [hidle]
      rfl
    exact hended.trans (hcb id result idle hflight)

theorem fetchFail_told (ho : o ≠ .ok)
    (h : ∀ result, Result.Of result conn.flight o →
      Steps called c (.ended s.trace conn.flight o result)) :
    Steps called c (fetchFail cb s conn o message).core := by
  refine fetchComplete_steps hcb ?_
  intro o' result ho' hr
  have hsame : o' = o := ho'.resolve_right fun h => ho h.1
  subst hsame
  exact h result hr

theorem fetchFail_steps (hc : c.flight = some f) (hdone : conn.onDone = f.onDone)
    (htrace : s.trace = events ++ c.trace) (he : LastWords events) (ho : o ≠ .ok)
    (hlarge : o = .tooLarge → f.method = .head) :
    Steps called c (fetchFail cb s conn o message).core := by
  refine fetchFail_told hcb ho ?_
  intro result hr
  have hact : Act c (.ended (events ++ c.trace) f o result) :=
    .failed hc he o ho hlarge result hr.outcome
  unfold Core.ended at hact ⊢
  rw [htrace, show conn.flight.onDone = f.onDone from hdone]
  exact .one hact

theorem fetchFail_held (hc : c.flight = some f) (htrace : s.trace = c.trace)
    (hdone : conn.onDone = f.onDone) (ho : o ≠ .ok ∧ o ≠ .tooLarge) :
    Steps called c (fetchFail cb s conn o message).core := by
  refine fetchFail_steps hcb hc hdone ?_ .none ho.1 (fun h => absurd h ho.2)
  rw [htrace, nil_append]

theorem fetchSink_spec :
    (∃ conn' s', fetchSink cb s conn bytes = (some conn', s') ∧
      Sunk conn.flight s.trace bytes conn'.flight s'.trace) ∨
    ∃ s', fetchSink cb s conn bytes = (none, s') ∧ ∀ c,
      (∀ o t result, Spilled conn.flight s.trace bytes o t → Result.Of result conn.flight o →
        Steps called c (.ended t conn.flight o result)) → Steps called c s'.core := by
  unfold fetchSink
  by_cases hfile : conn.outFd
  · rw [if_neg (by simp [hfile])]
    split
    · rename_i hcap
      refine .inr ⟨_, rfl, ?_⟩
      intro c h
      refine fetchFail_told hcb nofun ?_
      intro result hr
      exact h _ _ result (.filePassed hfile hcap.1 hcap.2) hr
    · rename_i hcap
      have hroom : conn.outputMax > 0 → bytes.length ≤ conn.outputMax - conn.outWritten :=
        fun hmax => le_of_not_gt fun hlt => hcap ⟨hmax, hlt⟩
      obtain ⟨hpre, hall⟩ := writeAll_spec
      simp only
      split
      · refine .inr ⟨_, rfl, ?_⟩
        intro c h
        refine fetchFail_told hcb nofun ?_
        intro result hr
        exact h _ _ result (.failed hfile hroom _ hpre) ⟨hr.outcome, hr.status, hr.body, hr.host⟩
      · rename_i hnone
        refine .inl ⟨_, _, rfl, ?_⟩
        rw [hall hnone]
        exact .written hfile hroom
  · have hmemory : conn.flight.file = false := Bool.eq_false_iff.mpr hfile
    rw [if_pos (by simp [hfile])]
    rcases fetchCapture_spec with ⟨_, hcapture, htrace, hcap⟩ | ⟨_, hcapture, hwhy⟩
    · rw [hcapture]
      refine .inl ⟨_, _, rfl, ?_⟩
      rw [htrace]
      exact .captured hmemory hcap
    · rw [hcapture]
      refine .inr ⟨_, rfl, ?_⟩
      intro c h
      refine fetchFail_told hcb nofun ?_
      intro result hr
      rcases hwhy with ⟨htrace, hcap⟩ | htrace
      · rw [htrace]
        exact h _ _ result (.passed hmemory hcap) hr
      · rw [htrace]
        exact h _ _ result (.noMemory hmemory) hr

theorem fetchComplete_network (hc : s.hold conn [] = c) :
    Steps called c (fetchComplete cb s conn .network).core := by
  subst hc
  have hfail : Steps called (s.hold conn []) (fetchFail cb s conn .network conn.detail).core :=
    fetchFail_held hcb rfl rfl rfl ⟨nofun, nofun⟩
  exact hfail

theorem tryAddresses_steps (hc : s.hold conn [] = c) (hp : conn.phase.dialling) :
    Steps called c (tryAddresses cb left s conn).core := by
  induction left generalizing s conn c with
  | zero => exact fetchComplete_network hcb hc
  | succ _ ih =>
    unfold tryAddresses
    split
    · exact fetchComplete_network hcb hc
    subst hc
    rename_i address _
    have htried : Steps called (s.hold conn []) ((s.hold conn []).log (.tried address)) :=
      .one (.tried rfl hp address)
    rcases fetchOpen_spec with
      ⟨conn', s', hopen, hflight, htrace⟩ | ⟨conn', s', hopen, hflight, htrace⟩
    · rw [hopen]
      have hhold : s'.hold conn' [] =
          ⟨some { conn.flight with phase := .connecting }, [], .tried address :: s.trace⟩ := by
        unfold Sys.hold
        rw [hflight, htrace]
        rfl
      have hdialled : Act ((s.hold conn []).log (.tried address)) (s'.hold conn' []) := by
        rw [hhold]
        exact .dialled rfl hp
      exact htried.trans (.one hdialled)
    · rw [hopen]
      have hhold : s'.hold conn' [] = (s.hold conn []).log (.tried address) := by
        unfold Sys.hold
        rw [hflight, htrace]
        rfl
      have hphase : conn'.phase = conn.phase := congrArg Flight.phase hflight
      exact htried.trans (ih hhold (hphase ▸ hp))

theorem fetchTryNext_steps (hc : s.hold conn [] = c) (hp : conn.phase.dialling) :
    Steps called c (fetchTryNext cb s conn).core :=
  tryAddresses_steps hcb hc hp

theorem lookUp_steps (hc : s.hold conn [] = c) : Steps called c (lookUp cb s conn host).core := by
  subst hc
  unfold lookUp
  have htrace := resolveStart_spec s host
  generalize resolveStart s host = w at *
  obtain ⟨r, s'⟩ := w
  cases r with
  | none =>
    have hhold : s.hold conn [] = s'.hold conn [] := by
      unfold Sys.hold
      rw [htrace]
    rw [hhold]
    exact .refl
  | some => exact fetchFail_held hcb rfl htrace rfl ⟨nofun, nofun⟩

theorem fetchHop_steps
    (h : Steps called c ⟨some conn.flight.hopping, [], .hop conn.url :: s.trace⟩) :
    Steps called c (fetchHop cb s conn).core := by
  have hrest :
      Steps called ((s.log (.hop conn.url)).hold (hopping conn) []) (fetchHop cb s conn).core := by
    unfold fetchHop
    simp only
    split
    · split
      · exact lookUp_steps hcb rfl
      · exact fetchTryNext_steps hcb rfl rfl
    · split
      · exact fetchTryNext_steps hcb rfl rfl
      · exact lookUp_steps hcb rfl
  exact h.trans hrest

theorem fetchRedirect_steps (hc : c.flight = some f) (hi : c.input ≠ [])
    (hflight : conn.flight = { f.fed c.input with headSeen := true })
    (htrace : s.trace = .replied (f.fed c.input).response.status :: c.trace)
    (hseen : f.headSeen = false) (hdone : responseHeadDone (f.fed c.input).response)
    (hpost : f.method ≠ .post) : Steps called c (fetchRedirect cb s conn).core := by
  have honDone : conn.onDone = f.onDone := congrArg Flight.onDone hflight
  have hfails : ∀ o message, o ≠ .ok ∧ o ≠ .tooLarge →
      Steps called c (fetchFail cb s conn o message).core := by
    intro o _ ho
    have hheard : s.trace = [.replied (f.fed c.input).response.status] ++ c.trace := htrace
    exact fetchFail_steps hcb hc honDone hheard (.replied _) ho.1 (fun h => absurd h ho.2)
  unfold fetchRedirect
  iterate 4
    split
    · exact hfails _ _ ⟨nofun, nofun⟩
  rename_i url _
  split
  · exact hfails _ _ ⟨nofun, nofun⟩
  rename_i htls
  have hredirects : conn.redirects = f.redirects := congrArg Flight.redirects hflight
  have hact : Act c ⟨some (Flight.hopping { f with url, redirects := f.redirects + 1 }), [],
      .hop url :: .replied (f.fed c.input).response.status :: c.trace⟩ :=
    .redirected hc hi hseen hdone hpost url (by simpa using htls) (by omega)
  have hhop :
      ({ dropSocket conn with url, redirects := conn.redirects + 1 } : Conn).flight.hopping =
      Flight.hopping { f with url, redirects := f.redirects + 1 } := by
    have hcopy : ({ dropSocket conn with url, redirects := conn.redirects + 1 } : Conn).flight =
        { conn.flight with url, redirects := conn.redirects + 1 } := rfl
    rw [hcopy, hflight, hredirects]
    rfl
  refine fetchHop_steps hcb ?_
  rw [hhop, show (s.drop conn).trace = s.trace from rfl, htrace]
  exact .one hact

theorem fetchOnHead_spec (hc : c.flight = some f) (hi : c.input ≠ [])
    (hflight : conn.flight = { f.fed c.input with headSeen := true }) (htrace : s.trace = c.trace)
    (hseen : f.headSeen = false) (hdone : responseHeadDone (f.fed c.input).response) :
    (∃ conn' s', fetchOnHead cb s conn = (some conn', s') ∧
      Decided (f.fed c.input) c.trace conn'.flight s'.trace) ∨
    ∃ s', fetchOnHead cb s conn = (none, s') ∧ Steps called c s'.core := by
  have honDone : conn.onDone = f.onDone := congrArg Flight.onDone hflight
  have hstatusEq : conn.response.status = (f.fed c.input).response.status :=
    congrArg (Flight.response · |>.status) hflight
  have hmethod : conn.method = f.method := congrArg Flight.method hflight
  have hranged : conn.ranged = f.ranged := congrArg Flight.ranged hflight
  have hpath : conn.outputPath = f.outputPath := congrArg Flight.outputPath hflight
  have hheard : (s.log (.replied (f.fed c.input).response.status)).trace =
      [.replied (f.fed c.input).response.status] ++ c.trace := by
    rw [← htrace]
    rfl
  have hfails : ∀ (s' : Sys σ) (conn' : Conn) o message, s'.trace =
      [.replied (f.fed c.input).response.status] ++ c.trace → conn'.onDone = f.onDone →
      o ≠ .ok ∧ o ≠ .tooLarge → Steps called c (fetchFail cb s' conn' o message).core := by
    intro _ _ o _ ht hd ho
    exact fetchFail_steps hcb hc hd ht (.replied _) ho.1 (fun h => absurd h ho.2)
  unfold fetchOnHead
  simp only [hstatusEq]
  split
  · exact .inr ⟨_, rfl, hfails _ _ _ _ hheard honDone ⟨nofun, nofun⟩⟩
  rename_i hnotPost
  split
  · rename_i hredirect
    have hpost : f.method ≠ .post := by
      intro h
      have hrange := redirects_range hredirect
      exact hnotPost ⟨hmethod.trans h, hrange⟩
    exact .inr ⟨_, rfl, fetchRedirect_steps hcb hc hi hflight hheard hseen hdone hpost⟩
  split
  · exact .inr ⟨_, rfl, hfails _ _ _ _ hheard honDone ⟨nofun, nofun⟩⟩
  split
  · exact .inr ⟨_, rfl, hfails _ _ _ _ hheard honDone ⟨nofun, nofun⟩⟩
  rename_i hrange
  have haccepts : (f.fed c.input).accepts := by
    refine ⟨by omega, by omega, ?_⟩
    intro hr
    by_contra hne
    exact hrange ⟨hranged.trans hr, hne⟩
  split
  · rename_i hto
    have hto : (f.fed c.input).toFile := ⟨hpath ▸ hto.1, hmethod ▸ hto.2⟩
    split
    · exact .inr ⟨_, rfl, hfails _ _ _ _ hheard honDone ⟨nofun, nofun⟩⟩
    · refine .inl ⟨_, _, rfl, ?_⟩
      have hcopy : ({ conn with outWritten := 0, outFd := true } : Conn).flight =
          { conn.flight with file := true, written := 0 } := rfl
      have hcreates : Decided (f.fed c.input) c.trace
          ({ conn with outWritten := 0, outFd := true } : Conn).flight
          (.created conn.outputPath :: .replied (f.fed c.input).response.status :: c.trace) := by
        rw [hcopy, hflight, hpath]
        exact .creates hseen hdone haccepts hto
      rw [← htrace] at hcreates ⊢
      exact hcreates
  · rename_i hto
    have hto : ¬ (f.fed c.input).toFile := by
      intro h
      exact hto ⟨hpath ▸ h.1, hmethod ▸ h.2⟩
    refine .inl ⟨_, _, rfl, ?_⟩
    rw [hheard, hflight]
    exact .captures hseen hdone haccepts hto

theorem fetchDecide_spec (conn : Conn) (hc : c.flight = some f) (hi : c.input ≠ [])
    (hflight : conn.flight = f.fed c.input) (htrace : s.trace = c.trace) :
    (∃ conn' s', fetchDecide cb s conn = (some conn', s') ∧
      Decided (f.fed c.input) c.trace conn'.flight s'.trace) ∨
    ∃ s', fetchDecide cb s conn = (none, s') ∧ Steps called c s'.core := by
  have hseen : conn.headSeen = f.headSeen := congrArg Flight.headSeen hflight
  have hresponse : conn.response = (f.fed c.input).response := congrArg Flight.response hflight
  unfold fetchDecide
  rw [hseen, hresponse]
  split
  · rename_i hnew
    rw [Bool.and_eq_true, Bool.not_eq_true'] at hnew
    refine fetchOnHead_spec hcb hc hi ?_ htrace hnew.1 hnew.2
    rw [← hflight]
    rfl
  · rename_i hold
    refine .inl ⟨_, _, rfl, ?_⟩
    rw [hflight, htrace]
    refine .before ?_
    rw [Bool.and_eq_true, Bool.not_eq_true', not_and_or, Bool.not_eq_false,
      Bool.not_eq_true] at hold
    exact hold

theorem fetchFinish_steps
    (hwhole : ∀ f o result, Rounded conn.flight f → o = .ok ∨ o = .file → Result.Of result f o →
      Steps called c (.ended s.trace f o result))
    (hbrimmed : ∀ events result, conn.method = .head → LastWords events →
      Result.outcome result = .tooLarge →
      Steps called c (.ended (events ++ s.trace) conn.flight .tooLarge result)) :
    Steps called c (fetchFinish cb s conn).core := by
  unfold fetchFinish
  split
  · rename_i hhead
    rcases fetchCapture_spec with
      ⟨s', hcapture, htrace, hcap⟩ | ⟨s', hcapture, hwhy⟩
    · rw [hcapture]
      refine fetchComplete_steps hcb ?_
      intro o result ho hr
      rw [htrace]
      exact hwhole _ o result (.head hhead hcap) (ho.imp_right And.right) hr
    · rw [hcapture]
      refine fetchFail_told hcb nofun ?_
      intro result hr
      rcases hwhy with ⟨htrace, _⟩ | htrace
      · rw [htrace]
        exact hbrimmed [] result hhead .none hr.outcome
      · rw [htrace]
        exact hbrimmed [.outOfMemory] result hhead .outOfMemory hr.outcome
  · rename_i hbody
    refine fetchComplete_steps hcb ?_
    intro o result ho hr
    exact hwhole _ o result (.body hbody) (ho.imp_right And.right) hr

theorem fetchFeed_steps (s : Sys σ) (conn : Conn) (input : Bytes) (hlen : input.length ≤ fuel)
    (hg : Going conn.response) :
    (∃ conn' s', fetchFeed cb fuel s conn input = (some conn', s') ∧
      Steps called (s.hold conn input) (s'.hold conn' []) ∧ Going conn'.response ∧
      conn'.phase = conn.phase) ∨
    ∃ s', fetchFeed cb fuel s conn input = (none, s') ∧
      Steps called (s.hold conn input) s'.core := by
  induction fuel generalizing s conn input with
  | zero =>
    have hnil : input = [] := eq_nil_of_length_eq_zero (Nat.le_zero.mp hlen)
    subst hnil
    exact .inl ⟨conn, s, rfl, .refl, hg, rfl⟩
  | succ fuel ih =>
    unfold fetchFeed
    by_cases hnil : input = []
    · subst hnil
      exact .inl ⟨conn, s, rfl, .refl, hg, rfl⟩
    rw [if_neg hnil]
    have hused := responseFeed_progress hg.counted hg.unfinished hnil
    have hcounted := responseFeed_counted hg.counted input
    simp only
    split
    · exact .inr ⟨_, rfl, fetchFail_held hcb rfl rfl rfl ⟨by simp, by simp⟩⟩
    rename_i hfailed
    have hok : responseFailed (conn.flight.fed input).response = false :=
      Bool.eq_false_iff.mpr hfailed
    rcases fetchDecide_spec (c := s.hold conn input) hcb
        { conn with response := (responseFeed conn.response input).response } rfl hnil rfl rfl with
      ⟨conn₁, s₁, hdecide, hdecided⟩ | ⟨s₁, hdecide, hsteps⟩
    · simp only [hdecide]
      generalize hbody : (input.drop (responseFeed conn.response input).bodyAt).take
        (responseFeed conn.response input).bodyLen = body
      have hslice : conn.flight.slice input = body := hbody
      have hsink : (∃ conn₂ s₂,
            (if body = [] then (some conn₁, s₁) else fetchSink cb s₁ conn₁ body) =
              (some conn₂, s₂) ∧
            Sunk conn₁.flight s₁.trace body conn₂.flight s₂.trace) ∨
          ∃ s₂, (if body = [] then (some conn₁, s₁) else fetchSink cb s₁ conn₁ body) = (none, s₂) ∧
            Steps called (s.hold conn input) s₂.core := by
        by_cases hempty : body = []
        · rw [if_pos hempty]
          exact .inl ⟨conn₁, s₁, rfl, .nothing hempty⟩
        · rw [if_neg hempty]
          rcases fetchSink_spec hcb with h | ⟨s₂, hsink, hspilled⟩
          · exact .inl h
          · refine .inr ⟨s₂, hsink, hspilled _ ?_⟩
            intro o t result hs hr
            exact .one (.spilled rfl hnil hok (hslice ▸ hempty) hdecided (hslice ▸ hs) result hr)
      rcases hsink with ⟨conn₂, s₂, hsink, hsunk⟩ | ⟨s₂, hsink, hsteps⟩
      · simp only [hsink]
        have hresponse : conn₂.response = (responseFeed conn.response input).response :=
          hsunk.same.1.trans hdecided.same.1
        have hphase : conn₂.phase = conn.phase := hsunk.same.2.trans hdecided.same.2
        rw [← hslice] at hsunk
        split
        · rename_i hdone
          refine .inr ⟨_, rfl, fetchFinish_steps hcb ?_ ?_⟩
          · intro f o result hround ho hr
            exact .one (.whole rfl hnil hdecided hsunk hdone hround ho result hr)
          · intro _ result hhead he hout
            exact .one (.brimmed rfl hnil hdecided hsunk hdone hhead he result hout)
        · rename_i hdone
          have hover : responseOver conn₂.response = false := by
            rw [hresponse] at hdone ⊢
            simp [responseOver, hdone, hfailed]
          rw [if_neg (Nat.pos_iff_ne_zero.mp hused)]
          have hturned : Act (s.hold conn input)
              (s₂.hold conn₂ (input.drop (responseFeed conn.response input).used)) :=
            .turned rfl hnil hdecided hsunk hover
          have hleft : (input.drop (responseFeed conn.response input).used).length ≤ fuel := by
            rw [length_drop]
            omega
          have hgoing : Going conn₂.response := ⟨hresponse ▸ hcounted, hover⟩
          rcases ih s₂ conn₂ _ hleft hgoing with
            ⟨conn₃, s₃, hfeed, hsteps, hg₃, hphase₃⟩ | ⟨s₃, hfeed, hsteps⟩
          · exact .inl ⟨conn₃, s₃, hfeed, (Steps.one hturned).trans hsteps, hg₃,
              hphase₃.trans hphase⟩
          · exact .inr ⟨s₃, hfeed, (Steps.one hturned).trans hsteps⟩
      · simp only [hsink]
        exact .inr ⟨s₂, rfl, hsteps⟩
    · simp only [hdecide]
      exact .inr ⟨s₁, rfl, hsteps⟩

end

end Inkwell.Fetch
