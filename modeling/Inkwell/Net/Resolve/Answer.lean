import Inkwell.Net.Resolve.Run

namespace Inkwell.Resolve
open Library List

theorem wordOf_append : wordOf (wordBytes w ++ rest) = w := by
  have hlt := w.toNat_lt
  simp only [wordBytes, map_cons, map_nil, cons_append, wordOf]
  apply UInt32.toNat_inj.mp
  simp only [UInt8.toNat_ofNat', UInt32.toNat_ofNat']
  omega

theorem length_addressBytes : (addressBytes a).length = addressSize := by
  simp [addressBytes, wordBytes, a.address.size, addressSize]

theorem addressOf_append : addressOf (addressBytes a ++ rest) = a := by
  obtain ⟨len, bytes, hsize⟩ := a
  have hlen : wordOf (addressBytes ⟨len, bytes, hsize⟩ ++ rest) = len := by exact wordOf_append
  have hdrop : (addressBytes ⟨len, bytes, hsize⟩ ++ rest).drop 8 = bytes ++ rest := rfl
  have htake : ((bytes ++ rest) ++ List.replicate 128 0).take 128 = bytes := by
    rw [append_assoc, ← hsize]
    exact take_left
  simp only [addressOf, hlen, hdrop, htake]

theorem drop_flatMap {f : α → List β} (h : ∀ a, (f a).length = size) (l : List α)
    (i : Fin l.length) : ∃ rest, (l.flatMap f).drop (size * i) = f (l.get i) ++ rest := by
  induction l with
  | nil => exact i.elim0
  | cons a l ih =>
    cases i using Fin.cases with
    | zero => exact ⟨l.flatMap f, by simp⟩
    | succ i =>
      obtain ⟨rest, hrest⟩ := ih i
      refine ⟨rest, ?_⟩
      have hplace : size * (i.succ : Fin _).val = (f a).length + size * i := by
        rw [h a, Fin.val_succ, Nat.mul_succ, add_comm]
      rw [flatMap_cons, hplace, drop_length_add_append]
      exact hrest

theorem recordOf_bytes : recordOf r.bytes = r := by
  obtain ⟨error, count, addresses⟩ := r
  have haddress (i : Fin addressesMax) :
      addressOf ((Record.bytes ⟨error, count, addresses⟩).drop (8 + addressSize * i)) =
        addresses i := by
    obtain ⟨_, hrest⟩ := drop_flatMap (fun i => length_addressBytes) (List.finRange addressesMax)
      (i.cast length_finRange.symm)
    rw [Fin.val_cast] at hrest
    have hskip : (Record.bytes ⟨error, count, addresses⟩).drop (8 + addressSize * i) =
        ((List.finRange addressesMax).flatMap fun i => addressBytes (addresses i)).drop
          (addressSize * i) := by
      rw [← drop_drop]
      rfl
    rw [hskip, hrest, addressOf_append]
    simp
  have herror : wordOf (Record.bytes ⟨error, count, addresses⟩) = error.toUInt32 := by
    exact wordOf_append
  have hcount : wordOf ((Record.bytes ⟨error, count, addresses⟩).drop 4) = count := wordOf_append
  simp only [recordOf, herror, hcount, haddress]

theorem length_bytes (r : Record) : r.bytes.length = recordSize := by
  simp [Record.bytes, wordBytes, length_flatMap, length_addressBytes, addressSize, recordSize,
    addressesMax]

def report (record : Record) : Result := resultOf (outcomeOf record) record.bytes

theorem resultOf_bytes : resultOf (verdict record.bytes) record.bytes = report record := by
  rw [verdict, length_bytes, if_neg (lt_irrefl _), recordOf_bytes, report]

def ChildAct.writes : ChildAct → Bool
  | .write _ => true
  | .exit _ => false

def Calm (acts : Acts) : Prop := ∀ a ∈ acts, ∀ b ∈ acts, a.1 = b.1 → a.2.writes = b.2.writes

instance : DecidablePred Calm := fun acts => by
  unfold Calm
  infer_instance

/-- No read of a pipe fails, and no child writes its last and exits between a read that finds
nothing and the poll after it. -/
structure Site.Calm (s : Site κ) : Prop where
  reads : ∀ m ∈ s.reads, m.2 ≠ .error
  polls : ∀ acts ∈ s.polls, Resolve.Calm acts

section Faithful
variable {s t : Site κ}

theorem Site.Calm.mono (h : s.Calm) (hreads : t.reads <:+ s.reads) (hpolls : t.polls <:+ s.polls) :
    t.Calm :=
  ⟨fun m hm => h.reads m (hreads.subset hm), fun acts hacts => h.polls acts (hpolls.subset hacts)⟩

theorem Child.act_writes (c : Child) (h : a.writes) : (c.act a).exited = c.exited := by
  cases a with
  | write =>
    simp only [Child.act]
    split <;> rfl
  | exit => cases h

theorem Child.act_exits (c : Child) (h : a.writes = false) :
    (c.act a).buffered = c.buffered ∧ (c.act a).left = c.left := by
  cases a with
  | write => cases h
  | exit =>
    simp only [Child.act]
    split <;> exact ⟨rfl, rfl⟩

theorem Site.happen_keeps (P : Child → Prop) (acts : Acts) (s : Site κ)
    (hact : ∀ a ∈ acts, a.1 = n → ∀ c, P c → P (c.act a.2)) (h : P (s.children n)) :
    P ((s.happen acts).children n) := by
  induction acts generalizing s with
  | nil => exact h
  | cons a _ ih =>
    refine ih (s.act a) (fun b hb => hact b (mem_cons_of_mem _ hb)) ?_
    unfold Site.act
    split
    · by_cases hn : a.1 = n
      · rw [← hn, Site.setChild_same]
        exact hact a mem_cons_self hn _ (hn ▸ h)
      · rw [Site.setChild_other _ (Ne.symm hn)]
        exact h
    · exact h

theorem Calm.child (h : Calm acts) :
    ((s.happen acts).children n).exited = (s.children n).exited ∨
      ((s.happen acts).children n).buffered = (s.children n).buffered ∧
        ((s.happen acts).children n).left = (s.children n).left := by
  by_cases hwrites : ∃ a ∈ acts, a.1 = n ∧ a.2.writes
  · obtain ⟨a, ha, han, hw⟩ := hwrites
    refine .inl (Site.happen_keeps (fun c => c.exited = (s.children n).exited) acts s ?_ rfl)
    intro b hb hbn c hc
    have hbw : b.2.writes := (h a ha b hb (han.trans hbn.symm)).symm.trans hw
    rw [Child.act_writes c hbw]
    exact hc
  · refine .inr (Site.happen_keeps (fun c => c.buffered = (s.children n).buffered ∧
      c.left = (s.children n).left) acts s ?_ ⟨rfl, rfl⟩)
    intro b hb hbn c hc
    have hbw : b.2.writes = false := by
      cases hb' : b.2.writes with
      | true => exact absurd ⟨b, hb, hbn, hb'⟩ hwrites
      | false => rfl
    obtain ⟨hbuffered, hleft⟩ := Child.act_exits c hbw
    rw [hbuffered, hleft]
    exact hc

theorem Site.Calm.poll (h : s.Calm) : (s.atPoll.children n).exited = (s.children n).exited ∨
      (s.atPoll.children n).buffered = (s.children n).buffered ∧
        (s.atPoll.children n).left = (s.children n).left := by
  have hcalm : Resolve.Calm (s.polls.head?.getD []) := by
    cases hpolls : s.polls with
    | nil => exact nofun
    | cons acts polls => exact h.polls acts (hpolls ▸ mem_cons_self)
  exact hcalm.child

structure Child.Delivers (c : Child) : Prop where
  left : c.left = []
  exited : c.exited = some true

/-- Nothing is lost on the way from a child, and what was told is what it wrote. -/
structure Faithful (s : Site κ) : Prop where
  calm : s.Calm
  failure : s.resolve.failure = .ok
  stream : ∀ n, s.resolve.child = some n → (s.children n).record.bytes =
    (s.children n).taken ++ (s.children n).buffered ++ (s.children n).left
  told : ∀ n k r, .done n k r ∈ s.log → r.outcome ≠ .timedOut → (s.children n).Delivers →
    r = report (s.children n).record

theorem Books.told_kept (h : Books s) (hgrows : (s.children m).Grows (t.children m))
    (hdone : .done m k r ∈ s.log) : t.children m = s.children m := by
  have hother : s.resolve.child ≠ some m := fun hchild => h.told_other hchild hdone rfl
  exact hgrows.gone (h.reaped m (h.known _ hdone) hother).2.1

theorem Faithful.whole (h : Faithful s) (hi : Intact s n k)
    (hquiet : s.resolve.childFd = some n → (s.children n).buffered = [])
    (hall : (s.atPoll.children n).Delivers) : s.resolve.record = (s.children n).record.bytes := by
  have hstream := h.stream n hi.child
  -- one that had exited before the poll is as it was
  have hearlier (hgone : (s.children n).exited.isSome) : (s.children n).left = [] := by
    rw [← (s.atPoll_env.children n).gone hgone]
    exact hall.left
  have hempty (hbuffered : (s.children n).buffered = []) (hleft : (s.children n).left = []) :
      s.resolve.record = (s.children n).record.bytes := by
    rw [hstream, hbuffered, hleft, append_nil, append_nil]
    exact hi.record
  obtain ⟨hfd, -⟩ | ⟨-, -, hspent⟩ := hi.pipe
  · have hbuffered := hquiet hfd
    obtain hexited | ⟨-, hleft⟩ := h.calm.poll
    · refine hempty hbuffered (hearlier ?_)
      rw [← hexited, hall.exited]
      rfl
    · exact hempty hbuffered (hleft.symm.trans hall.left)
  · obtain _ | ⟨hbuffered, hgone⟩ | hfailure := hspent
    · have hlength := congrArg List.length hstream
      rw [length_bytes, length_append, length_append, ← hi.record] at hlength
      have hsizes : bufferSize = recordSize := rfl
      have hbuffered : (s.children n).buffered.length = 0 := by omega
      have hleft : (s.children n).left.length = 0 := by omega
      exact hempty (length_eq_zero_iff.mp hbuffered) (length_eq_zero_iff.mp hleft)
    · exact hempty hbuffered (hearlier hgone)
    · exact absurd h.failure hfailure

theorem Faithful.ending (h : Faithful s) (hi : Intact s n k) (he : Ending s t n k e)
    (hdone : e = .done m k' r) (htime : r.outcome ≠ .timedOut) (hall : (t.children n).Delivers) :
    m = n ∧ r = report (t.children n).record := by
  cases he with
  | cancelled => cases hdone
  | timedOut =>
    cases hdone
    exact absurd resultOf_outcome htime
  | failed hfailure => exact absurd h.failure hfailure
  | finished _ hquiet hpoll =>
    cases hdone
    have hrecord : (t.children n).record = (s.children n).record := by
      rw [hpoll]
      exact (s.atPoll_env.children n).record
    have hwhole := h.whole hi hquiet
      ⟨by rw [hpoll] at hall; exact hall.left, by rw [hpoll] at hall; exact hall.exited⟩
    rw [hrecord, hwhole]
    exact ⟨rfl, resultOf_bytes⟩

section
variable (h : Faithful s) (hb : Books s)
include h hb

theorem Faithful.told_mono
    (hgrows : ∀ m k r, .done m k r ∈ s.log → (s.children m).Grows (t.children m))
    (hdone : .done m k r ∈ s.log) (htime : r.outcome ≠ .timedOut) (hall : (t.children m).Delivers) :
    r = report (t.children m).record := by
  have hkept := hb.told_kept (hgrows m k r hdone) hdone
  rw [hkept] at hall ⊢
  exact h.told m k r hdone htime hall

theorem Faithful.env (he : s.Env t) : Faithful t where
  calm := h.calm.mono he.reads he.polls
  failure := by rw [he.resolve]; exact h.failure
  stream n hn := by
    rw [he.resolve] at hn
    have hg := he.children n
    rw [hg.record, hg.taken, append_assoc, hg.stream, ← append_assoc]
    exact h.stream n hn
  told m k r hdone := by
    rw [he.log] at hdone
    exact h.told_mono hb (fun m _ _ _ => he.children m) hdone

theorem Faithful.touch (hn : s.resolve.child = some n) (hcalm : t.Calm)
    (hfailure : t.resolve.failure = .ok) (hchild : t.resolve.child = s.resolve.child)
    (hlog : t.log = s.log) (hothers : ∀ m ≠ n, t.children m = s.children m)
    (hstream : (t.children n).record.bytes =
      (t.children n).taken ++ (t.children n).buffered ++ (t.children n).left) : Faithful t where
  calm := hcalm
  failure := hfailure
  stream m hm := by
    obtain rfl : m = n := Option.some.inj ((hchild ▸ hm).symm.trans hn)
    exact hstream
  told m k r hdone := by
    rw [hlog] at hdone
    rw [hothers m (hb.told_other hn hdone)]
    exact h.told m k r hdone

theorem Faithful.take (hn : s.resolve.child = some n)
    (hsplit : (s.children n).buffered = bytes ++ rest) : Faithful (s.took n bytes rest) := by
  refine h.touch hb hn ⟨h.calm.reads, h.calm.polls⟩ h.failure rfl rfl
    (fun m hm => Site.setChild_other _ hm) ?_
  rw [took_child, h.stream n hn, hsplit]
  simp only [append_assoc]

theorem Faithful.close (hn : s.resolve.child = some n) : Faithful (releaseFd s) := by
  obtain ⟨-, _, hi⟩ := hb.intact hn
  rw [releaseFd_eq hi.piped]
  refine h.touch hb hn ⟨h.calm.reads, h.calm.polls⟩ h.failure rfl rfl
    (fun m hm => Site.setChild_other _ hm) ?_
  rw [released_child]
  exact h.stream n hn

theorem Faithful.closes (hi : Intact s n k) (hc : Closes s t n k e) : Faithful t where
  calm := h.calm.mono hc.reads hc.polls
  failure := hc.idle.failure
  stream m hm := by cases hc.idle.child.symm.trans hm
  told m k' r hdone htime hall := by
    rw [hc.log] at hdone
    obtain he | hdone := mem_cons.mp hdone
    · have hm : m = n := by cases hc.ending <;> cases he <;> rfl
      subst hm
      exact (h.ending hi hc.ending he.symm htime hall).2
    · exact h.told_mono hb (fun m _ _ hmem => hc.others m (hb.told_other hi.child hmem)) hdone
        htime hall

theorem Faithful.start (hf : Forks s t) (hi : Intact t s.forks k)
    (hlog : t.log = .started s.forks k t.resolve.deadlineMs :: s.log)
    (hnew : t.children s.forks = { record, left := record.bytes }) (hok : t.resolve.failure = .ok) :
    Faithful t where
  calm := h.calm.mono hf.reads hf.polls
  failure := hok
  stream m hm := by
    obtain rfl : m = s.forks := Option.some.inj (hm.symm.trans hi.child)
    rw [hnew]
    rfl
  told m k' r hdone := by
    rw [hlog] at hdone
    exact h.told_mono hb (fun m _ _ hmem => hf.others m (hb.known _ hmem))
      (mem_of_ne_of_mem (by nofun) hdone)

theorem Faithful.abort (hf : Forks s t) (hidle : Idle t.resolve) (hlog : t.log = s.log) :
    Faithful t where
  calm := h.calm.mono hf.reads hf.polls
  failure := hidle.failure
  stream m hm := by cases hidle.child.symm.trans hm
  told m k r hdone := by
    rw [hlog] at hdone
    exact h.told_mono hb (fun m _ _ hmem => hf.others m (hb.known _ hmem)) hdone

end

theorem Faithful.ticked (h : Faithful s) : Faithful (s.note (.ticked nowMs n)) where
  calm := ⟨h.calm.reads, h.calm.polls⟩
  failure := h.failure
  stream := h.stream
  told m k r hdone := by exact h.told m k r (mem_of_ne_of_mem (by nofun) hdone)

theorem Step.faithful (hstep : Step s t) (hb : Books s) (h : Faithful s) : Faithful t := by
  cases hstep with
  | env he => exact h.env hb he
  | scripts => exact ⟨⟨h.calm.reads, h.calm.polls⟩, h.failure, h.stream, h.told⟩
  | take hn _ hsplit => exact h.take hb hn hsplit
  | fail _ _ herror => exact absurd rfl (h.calm.reads _ herror)
  | close hn => exact h.close hb hn
  | closes hi hc => exact h.closes hb hi hc
  | start _ hforks hintact hlog hnew _ hok => exact h.start hb hforks hintact hlog hnew hok
  | abort _ hforks hidle hlog => exact h.abort hb hforks hidle hlog
  | ticked => exact h.ticked

theorem Steps.faithful (hsteps : Steps s t) (hb : Books s) (h : Faithful s) : Faithful t := by
  induction hsteps with
  | refl => exact h
  | tail hsteps hstep ih => exact hstep.faithful (Steps.books hsteps hb) ih

theorem Step.delivers (hstep : Step s t) (hb : Books s) (hn : s.resolve.child = some n)
    (hn' : t.resolve.child = some n) (h : (s.children n).Delivers) :
    (t.children n).Delivers ∧ (t.children n).record = (s.children n).record := by
  have hgone : (s.children n).exited.isSome := by
    rw [h.exited]
    rfl
  cases hstep with
  | env he =>
    rw [(he.children n).gone hgone]
    exact ⟨h, rfl⟩
  | scripts | ticked => exact ⟨h, rfl⟩
  | @take m _ _ _ hm =>
    obtain rfl : m = n := Option.some.inj (hm.symm.trans hn)
    rw [took_child]
    exact ⟨⟨h.left, h.exited⟩, rfl⟩
  | fail _ he =>
    have hsame := (he.children n).gone hgone
    exact ⟨hsame.symm ▸ h, congrArg Child.record hsame⟩
  | close =>
    obtain ⟨-, _, hi⟩ := hb.intact hn
    rw [releaseFd_eq hi.piped, released_child]
    exact ⟨⟨h.left, h.exited⟩, rfl⟩
  | closes _ hc => cases hc.idle.child.symm.trans hn'
  | start hchild => cases hchild.symm.trans hn
  | abort hchild => cases hchild.symm.trans hn

theorem Steps.delivers (hsteps : Steps s t) (hb : Books s) (hn : s.resolve.child = some n)
    (hn' : t.resolve.child = some n) (h : (s.children n).Delivers) :
    (t.children n).Delivers ∧ (t.children n).record = (s.children n).record := by
  induction hsteps with
  | refl => exact ⟨h, rfl⟩
  | @tail u t hsteps hstep ih =>
    have hknown : n < u.forks := by
      obtain ⟨-, _, hi⟩ := hb.intact hn
      exact hi.known.trans_le (Steps.past hsteps).forks
    have hu : u.resolve.child = some n := by
      by_contra hother
      exact hstep.past.child n hknown hother hn'
    obtain ⟨hall, hrecord⟩ := ih hu
    obtain ⟨hall', hrecord'⟩ := hstep.delivers (Steps.books hsteps hb) hu hn' hall
    exact ⟨hall', hrecord'.trans hrecord⟩

theorem tryFinish_answers (happ : Obeys app) (hb : Books s) (h : Faithful s)
    (hn : s.resolve.child = some n) (hall : (s.children n).Delivers) :
    ∃ k, .done n k (report (s.children n).record) ∈ (tryFinish app s).log := by
  obtain ⟨hsteps, hchild, hquiet⟩ := drain_close hb hn
  unfold tryFinish
  simp only [hn]
  generalize (if (drain s).1 then (drain s).2 else releaseFd (drain s).2) = u at *
  have hbooks := Steps.books hsteps hb
  have hfaithful := Steps.faithful hsteps hb h
  obtain ⟨-, k, hi⟩ := hbooks.intact hchild
  obtain ⟨hu, hrecord⟩ := Steps.delivers hsteps hb hn hchild hall
  have hgone : (u.children n).exited.isSome := by
    rw [hu.exited]
    rfl
  have hpoll : u.atPoll.children n = u.children n := (u.atPoll_env.children n).gone hgone
  have hwhole := hfaithful.whole hi hquiet (hpoll ▸ hu)
  obtain ⟨_, -, -, hdone, hafter⟩ := finish_over happ hbooks hi hquiet (hpoll ▸ hgone)
  rw [if_neg (not_not.mpr hfaithful.failure), hwhole, resultOf_bytes, hrecord] at hdone
  exact ⟨k, (Steps.past hafter).log.subset hdone⟩

theorem tick_answers (hb : Books s) (h : Faithful s) (hn : s.resolve.child = some n)
    (hall : (s.children n).Delivers) :
    ∃ k, .done n k (report (s.children n).record) ∈ (perform depth s (.tick nowMs)).log := by
  have htick {app : Site κ → Site κ} (happ : Obeys app) :
      ∃ k, .done n k (report (s.children n).record) ∈ (tick app nowMs s).log := by
    obtain ⟨k, hdone⟩ := tryFinish_answers happ hb h hn hall
    exact ⟨k, (Steps.past (tick_rest happ hb hn)).log.subset hdone⟩
  cases depth with
  | zero => exact htick fun _ _ => .refl
  | succ depth => exact htick (callback_steps (perform_steps depth))

end Faithful

theorem Site.Fresh.faithful (h : s.Fresh) (hcalm : s.Calm) : Faithful s := by
  obtain ⟨_, hresolve⟩ := h.resolve
  refine ⟨hcalm, by rw [hresolve], fun n hn => ?_, fun n k r hdone => ?_⟩
  · rw [hresolve] at hn
    cases hn
  · rw [h.log] at hdone
    cases hdone

/-- In a calm run a child that wrote its whole record and exited by itself has its callback told
that record, unless it timed out, by the next tick. -/
theorem run_answers {s : Site κ} (hs : s.Fresh) (hcalm : s.Calm) (depth : Nat)
    (calls : List (Call κ)) :
    let t := run depth s calls
    (∀ n k r, .done n k r ∈ t.log → r.outcome ≠ .timedOut → (t.children n).Delivers →
      r = report (t.children n).record) ∧
    ∀ n acts, t.resolve.child = some n → ((t.happen acts).children n).Delivers → ∀ nowMs,
      ∃ k, .done n k (report (t.children n).record) ∈
        (perform depth (t.happen acts) (.tick nowMs)).log := by
  intro t
  have hsteps : Steps s t := run_steps depth calls hs.books
  have hbooks : Books t := Steps.books hsteps hs.books
  have hfaithful : Faithful t := Steps.faithful hsteps hs.books (hs.faithful hcalm)
  refine ⟨hfaithful.told, fun n acts hn hall nowMs => ?_⟩
  have henv := t.happen_env acts
  rw [← (henv.children n).record]
  exact tick_answers (hbooks.env henv) (hfaithful.env hbooks henv) (henv.resolve ▸ hn) hall

def address : Address := ⟨16, List.replicate 128 7, length_replicate⟩

def found : Record := ⟨0, 1, fun _ => address⟩

def polled (polls : List Acts) : Site Unit where
  resolve := { loop := true }
  children _ := { record := found, left := [] }
  polls

def lookUp : Call Unit := .start (some [0x61]) (some ()) 0 { record := found }

theorem run_answers_found :
    let t := run 0 (polled []) [lookUp]
    ∃ k, .done 0 k (report found) ∈
      (perform 0 (t.happen [(0, .write 552), (0, .exit true)]) (.tick 1)).log := by
  have h := (run_answers (s := polled []) ⟨⟨true, rfl⟩, rfl, rfl, rfl⟩ ⟨nofun, nofun⟩ 0 [lookUp]).2
  exact h 0 _ rfl ⟨by decide +kernel, by decide +kernel⟩ 1

/-- The child writes and exits after the read that finds nothing and before the poll: its record
is thrown away. -/
theorem run_answers_race :
    let t := run 0 (polled [[(0, .write 552), (0, .exit true)]]) [lookUp, .tick 1]
    .done 0 () { outcome := .failed } ∈ t.log ∧ (t.children 0).Delivers ∧
      (report (t.children 0).record).outcome = .ok ∧
      (report (t.children 0).record).addresses = [address] :=
  ⟨by decide +kernel, ⟨by decide +kernel, by decide +kernel⟩, by decide +kernel, by decide +kernel⟩

end Inkwell.Resolve
