import Inkwell.Net.Stream.Ledger

namespace Inkwell.Streams
open Library List

def Registered (stream : Stream) : Prop := stream.registrationToken ≠ none ∧ stream.loop

def Synced (site : Site) : Prop := Registered site.stream → site.armed = site.stream.wantWrite

theorem update_synced (h : Synced site) : Synced (streamUpdateWriteInterest site updated) := by
  unfold streamUpdateWriteInterest
  split
  · exact h
  · dsimp only
    split
    · exact h
    · split
      · exact fun _ => rfl
      · exact h

theorem update_armed (h : Synced site) (hreg : Registered site.stream) :
    (streamUpdateWriteInterest site true).armed = decide (0 < site.stream.queued) := by
  have hloop : ¬(site.stream.registrationToken = none ∨ site.stream.loop = false) := by
    rintro (hnone | hfalse)
    · exact hreg.1 hnone
    · rw [hreg.2] at hfalse
      cases hfalse
  unfold streamUpdateWriteInterest
  rw [if_neg hloop]
  dsimp only
  split
  · rename_i hsame
    rw [h hreg, ← hsame]
  · rfl

theorem Becomes.synced (h : Becomes site q events site') (hs : Synced site) : Synced site' := by
  have harmed : site'.armed = site.armed := congrArg (fun s => s.armed) h.bare
  have hwant : site'.stream.wantWrite = site.stream.wantWrite :=
    congrArg (fun s => s.stream.wantWrite) h.bare
  have htoken : site'.stream.registrationToken = site.stream.registrationToken :=
    congrArg (fun s => s.stream.registrationToken) h.bare
  have hloop : site'.stream.loop = site.stream.loop := congrArg (fun s => s.stream.loop) h.bare
  rw [Synced, Registered, harmed, hwant, htoken, hloop]
  exact hs

theorem Becomes.registered (h : Becomes site q events site') (hr : Registered site.stream) :
    Registered site'.stream := by
  have htoken : site'.stream.registrationToken = site.stream.registrationToken :=
    congrArg (fun s => s.stream.registrationToken) h.bare
  have hloop : site'.stream.loop = site.stream.loop := congrArg (fun s => s.stream.loop) h.bare
  rwa [Registered, htoken, hloop]

theorem streamFlush_synced (writes : Writes) (updated : Bool) (hs : Stored site.stream)
    (h : Synced site) : Synced (streamFlush site writes updated).2 := by
  have hflushed := (flushLoop_becomes hs writes).2.synced h
  unfold streamFlush
  split
  · exact h
  · split
    · rename_i hflush
      rwa [hflush] at hflushed
    · rename_i hflush
      rw [hflush] at hflushed
      exact update_synced hflushed

theorem streamFlush_armed (writes : Writes) (hs : Stored site.stream) (h : Synced site)
    (hreg : Registered site.stream) (hok : (streamFlush site writes true).1 = .ok ()) :
    (streamFlush site writes true).2.armed =
      decide (queue (streamFlush site writes true).2.stream ≠ []) := by
  have hbecomes := (flushLoop_becomes hs writes).2
  have hopen : streamIsOpen site.stream := by
    by_contra hclosed
    rw [streamFlush, if_pos (by simpa using hclosed)] at hok
    cases hok
  rw [streamFlush, if_neg (by simp [hopen])] at hok ⊢
  rcases hflush : flushLoop writes site with ⟨e | _, site'⟩
  · rw [hflush] at hok
    cases hok
  · rw [hflush] at hbecomes
    have harmed := update_armed (hbecomes.synced h) (hbecomes.registered hreg)
    have hqueue : queue (streamUpdateWriteInterest site' true).stream = queue site'.stream :=
      congrArg Line.queue update_keeps.1
    simp only [harmed, hqueue]
    rw [decide_eq_decide, ← length_queue, length_pos_iff]

theorem update_registered (site : Site) (updated : Bool) :
    Registered (streamUpdateWriteInterest site updated).stream ↔ Registered site.stream := by
  unfold streamUpdateWriteInterest
  split
  · exact Iff.rfl
  · dsimp only
    split
    · exact Iff.rfl
    · split <;> exact Iff.rfl

theorem enqueued_spec (site : Site) (hs : Stored site.stream) (h : Synced site)
    (hroom : site.stream.queued < site.stream.slotCount)
    (hfit : letter.data.length ≤ site.stream.slotBytes) :
    Stored (streamUpdateWriteInterest (enqueue site letter) armed).stream ∧
      Synced (streamUpdateWriteInterest (enqueue site letter) armed) := by
  have hqueued := enqueue_becomes hs hroom hfit
  exact ⟨update_keeps.2 hqueued.stored, update_synced (hqueued.synced h)⟩

theorem streamSend_synced (hs : Stored site.stream) (h : Synced site) :
    Synced (streamSend site data name answers).2 := by
  rw [streamSend_eq]
  generalize Letter.mk site.sends name (data.getD []) = letter
  rcases sendLetter_cases with
    ⟨e, -, hsend⟩ | ⟨-, hroom, hfit, hsend⟩
  · rw [hsend]
    exact h
  · obtain ⟨hstored, hsynced⟩ := enqueued_spec (handed site letter) hs h hroom hfit
    have hflushed := streamFlush_synced answers.writes answers.updated hstored hsynced
    rw [hsend]
    rcases hq : sendQueued (handed site letter) letter answers with ⟨_ | _, _⟩
    all_goals
      rw [sendQueued] at hq
      rw [hq] at hflushed
      exact hflushed

theorem streamSend_armed (hs : Stored site.stream) (h : Synced site) (hreg : Registered site.stream)
    (hupdated : answers.updated) (hok : (streamSend site data name answers).1 = .ok ()) :
    (streamSend site data name answers).2.armed =
      decide (queue (streamSend site data name answers).2.stream ≠ []) := by
  rw [streamSend_eq] at hok ⊢
  generalize Letter.mk site.sends name (data.getD []) = letter at hok ⊢
  rcases sendLetter_cases with
    ⟨e, -, hsend⟩ | ⟨-, hroom, hfit, hsend⟩
  · rw [hsend] at hok
    cases hok
  · obtain ⟨hstored, hsynced⟩ := enqueued_spec (handed site letter) hs h hroom hfit
    have hregistered := (update_registered (enqueue (handed site letter) letter) answers.armed).mpr
      hreg
    have hflushed := streamFlush_armed answers.writes hstored hsynced hregistered
    rw [hsend] at hok ⊢
    rcases hq : sendQueued (handed site letter) letter answers with ⟨e | _, _⟩
    · rw [hq] at hok
      cases hok
    · rw [sendQueued, hupdated] at hq
      rw [hq] at hflushed
      exact hflushed rfl

theorem pumpTurn_synced (h : Synced site) (got : Except Errno Bytes) (total : Nat) :
    Synced (pumpTurn site got total).2 := by
  unfold pumpTurn
  split
  · exact h
  · dsimp only
    split <;> exact h
  · exact h
  · exact h
  · exact h

theorem pumpLoop_synced (h : Synced site) (total : Nat) (reads : List (Except Errno Bytes)) :
    Synced (pumpLoop turns total reads site).2 := by
  induction turns generalizing total reads site with
  | zero => exact h
  | succ _ ih =>
    cases reads with
    | nil => exact h
    | cons got =>
      have hturn := pumpTurn_synced h got total
      rw [pumpLoop.eq_def]
      dsimp only
      split
      · rename_i hgot
        rwa [hgot] at hturn
      · rename_i hgot
        rw [hgot] at hturn
        exact ih hturn _ _

theorem call_synced (hs : Stored site.stream) (h : Synced site) (hplain : Call.Plain call) :
    Synced (call.run site) := by
  cases call with
  | setSink => exact h
  | openFd | openSocket | writeRaw => exact hplain.elim
  | send => exact streamSend_synced hs h
  | flush => exact streamFlush_synced _ _ hs h
  | pump reads =>
    change Synced (streamPump site reads).2
    unfold streamPump
    split
    · exact h
    · exact pumpLoop_synced h _ _
  | turn got total => exact pumpTurn_synced h got total
  | close =>
    have hdropped := (streamDropQueue_becomes hs).synced h
    change Synced (streamClose site)
    unfold streamClose
    dsimp only
    split
    · exact hdropped
    · exact fun _ => rfl

theorem runCalls_induction {P : Site → Prop}
    (hstep : ∀ site, ∀ call ∈ calls, P site → P (call.run site)) (h : P site) :
    P (runCalls site calls) := by
  induction calls generalizing site with
  | nil => exact h
  | cons call _ ih =>
    apply ih
    · intro site call' hcall
      exact hstep site call' (mem_cons_of_mem _ hcall)
    · exact hstep site call (mem_cons_self) h

structure Fresh (site : Site) : Prop where
  isOpen : streamIsOpen site.stream
  head : site.stream.head = 0
  queued : site.stream.queued = 0
  wantWrite : site.stream.wantWrite = false
  armed : site.armed = false
  trace : site.trace = []

structure Sending (site : Site) : Prop where
  stored : Stored site.stream
  synced : Synced site
  conserved : Conserved site.line
  numbered : Numbered (site.trace.filterMap Event.queued?) site.sends

theorem Fresh.sending (h : Fresh site) : Sending site := by
  have hqueue : queue site.stream = [] := queue_nil h.queued
  refine ⟨⟨?_, ?_, ?_⟩, ?_, ?_, ?_⟩
  · rw [h.queued]
    exact Nat.zero_le _
  · rw [h.head]
    exact id
  · rw [hqueue]
    simp
  · intro _
    rw [h.armed, h.wantWrite]
  · refine .inl ⟨h.isOpen, ?_⟩
    rw [Site.line, hqueue, h.trace]
    exact ⟨rfl, rfl, rfl, by simp, by simp⟩
  · rw [h.trace]
    exact .nil _

theorem call_sending (h : Sending site) (hplain : Call.Plain call) : Sending (call.run site) := by
  obtain ⟨_, hdid, -, hdeed⟩ := call_does h.stored call
  have hconserved := h.conserved.after hdid.fits (hdeed hplain)
  have hnumbered := Numbered.after h.numbered hdid.fits
  rw [← hdid.line] at hconserved hnumbered
  exact ⟨hdid.stored, call_synced h.stored h.synced hplain, hconserved, hnumbered⟩

theorem reports_dropped (q : List Frame) : reports (q.map fun f => dropEvent answered f.letter) =
      if answered then (q.map fun f => f.letter.id).filter (· ≠ 0) else [] := by
  induction q with
  | nil => cases answered <;> rfl
  | cons f q ih =>
    have hhead : reports ((f :: q).map fun f => dropEvent answered f.letter) =
        reports [dropEvent answered f.letter] ++
          reports (q.map fun f => dropEvent answered f.letter) := by
      rw [map_cons, ← singleton_append, reports, filterMap_append, map_append]
      rfl
    rw [hhead, ih]
    by_cases hid : f.letter.id = 0
    · cases answered <;> simp [dropEvent, hid, reports, filterMap_cons, Event.reported?]
    · cases answered <;> simp [dropEvent, hid, reports, filterMap_cons, Event.reported?]

/-- Over one opening, whatever the descriptor and the loop answer: the letters taken are out
whole, given back or queued, once each and in order; closing reports those that are queued; the
ring stays in its storage; and a call that succeeds leaves the loop waiting to write exactly if
something is queued. -/
theorem run_conserves (hfresh : Fresh site) (hplain : ∀ call ∈ calls, Call.Plain call) :
    let site' := runCalls site calls
    wire site'.trace <+: (site'.trace.filterMap Event.queued?).flatMap Letter.data ∧
    Accounts (queue site'.stream) site'.trace ∧
    ((site'.trace.filterMap Event.queued?).map Letter.ticket).Nodup ∧
    reports (streamClose site').trace = reports site'.trace ++
      (if site'.stream.onDropped then
        ((queue site'.stream).map fun f => f.letter.id).filter (· ≠ 0) else []) ∧
    queue (streamClose site').stream = [] ∧
    site'.stream.queued ≤ site'.stream.slotCount ∧
    (0 < site'.stream.slotCount → site'.stream.head < site'.stream.slotCount) ∧
    (Registered site'.stream →
      (∀ writes, (streamFlush site' writes true).1 = .ok () →
        (streamFlush site' writes true).2.armed =
          decide (queue (streamFlush site' writes true).2.stream ≠ [])) ∧
      ∀ data name answers, answers.updated →
        (streamSend site' data name answers).1 = .ok () →
        (streamSend site' data name answers).2.armed =
          decide (queue (streamSend site' data name answers).2.stream ≠ [])) := by
  intro site'
  have h : Sending site' := runCalls_induction
    (fun _ call hcall h => call_sending h (hplain call hcall)) hfresh.sending
  have hclosed := (streamClose_did h.stored).line
  have htrace : (streamClose site').trace = site'.trace ++
      (queue site'.stream).map fun f => dropEvent site'.stream.onDropped f.letter :=
    congrArg Line.trace hclosed
  refine ⟨h.conserved.accounts.in_order, h.conserved.accounts, h.numbered.distinct, ?_, ?_,
    h.stored.queued_le, h.stored.head_lt, ?_⟩
  · rw [htrace, ← reports_dropped, reports, filterMap_append, map_append]
    rfl
  · exact congrArg Line.queue hclosed
  · intro hreg
    refine ⟨?_, ?_⟩
    · intro writes hok
      exact streamFlush_armed writes h.stored h.synced hreg hok
    · intro _ _ _ hupdated hok
      exact streamSend_armed h.stored h.synced hreg hupdated hok

def sampleSite : Site :=
  { stream := { slots := fun _ => {}, bytes := fun _ => 0, slotCount := 2, slotBytes := 4,
                fd := some 3, registrationToken := some 3, loop := true, onDropped := true } }

/-- A write goes out in part, a second one behind it not at all, and both are given back. -/
theorem run_conserves_partial :
    let calls : List Call := [.send (some [1, 2, 3]) 7 { writes := [.ok 2] }, .send (some [4]) 8 {}]
    wire (runCalls sampleSite calls).trace = [1, 2] ∧
      Accounts (queue (runCalls sampleSite calls).stream) (runCalls sampleSite calls).trace ∧
      reports (streamClose (runCalls sampleSite calls)).trace = [7, 8] := by
  intro calls
  have hfresh : Fresh sampleSite := ⟨rfl, rfl, rfl, rfl, rfl, rfl⟩
  have hplain : ∀ call ∈ calls, Call.Plain call := by simp [calls, Call.Plain]
  have hrun := run_conserves hfresh hplain
  exact ⟨by decide, hrun.2.1, hrun.2.2.2.1.trans (by decide)⟩

/-- A stream that only listens has no slot for its head to be in. -/
theorem head_without_storage :
    let site := (streamOpen { stream := streamInit none 0 none 0 } 3 .file false (.ok 0)).2
    Fresh site ∧ ¬site.stream.head < site.stream.slotCount :=
  ⟨⟨rfl, rfl, rfl, rfl, rfl, rfl⟩, by decide⟩

end Inkwell.Streams
