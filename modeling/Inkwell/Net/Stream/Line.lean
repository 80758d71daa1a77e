import Inkwell.Net.Stream.Queue

namespace Inkwell.Streams
open Library List

/-! ### The line: what a stream is for

A line takes letters while it is open, hands them on in order as far as the far end lets it, and
gives back what is left when it closes. -/

structure Line where
  isOpen : Bool
  sends : Nat
  queue : List Frame
  trace : List Event

def Site.line (site : Site) : Line :=
  ⟨streamIsOpen site.stream, site.sends, queue site.stream, site.trace⟩

inductive Deed
  | receive (chunks : List Bytes)
  | raw (bytes : Bytes)
  | opens
  | refuse (letter : Letter) (error : Errno)
  | send (letter : Letter) (writes : Writes)
  | flush (writes : Writes)
  | close (answered : Bool)

/-- When a line does this. A letter is named by the number of its send. -/
def Deed.Fits (line : Line) : Deed → Prop
  | .opens => line.isOpen = false
  | .refuse letter error => letter.ticket = line.sends ∧ error ≠ .eio
  | .send letter _ => letter.ticket = line.sends ∧ line.isOpen
  | .flush _ => line.isOpen
  | _ => True

def failure (letter : Letter) : Except Errno Unit → List Event
  | .error e => [.returned letter e]
  | .ok () => []

def Line.after (line : Line) : Deed → Line
  | .receive chunks => { line with trace := line.trace ++ chunks.map .received }
  | .raw bytes => { line with trace := line.trace ++ [.wroteRaw bytes] }
  | .opens => { line with isOpen := true, queue := [] }
  | .refuse letter error =>
    { line with
      sends := line.sends + 1
      trace := line.trace ++ [.handed letter, .returned letter error] }
  | .send letter writes =>
    let d := drain writes (line.queue ++ [⟨letter, 0⟩])
    { line with
      sends := line.sends + 1
      queue := d.queue
      trace :=
        line.trace ++ (.handed letter :: .queued letter :: (d.events ++ failure letter d.result)) }
  | .flush writes =>
    let d := drain writes line.queue
    { line with queue := d.queue, trace := line.trace ++ d.events }
  | .close answered =>
    { line with
      isOpen := false
      queue := []
      trace := line.trace ++ line.queue.map fun f => dropEvent answered f.letter }

/-- A letter the line takes it does not refuse as well, and one it gives back it says so. -/
def Deed.Sound (line : Line) : Deed → Prop
  | .send letter writes => (drain writes (line.queue ++ [⟨letter, 0⟩])).result = .ok ()
  | .close answered => answered
  | _ => True

/-- Nothing but the queue goes out, over one opening of the line. -/
def Deed.Plain : Deed → Prop
  | .raw _ => False
  | .opens => False
  | _ => True

theorem Becomes.line (h : Becomes site q events site') :
    site'.line = { site.line with queue := q, trace := site.trace ++ events } := by
  have hopen : streamIsOpen site'.stream = streamIsOpen site.stream :=
    congrArg (fun s => streamIsOpen s.stream) h.bare
  have hsends : site'.sends = site.sends := congrArg (fun s => s.sends) h.bare
  rw [Site.line, hopen, hsends, h.holds, h.trace]
  rfl

theorem update_keeps : (streamUpdateWriteInterest site updated).line = site.line ∧
      (Stored site.stream → Stored (streamUpdateWriteInterest site updated).stream) := by
  unfold streamUpdateWriteInterest
  split
  · exact ⟨rfl, id⟩
  · dsimp only
    split
    · exact ⟨rfl, id⟩
    · split
      · exact ⟨rfl, fun h => ⟨h.queued_le, h.head_lt, h.fits⟩⟩
      · exact ⟨rfl, id⟩

structure Did (site : Site) (deed : Deed) (site' : Site) : Prop where
  fits : deed.Fits site.line
  line : site'.line = site.line.after deed
  stored : Stored site'.stream

theorem Did.nothing (hs : Stored site'.stream) (hline : site'.line = site.line) :
    Did site (.receive []) site' := by
  refine ⟨trivial, ?_, hs⟩
  rw [hline, Line.after, map_nil, append_nil]

theorem streamFlush_did (hs : Stored site.stream) (hopen : streamIsOpen site.stream) :
    (streamFlush site writes updated).1 = (drain writes (queue site.stream)).result ∧
      Did site (.flush writes) (streamFlush site writes updated).2 := by
  obtain ⟨hresult, hbecomes⟩ := flushLoop_becomes hs writes
  have hline := hbecomes.line
  rw [streamFlush, if_neg (by simp [hopen])]
  rcases hflush : flushLoop writes site with ⟨_ | _, _⟩
  · rw [hflush] at hresult hbecomes hline
    exact ⟨hresult, hopen, hline, hbecomes.stored⟩
  · rw [hflush] at hresult hbecomes hline
    obtain ⟨hupdate, hstored⟩ := update_keeps
    exact ⟨hresult, hopen, hupdate.trans hline, hstored hbecomes.stored⟩

theorem sendQueued_spec (site : Site) (hs : Stored site.stream)
    (hopen : streamIsOpen site.stream) (hroom : site.stream.queued < site.stream.slotCount)
    (hfit : letter.data.length ≤ site.stream.slotBytes) : (sendQueued site letter answers).1 =
        (drain answers.writes (queue site.stream ++ [⟨letter, 0⟩])).result ∧
      (sendQueued site letter answers).2.line =
        { site.line with
          queue := (drain answers.writes (queue site.stream ++ [⟨letter, 0⟩])).queue
          trace := site.trace ++ .queued letter ::
            (drain answers.writes (queue site.stream ++ [⟨letter, 0⟩])).events } ∧
      Stored (sendQueued site letter answers).2.stream := by
  have hqueued := enqueue_becomes hs hroom hfit
  obtain ⟨hupdate, hstored⟩ := update_keeps
  have hline := hupdate.trans hqueued.line
  have hqueue : queue (streamUpdateWriteInterest (enqueue site letter) answers.armed).stream =
      queue site.stream ++ [⟨letter, 0⟩] := congrArg Line.queue hline
  have hopened : streamIsOpen
      (streamUpdateWriteInterest (enqueue site letter) answers.armed).stream :=
    (congrArg Line.isOpen hline).trans hopen
  obtain ⟨hresult, -, hflush, hkept⟩ := streamFlush_did (hstored hqueued.stored) hopened
  rw [hqueue] at hresult
  refine ⟨hresult, ?_, hkept⟩
  rw [sendQueued, hflush, hline, Line.after]
  simp [Site.line]

theorem drain_error (h : (drain writes q).result = .error e) : e = .eio := by
  fun_induction drain writes q with
  | case1 | case2 | case3 | case6 => cases h
  | case4 _ _ _ _ ih => exact ih h
  | case5 => cases h; rfl
  | case7 _ _ _ _ _ _ _ ih => exact ih h

/-- No write fails but for now. -/
def Mild (writes : Writes) : Prop := ∀ e, .error e ∈ writes → e = .eagain ∨ e = .eintr

theorem drain_mild (h : Mild writes) : (drain writes q).result = .ok () := by
  fun_induction drain writes q with
  | case1 | case2 | case3 | case6 => rfl
  | case4 _ _ _ _ ih => exact ih fun e he => h e (.tail _ he)
  | case5 e _ _ _ hagain hintr => exact ((h e (.head _)).elim hagain hintr).elim
  | case7 _ _ _ _ _ _ _ ih => exact ih fun e he => h e (.tail _ he)

/-- The descriptor fails no write of a send, and a close is made with someone to listen. -/
def Call.Sound (site : Site) : Call → Prop
  | .send _ _ answers => Mild answers.writes
  | .close => site.stream.onDropped
  | _ => True

def Call.Plain : Call → Prop
  | .openFd .. => False
  | .openSocket .. => False
  | .writeRaw .. => False
  | _ => True

def Does (site : Site) (sound plain : Prop) (site' : Site) : Prop :=
  ∃ deed, Did site deed site' ∧ (sound → deed.Sound site.line) ∧ (plain → deed.Plain)

theorem Does.nothing (hs : Stored site'.stream) (hline : site'.line = site.line) :
    Does site sound plain site' :=
  ⟨_, .nothing hs hline, fun _ => trivial, fun _ => trivial⟩

def handed (site : Site) (letter : Letter) : Site :=
  { site.log [.handed letter] with sends := site.sends + 1 }

theorem streamSend_eq : streamSend site data name answers =
      match sendLetter (handed site ⟨site.sends, name, data.getD []⟩) data
        ⟨site.sends, name, data.getD []⟩ answers with
      | (.error e, site') => (.error e, site'.log [.returned ⟨site.sends, name, data.getD []⟩ e])
      | (.ok (), site') => (.ok (), site') := rfl

theorem refuse_does (hs : Stored site.stream) (hticket : letter.ticket = site.sends)
    (he : e ≠ .eio) : Does site sound plain ((handed site letter).log [.returned letter e]) := by
  refine ⟨.refuse letter e, ⟨⟨hticket, he⟩, ?_, hs⟩, fun _ => trivial, fun _ => trivial⟩
  simp [Site.line, Line.after, handed, Site.log]

theorem sendLetter_cases :
    (∃ e, e ≠ .eio ∧ sendLetter site data letter answers = (.error e, site)) ∨
      (streamIsOpen site.stream ∧ site.stream.queued < site.stream.slotCount ∧
        letter.data.length ≤ site.stream.slotBytes ∧
        sendLetter site data letter answers = sendQueued site letter answers) := by
  unfold sendLetter
  split
  · exact .inl ⟨.einval, by decide, rfl⟩
  · split
    · exact .inl ⟨.enotconn, by decide, rfl⟩
    · split
      · exact .inl ⟨.enospc, by decide, rfl⟩
      · split
        · exact .inl ⟨.emsgsize, by decide, rfl⟩
        · refine .inr ⟨?_, ?_, ?_, rfl⟩
          · simp_all
          · omega
          · omega

theorem streamSend_does (hs : Stored site.stream) :
    Does site (Mild answers.writes) True (streamSend site data name answers).2 := by
  rw [streamSend_eq]
  generalize hletter : Letter.mk site.sends name (data.getD []) = letter
  have hticket : letter.ticket = site.sends := by rw [← hletter]
  rcases sendLetter_cases with
    ⟨e, he, hsend⟩ | ⟨hopen, hroom, hfit, hsend⟩
  · rw [hsend]
    exact refuse_does hs hticket he
  · obtain ⟨hresult, hline, hstored⟩ := sendQueued_spec (handed site letter) hs hopen hroom hfit
    rw [hsend]
    rcases hq : sendQueued (handed site letter) letter answers with ⟨e | _, site'⟩
    · rw [hq] at hresult hline hstored
      cases drain_error hresult.symm
      have hfailed : (drain answers.writes (queue site.stream ++ [⟨letter, 0⟩])).result =
          .error .eio := hresult.symm
      refine ⟨.send letter answers.writes, ⟨⟨hticket, hopen⟩, ?_, hstored⟩, ?_, fun _ => trivial⟩
      · change ({ site'.line with trace := site'.line.trace ++ [.returned letter .eio] } : Line) = _
        rw [hline, Line.after]
        simp [hfailed, failure, handed, Site.log, Site.line]
      · intro hmild
        rw [drain_mild hmild] at hfailed
        cases hfailed
    · rw [hq] at hresult hline hstored
      have htaken : (drain answers.writes (queue site.stream ++ [⟨letter, 0⟩])).result = .ok () :=
        hresult.symm
      refine ⟨.send letter answers.writes, ⟨⟨hticket, hopen⟩, ?_, hstored⟩, ?_, fun _ => trivial⟩
      · rw [hline, Line.after]
        simp [htaken, failure, handed, Site.log, Site.line]
      · exact fun _ => htaken

theorem streamFlush_does (hs : Stored site.stream) :
    Does site sound plain (streamFlush site writes updated).2 := by
  cases hopen : streamIsOpen site.stream with
  | false =>
    rw [streamFlush, if_pos (by simp [hopen])]
    exact .nothing hs rfl
  | true => exact ⟨_, (streamFlush_did hs hopen).2, fun _ => trivial, fun _ => trivial⟩

theorem streamClose_did (hs : Stored site.stream) :
    Did site (.close site.stream.onDropped) (streamClose site) := by
  have hdrop := streamDropQueue_becomes hs
  have hline := hdrop.line
  suffices h : (streamClose site).line = { (streamDropQueue site).line with isOpen := false } ∧
      Stored (streamClose site).stream by
    refine ⟨trivial, ?_, h.2⟩
    rw [h.1, hline]
    rfl
  unfold streamClose
  dsimp only
  split
  · rename_i hclosed
    rw [Bool.not_eq_true'] at hclosed
    refine ⟨?_, hdrop.stored⟩
    rw [← hclosed]
    rfl
  · refine ⟨?_, hdrop.stored.queued_le, hdrop.stored.head_lt, hdrop.stored.fits⟩
    have hclosed : streamIsOpen { (streamDropQueue site).stream with
        fd := none, socket := none, registrationToken := none, wantWrite := false } = false := by
      unfold streamIsOpen
      split <;> rfl
    rw [Site.line, hclosed]
    rfl

theorem opened_does (hclosed : streamIsOpen site.stream = false) (hopen : streamIsOpen stream) :
    Does site sound False (opened site stream) := by
  refine ⟨.opens, ⟨hclosed, ?_, ?_⟩, fun _ => trivial, nofun⟩
  · have hsame : streamIsOpen (opened site stream).stream = streamIsOpen stream := rfl
    rw [Site.line, hsame, hopen]
    rfl
  · exact ⟨Nat.zero_le _, id, nofun⟩

theorem streamOpenSocket_does (hs : Stored site.stream) :
    Does site sound False (streamOpenSocket site socket loop watched).2 := by
  unfold streamOpenSocket
  split
  · exact .nothing hs rfl
  · split
    · exact .nothing hs rfl
    · rename_i hclosed
      have hclosed := Bool.not_eq_true _ ▸ hclosed
      split
      · split
        · exact .nothing hs rfl
        · exact opened_does hclosed rfl
      · exact opened_does hclosed rfl

theorem streamOpen_does (hs : Stored site.stream) :
    Does site sound False (streamOpen site fd kind loop watched).2 := by
  unfold streamOpen
  split
  · exact .nothing hs rfl
  · split
    · exact streamOpenSocket_does hs
    · split
      · exact .nothing hs rfl
      · rename_i hclosed
        have hclosed := Bool.not_eq_true _ ▸ hclosed
        split
        · split
          · exact .nothing hs rfl
          · exact opened_does hclosed rfl
        · exact opened_does hclosed rfl

theorem streamWriteRaw_does (hs : Stored site.stream) :
    Does site sound False (streamWriteRaw site data answer).2 := by
  unfold streamWriteRaw
  split
  · exact .nothing hs rfl
  · split
    · exact .nothing hs rfl
    · split
      · exact .nothing hs rfl
      · exact ⟨.raw _, ⟨trivial, rfl, hs⟩, fun _ => trivial, by simp⟩

def Hears (site site' : Site) : Prop :=
  ∃ chunks, site'.line = site.line.after (.receive chunks) ∧
    (Stored site.stream → Stored site'.stream)

theorem Hears.refl : Hears site site := ⟨[], by rw [Line.after, map_nil, append_nil], id⟩

theorem Hears.trans (h : Hears site site') (h' : Hears site' site'') : Hears site site'' := by
  obtain ⟨chunks, hline, hstored⟩ := h
  obtain ⟨chunks', hline', hstored'⟩ := h'
  refine ⟨chunks ++ chunks', ?_, hstored' ∘ hstored⟩
  rw [hline', hline]
  simp [Line.after]

theorem pumpTurn_hears (site : Site) (got : Except Errno Bytes) (total : Nat) :
    Hears site (pumpTurn site got total).2 := by
  unfold pumpTurn
  split
  · exact .refl
  · dsimp only
    split
    · exact ⟨[_], rfl, fun h => ⟨h.queued_le, h.head_lt, h.fits⟩⟩
    · exact ⟨[], by rw [Line.after, map_nil, append_nil]; rfl,
        fun h => ⟨h.queued_le, h.head_lt, h.fits⟩⟩
  · exact .refl
  · exact .refl
  · exact .refl

theorem pumpLoop_hears : Hears site (pumpLoop turns total reads site).2 := by
  induction turns generalizing total reads site with
  | zero => exact .refl
  | succ _ ih =>
    cases reads with
    | nil => exact .refl
    | cons got =>
      have hturn := pumpTurn_hears site got total
      rw [pumpLoop.eq_def]
      dsimp only
      split
      · rename_i h
        rwa [h] at hturn
      · rename_i h
        rw [h] at hturn
        exact hturn.trans (ih ..)

theorem Hears.does (h : Hears site site') (hs : Stored site.stream) :
    Does site sound plain site' := by
  obtain ⟨chunks, hline, hstored⟩ := h
  exact ⟨.receive chunks, ⟨trivial, hline, hstored hs⟩, fun _ => trivial, fun _ => trivial⟩

theorem call_does (hs : Stored site.stream) (call : Call) :
    Does site (call.Sound site) call.Plain (call.run site) := by
  cases call with
  | setSink => exact .nothing ⟨hs.queued_le, hs.head_lt, hs.fits⟩ rfl
  | openFd => exact streamOpen_does hs
  | openSocket => exact streamOpenSocket_does hs
  | send => exact streamSend_does hs
  | flush => exact streamFlush_does hs
  | writeRaw => exact streamWriteRaw_does hs
  | pump reads =>
    change Does site _ _ (streamPump site reads).2
    unfold streamPump
    split
    · exact .nothing hs rfl
    · exact (pumpLoop_hears ..).does hs
  | turn got total => exact (pumpTurn_hears site got total).does hs
  | close => exact ⟨_, streamClose_did hs, id, fun _ => trivial⟩

end Inkwell.Streams
