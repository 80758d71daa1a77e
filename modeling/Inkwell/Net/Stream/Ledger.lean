import Inkwell.Net.Stream.Line

namespace Inkwell.Streams
open Library List

def Event.handed? : Event → Option Letter
  | .handed l => some l
  | _ => none

def Event.refused? : Event → Option Letter
  | .returned l _ => some l
  | _ => none

def Event.queued? : Event → Option Letter
  | .queued l => some l
  | _ => none

def Event.finished? : Event → Option Letter
  | .finished l => some l
  | _ => none

def Event.reported? : Event → Option Letter
  | .dropped l => some l
  | _ => none

def Event.discarded? : Event → Option Letter
  | .discarded l => some l
  | _ => none

def Event.lost? : Event → Option Letter
  | .dropped l => some l
  | .discarded l => some l
  | _ => none

def Event.bytes : Event → Bytes
  | .wrote bytes => bytes
  | .wroteRaw bytes => bytes
  | _ => []

def wire (trace : List Event) : Bytes := trace.flatMap Event.bytes

theorem wire_append : wire (trace ++ events) = wire trace ++ wire events := flatMap_append

def reports (trace : List Event) : List UInt32 := (trace.filterMap Event.reported?).map Letter.id

def Event.quiet : Event → Bool
  | .handed _ => true
  | .returned _ _ => true
  | .received _ => true
  | _ => false

/-- The letters taken are those out and those queued, in order; only the first of the queue has
begun to go out. -/
structure Ledger (q : List Frame) (trace : List Event) : Prop where
  accounted : trace.filterMap Event.queued? = trace.filterMap Event.finished? ++ q.map Frame.letter
  kept : trace.filterMap Event.lost? = []
  written : wire trace = (trace.filterMap Event.finished?).flatMap Letter.data ++
    q.flatMap fun f => f.letter.data.take f.sent
  behind : ∀ f ∈ q.tail, f.sent = 0
  front : ∀ f ∈ q, f.sent < f.letter.data.length ∨ f.sent = 0

theorem not_begun {q : List Frame} (h : ∀ f ∈ q, f.sent = 0) :
    (q.flatMap fun f => f.letter.data.take f.sent) = [] := by
  rw [flatMap_eq_nil_iff]
  intro f hf
  rw [h f hf, take_zero]

theorem Ledger.progress (h : Ledger (f :: q) trace) (hn : f.sent + n < f.letter.data.length) :
    Ledger (f.further n :: q) (trace ++ [.wrote (f.next n)]) := by
  have hrest := not_begun h.behind
  refine ⟨?_, ?_, ?_, h.behind, ?_⟩
  · simpa [filterMap_cons, Event.queued?, Event.finished?, Frame.further] using h.accounted
  · simpa [filterMap_cons, Event.lost?] using h.kept
  · have hwritten := h.written
    simp only [wire, flatMap_append, flatMap_cons, flatMap_nil, append_nil,
      tail_cons] at hwritten hrest ⊢
    rw [hwritten, hrest]
    simp [Event.bytes, filterMap_cons, Event.finished?, Frame.further, Frame.next, take_add]
  · intro g hg
    rcases mem_cons.mp hg with rfl | hg
    · exact .inl hn
    · exact h.front g (mem_cons_of_mem _ hg)

theorem Ledger.finish (h : Ledger (f :: q) trace) (hn : f.sent + n = f.letter.data.length) :
    Ledger q (trace ++ [.wrote (f.next n), .finished f.letter]) := by
  have hrest := not_begun h.behind
  refine ⟨?_, ?_, ?_, ?_, ?_⟩
  · simpa [filterMap_cons, Event.queued?, Event.finished?] using h.accounted
  · simpa [filterMap_cons, Event.lost?] using h.kept
  · have hwhole : f.letter.data.take f.sent ++ f.next n = f.letter.data := by
      rw [Frame.next, ← take_add, hn, take_length]
    have hwritten := h.written
    simp only [wire, flatMap_append, flatMap_cons, flatMap_nil, append_nil,
      tail_cons] at hwritten hrest ⊢
    rw [hwritten, hrest]
    simp [Event.bytes, filterMap_cons, Event.finished?, hwhole]
  · intro g hg
    exact h.behind g (mem_of_mem_tail hg)
  · intro g hg
    exact h.front g (mem_cons_of_mem _ hg)

theorem Ledger.drain (h : Ledger q trace) (writes : Writes) :
    Ledger (drain writes q).queue (trace ++ (drain writes q).events) := by
  revert h
  fun_induction Streams.drain writes q generalizing trace with
  | case1 | case2 | case3 | case5 => exact fun h => by simpa using h
  | case4 _ _ _ _ ih => exact ih
  | case6 =>
    rename_i hless
    exact fun h => h.progress hless
  | case7 n _ f q m =>
    rename_i ih
    intro h
    have hm : f.sent + m = f.letter.data.length := by
      have hfront := h.front f (mem_cons_self)
      omega
    have hrest := ih (h.finish hm)
    rwa [append_assoc] at hrest

theorem Ledger.push (h : Ledger q trace) (letter : Letter) :
    Ledger (q ++ [⟨letter, 0⟩]) (trace ++ [.queued letter]) := by
  refine ⟨?_, ?_, ?_, ?_, ?_⟩
  · simp [filterMap_cons, Event.queued?, Event.finished?, h.accounted]
  · simpa [filterMap_cons, Event.lost?] using h.kept
  · simpa [wire, Event.bytes, filterMap_cons, Event.finished?] using h.written
  · intro f hf
    cases q with
    | nil => cases hf
    | cons =>
      rcases mem_append.mp hf with hf | hf
      · exact h.behind f hf
      · cases mem_singleton.mp hf
        rfl
  · intro f hf
    rcases mem_append.mp hf with hf | hf
    · exact h.front f hf
    · cases mem_singleton.mp hf
      exact .inr rfl

theorem readings_quiet (hq : ∀ e ∈ events, Event.quiet e) :
    events.filterMap Event.queued? = [] ∧ events.filterMap Event.finished? = [] ∧
      events.filterMap Event.lost? = [] ∧ wire events = [] := by
  have hnone (e : Event) (he : e ∈ events) :
      e.queued? = none ∧ e.finished? = none ∧ e.lost? = none ∧ e.bytes = [] := by
    have := hq e he
    cases e <;> simp_all [Event.quiet, Event.queued?, Event.finished?, Event.lost?, Event.bytes]
  refine ⟨?_, ?_, ?_, ?_⟩
  · exact filterMap_eq_nil_iff.mpr fun e he => (hnone e he).1
  · exact filterMap_eq_nil_iff.mpr fun e he => (hnone e he).2.1
  · exact filterMap_eq_nil_iff.mpr fun e he => (hnone e he).2.2.1
  · exact flatMap_eq_nil_iff.mpr fun e he => (hnone e he).2.2.2

theorem Ledger.quiet (h : Ledger q trace) (hq : ∀ e ∈ events, Event.quiet e) :
    Ledger q (trace ++ events) := by
  obtain ⟨hqueued, hfinished, hlost, hwire⟩ := readings_quiet hq
  refine ⟨?_, ?_, ?_, h.behind, h.front⟩
  · simpa [hqueued, hfinished] using h.accounted
  · simpa [hlost] using h.kept
  · simpa [wire_append, hwire, hfinished] using h.written

def Begun (part : Bytes) (letters : List Letter) : Prop :=
  part = [] ∨ ∃ l rest, letters = l :: rest ∧ part <+: l.data ∧ part.length < l.data.length

/-- Each letter is out whole, given back or queued, in this order, and what went out is theirs and
some of the next one's. -/
structure Accounts (q : List Frame) (trace : List Event) : Prop where
  accounted : trace.filterMap Event.queued? =
    trace.filterMap Event.finished? ++ trace.filterMap Event.lost? ++ q.map Frame.letter
  written : ∃ part, wire trace = (trace.filterMap Event.finished?).flatMap Letter.data ++ part ∧
    Begun part (trace.filterMap Event.lost? ++ q.map Frame.letter)

theorem Ledger.part (h : Ledger q trace) :
    Begun (q.flatMap fun f => f.letter.data.take f.sent) (q.map Frame.letter) := by
  cases q with
  | nil => exact .inl rfl
  | cons f q =>
    have hrest := not_begun h.behind
    rw [tail_cons] at hrest
    rw [flatMap_cons, hrest, append_nil]
    rcases h.front f (mem_cons_self) with _ | hzero
    · refine .inr ⟨f.letter, q.map Frame.letter, rfl, take_prefix .., ?_⟩
      rw [length_take]
      omega
    · left
      rw [hzero, take_zero]

theorem Ledger.accounts (h : Ledger q trace) : Accounts q trace := by
  refine ⟨?_, _, h.written, ?_⟩
  · rw [h.accounted, h.kept, append_nil]
  · rw [h.kept]
    exact h.part

theorem readings_dropped (answered : Bool) (q : List Frame) :
    (q.map fun f => dropEvent answered f.letter).filterMap Event.queued? = [] ∧
      (q.map fun f => dropEvent answered f.letter).filterMap Event.finished? = [] ∧
      (q.map fun f => dropEvent answered f.letter).filterMap Event.lost? = q.map Frame.letter ∧
      wire (q.map fun f => dropEvent answered f.letter) = [] := by
  have hone (l : Letter) : (dropEvent answered l).queued? = none ∧
      (dropEvent answered l).finished? = none ∧ (dropEvent answered l).lost? = some l ∧
      (dropEvent answered l).bytes = [] := by
    unfold dropEvent
    split <;> exact ⟨rfl, rfl, rfl, rfl⟩
  induction q with
  | nil => exact ⟨rfl, rfl, rfl, rfl⟩
  | cons f q ih =>
    obtain ⟨hqueued, hfinished, hlost, hwire⟩ := ih
    obtain ⟨hqueued', hfinished', hlost', hbytes⟩ := hone f.letter
    simp only [wire, map_cons, filterMap_cons, flatMap_cons, hqueued, hqueued',
      hfinished, hfinished', hlost, hlost', hbytes, nil_append]
    exact ⟨trivial, trivial, trivial, hwire⟩

theorem Ledger.close (h : Ledger q trace) :
    Accounts [] (trace ++ q.map fun f => dropEvent answered f.letter) := by
  obtain ⟨hqueued, hfinished, hlost, hwire⟩ := readings_dropped answered q
  refine ⟨?_, q.flatMap fun f => f.letter.data.take f.sent, ?_, ?_⟩
  · simp [hqueued, hfinished, hlost, h.kept, h.accounted]
  · rw [wire_append, hwire, append_nil, h.written, filterMap_append, hfinished, append_nil]
  · rw [filterMap_append, h.kept, hlost]
    simpa using h.part

theorem Accounts.quiet (h : Accounts q trace) (hq : ∀ e ∈ events, Event.quiet e) :
    Accounts q (trace ++ events) := by
  obtain ⟨hqueued, hfinished, hlost, hwire⟩ := readings_quiet hq
  obtain ⟨part, hwritten, hpart⟩ := h.written
  refine ⟨?_, part, ?_, ?_⟩
  · simpa [hqueued, hfinished, hlost] using h.accounted
  · simpa [wire_append, hwire, hfinished] using hwritten
  · simpa [hlost] using hpart

theorem Accounts.in_order (h : Accounts q trace) :
    wire trace <+: (trace.filterMap Event.queued?).flatMap Letter.data := by
  obtain ⟨_, hwritten, hpart⟩ := h.written
  rw [hwritten, h.accounted, append_assoc, flatMap_append, prefix_append_right_inj]
  rcases hpart with rfl | ⟨l, _, hletters, hpre, -⟩
  · exact nil_prefix
  · rw [hletters, flatMap_cons]
    exact hpre.trans (prefix_append ..)

def Conserved (line : Line) : Prop :=
  (line.isOpen ∧ Ledger line.queue line.trace) ∨
    (line.isOpen = false ∧ line.queue = [] ∧ Accounts [] line.trace)

theorem failure_quiet (letter : Letter) (result : Except Errno Unit) :
    ∀ e ∈ failure letter result, Event.quiet e := by
  intro e he
  cases result with
  | ok => cases he
  | error =>
    cases mem_singleton.mp he
    rfl

theorem Conserved.quiet (h : Conserved line) (hq : ∀ e ∈ events, Event.quiet e) :
    Conserved { line with sends := n, trace := line.trace ++ events } := by
  rcases h with ⟨hopen, hledger⟩ | ⟨hclosed, hqueue, haccounts⟩
  · exact .inl ⟨hopen, hledger.quiet hq⟩
  · exact .inr ⟨hclosed, hqueue, haccounts.quiet hq⟩

theorem Conserved.after (h : Conserved line) (hfits : deed.Fits line) (hplain : deed.Plain) :
    Conserved (line.after deed) := by
  have hledger (hopen : line.isOpen) : Ledger line.queue line.trace := by
    rcases h with ⟨-, hledger⟩ | ⟨hclosed, -⟩
    · exact hledger
    · rw [hopen] at hclosed
      cases hclosed
  cases deed with
  | receive =>
    apply h.quiet
    intro e he
    obtain ⟨_, -, rfl⟩ := mem_map.mp he
    rfl
  | raw | opens => exact hplain.elim
  | refuse =>
    apply h.quiet
    simp [Event.quiet]
  | send letter writes =>
    have hhanded : ∀ e ∈ [Event.handed letter], e.quiet = true := by simp [Event.quiet]
    have hdone := ((((hledger hfits.2).quiet hhanded).push letter).drain writes).quiet
      (failure_quiet letter (drain writes (line.queue ++ [⟨letter, 0⟩])).result)
    refine .inl ⟨hfits.2, ?_⟩
    simpa [Line.after] using hdone
  | flush writes => exact .inl ⟨hfits, (hledger hfits).drain writes⟩
  | close =>
    refine .inr ⟨rfl, rfl, ?_⟩
    rcases h with ⟨-, hledger⟩ | ⟨-, hqueue, haccounts⟩
    · exact hledger.close
    · rw [Line.after, hqueue]
      simpa using haccounts

theorem Conserved.accounts (h : Conserved line) : Accounts line.queue line.trace := by
  rcases h with ⟨-, hledger⟩ | ⟨-, hqueue, _⟩
  · exact hledger.accounts
  · rwa [hqueue]

theorem drain_events :
    ∀ e ∈ (drain writes q).events, (∃ bytes, e = .wrote bytes) ∨ ∃ l, e = .finished l := by
  fun_induction drain writes q with
  | case1 | case2 | case3 | case5 => simp
  | case4 _ _ _ _ ih => exact ih
  | case6 =>
    intro e he
    exact .inl ⟨_, mem_singleton.mp he⟩
  | case7 _ _ _ _ _ _ _ ih =>
    intro e he
    simp only [mem_cons] at he
    rcases he with rfl | rfl | he
    · exact .inl ⟨_, rfl⟩
    · exact .inr ⟨_, rfl⟩
    · exact ih e he

theorem filterMap_drain (pick : Event → Option Letter)
    (hwrote : ∀ bytes, pick (.wrote bytes) = none) (hfinished : ∀ l, pick (.finished l) = none)
    (writes : Writes) (q : List Frame) : (drain writes q).events.filterMap pick = [] := by
  rw [filterMap_eq_nil_iff]
  intro e he
  rcases drain_events e he with ⟨bytes, rfl⟩ | ⟨l, rfl⟩
  · exact hwrote bytes
  · exact hfinished l

structure Numbered (letters : List Letter) (sends : Nat) : Prop where
  below : ∀ l ∈ letters, l.ticket < sends
  distinct : (letters.map Letter.ticket).Nodup

theorem Numbered.nil (sends : Nat) : Numbered [] sends := ⟨nofun, nodup_nil⟩

theorem Numbered.mono (h : Numbered letters sends) : Numbered letters (sends + 1) :=
  ⟨fun l hl => (h.below l hl).trans (Nat.lt_succ_self _), h.distinct⟩

theorem Numbered.snoc (h : Numbered letters sends) (hticket : letter.ticket = sends) :
    Numbered (letters ++ [letter]) (sends + 1) := by
  refine ⟨?_, ?_⟩
  · intro l hl
    rcases mem_append.mp hl with hl | hl
    · exact h.mono.below l hl
    · cases mem_singleton.mp hl
      rw [hticket]
      exact Nat.lt_succ_self _
  · rw [map_append, nodup_append]
    refine ⟨h.distinct, pairwise_singleton _ _, ?_⟩
    intro n hn m hm
    obtain ⟨l, hl, rfl⟩ := mem_map.mp hn
    cases mem_singleton.mp hm
    rw [hticket]
    exact (h.below l hl).ne

theorem received_none (pick : Event → Option Letter)
    (hreceived : ∀ bytes, pick (.received bytes) = none) (chunks : List Bytes) :
    (chunks.map Event.received).filterMap pick = [] := by
  rw [filterMap_eq_nil_iff]
  intro e he
  obtain ⟨chunk, -, rfl⟩ := mem_map.mp he
  exact hreceived chunk

theorem Numbered.after {line : Line} {deed : Deed}
    (h : Numbered (line.trace.filterMap Event.queued?) line.sends) (hfits : deed.Fits line) :
    Numbered ((line.after deed).trace.filterMap Event.queued?) (line.after deed).sends := by
  cases deed with
  | receive => simpa [Line.after, received_none Event.queued? fun _ => rfl] using h
  | raw => simpa [Line.after, filterMap_cons, Event.queued?] using h
  | opens => exact h
  | refuse => simpa [Line.after, filterMap_cons, Event.queued?] using h.mono
  | send letter writes =>
    have hqueued : (line.after (.send letter writes)).trace.filterMap Event.queued? =
        line.trace.filterMap Event.queued? ++ [letter] := by
      simp [Line.after, filterMap_cons, Event.queued?,
        filterMap_drain Event.queued? (fun _ => rfl) (fun _ => rfl),
        (readings_quiet (failure_quiet letter _)).1]
    rw [hqueued]
    exact h.snoc hfits.1
  | flush => simpa [Line.after, filterMap_drain Event.queued? (fun _ => rfl) (fun _ => rfl)] using h
  | close answered => simpa [Line.after, (readings_dropped answered line.queue).1] using h

end Inkwell.Streams
