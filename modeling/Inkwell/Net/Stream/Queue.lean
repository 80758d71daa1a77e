import Inkwell.Net.Stream

namespace Inkwell.Streams
open Library List

/-! ### The queue as a list

The ring in the caller's storage stands for a list of writes, each with how far it has got. -/

structure Frame where
  letter : Letter
  sent : Nat := 0

def frameAt (stream : Stream) (index : Nat) : Frame :=
  ⟨letterAt stream index, (stream.slots index).sent⟩

def queue (stream : Stream) : List Frame :=
  ringContents (frameAt stream) stream.slotCount stream.head stream.queued

structure Stored (stream : Stream) : Prop where
  queued_le : stream.queued ≤ stream.slotCount
  head_lt : 0 < stream.slotCount → stream.head < stream.slotCount
  fits : ∀ f ∈ queue stream, f.letter.data.length ≤ stream.slotBytes

def Site.bare (site : Site) : Site :=
  { site with
    trace := []
    stream :=
      { site.stream with slots := fun _ => {}, bytes := fun _ => 0, head := 0, queued := 0 } }

def Frame.further (f : Frame) (n : Nat) : Frame := { f with sent := f.sent + n }

def Frame.next (f : Frame) (n : Nat) : Bytes := (f.letter.data.drop f.sent).take n

structure Drained where
  result : Except Errno Unit
  queue : List Frame
  events : List Event := []

def drain : Writes → List Frame → Drained
  | [], q => ⟨.ok (), q, []⟩
  | _ :: _, [] => ⟨.ok (), [], []⟩
  | .error e :: writes, f :: q =>
    if e = .eagain then ⟨.ok (), f :: q, []⟩
    else if e = .eintr then drain writes (f :: q)
    else ⟨.error .eio, f :: q, []⟩
  | .ok n :: writes, f :: q =>
    let n := min n (f.letter.data.length - f.sent)
    if f.sent + n < f.letter.data.length then ⟨.ok (), f.further n :: q, [.wrote (f.next n)]⟩
    else
      let d := drain writes q
      ⟨d.result, d.queue, .wrote (f.next n) :: .finished f.letter :: d.events⟩

theorem length_queue (stream : Stream) : (queue stream).length = stream.queued :=
  length_ringContents ..

theorem queue_nil (h : stream.queued = 0) : queue stream = [] := by rw [queue, h, ringContents_zero]

theorem length_letterAt : (letterAt stream index).data.length = (stream.slots index).length :=
  Memory.length_read ..

theorem letterAt_apart (stream : Stream) (slots : Nat → Slot) (head queued : Nat) (hij : i ≠ j)
    (hdata : data.length ≤ stream.slotBytes)
    (hfits : (letterAt stream i).data.length ≤ stream.slotBytes)
    (hslot : slots i = stream.slots i) :
    letterAt
      { stream with slots, bytes := stream.bytes.write (j * stream.slotBytes) data, head, queued }
      i = letterAt stream i := by
  rw [length_letterAt] at hfits
  have happart := block_apart stream.slotBytes hij
  simp only [letterAt, slotBytesAt, hslot, Letter.mk.injEq, true_and]
  apply Memory.read_write_apart
  omega

theorem queue_front (h : queue stream = f :: q) (hs : Stored stream) :
    f = frameAt stream stream.head ∧ 0 < stream.queued ∧ stream.head < stream.slotCount ∧
      q = ringContents (frameAt stream) stream.slotCount ((stream.head + 1) % stream.slotCount)
        (stream.queued - 1) := by
  have hlen := length_queue stream
  rw [h, length_cons] at hlen
  have hhead := hs.head_lt (by have := hs.queued_le; omega)
  obtain ⟨n, hn⟩ : ∃ n, stream.queued = n + 1 := ⟨q.length, hlen.symm⟩
  rw [queue, hn, ringContents_succ, Nat.mod_eq_of_lt hhead, List.cons.injEq] at h
  refine ⟨h.1.symm, by omega, hhead, ?_⟩
  rw [hn, Nat.add_sub_cancel, h.2]

structure Becomes (site : Site) (q : List Frame) (events : List Event) (site' : Site) : Prop where
  holds : queue site'.stream = q
  stored : Stored site'.stream
  trace : site'.trace = site.trace ++ events
  bare : site'.bare = site.bare

theorem Becomes.refl (hs : Stored site.stream) : Becomes site (queue site.stream) [] site :=
  ⟨rfl, hs, (append_nil _).symm, rfl⟩

theorem Becomes.trans (h : Becomes site q events site') (h' : Becomes site' q' events' site'') :
    Becomes site q' (events ++ events') site'' :=
  ⟨h'.holds, h'.stored, by rw [h'.trace, h.trace, append_assoc], h'.bare.trans h.bare⟩

theorem progress_slot : (progress site n).stream.slots (progress site n).stream.head =
      { site.stream.slots site.stream.head with
        sent := (site.stream.slots site.stream.head).sent + n } := by
  simp [progress, Site.log]

theorem progress_becomes (hs : Stored site.stream) (h : queue site.stream = f :: q)
    (hn : n ≤ f.letter.data.length - f.sent) :
    Becomes site (f.further n :: q) [.wrote (f.next n)] (progress site n) := by
  obtain ⟨hf, hpos, hhead, hq⟩ := queue_front h hs
  have hletter (i : Nat) : letterAt (progress site n).stream i = letterAt site.stream i := by
    by_cases hi : i = site.stream.head
    · subst hi
      simp [letterAt, progress, Site.log, slotBytesAt]
    · simp [letterAt, progress, Site.log, slotBytesAt, hi]
  have hfront : frameAt (progress site n).stream site.stream.head = f.further n := by
    rw [frameAt, hletter, hf]
    simp [progress, Site.log, Frame.further, frameAt]
  have hothers (i : Nat) (hi : i ≠ site.stream.head) :
      frameAt (progress site n).stream i = frameAt site.stream i := by
    rw [frameAt, hletter]
    simp [progress, Site.log, frameAt, hi]
  have hqueue : queue (progress site n).stream = f.further n :: q := by
    obtain ⟨k, hk⟩ : ∃ k, site.stream.queued = k + 1 := ⟨_, (Nat.sub_add_cancel hpos).symm⟩
    have hroom : k < site.stream.slotCount := by
      have := hs.queued_le
      omega
    have hmod := Nat.mod_eq_of_lt hhead
    change ringContents (frameAt (progress site n).stream) site.stream.slotCount site.stream.head
      site.stream.queued = _
    rw [hk, ringContents_succ, hmod, hfront, hq, hk, Nat.add_sub_cancel, ringContents_front hroom]
    intro i hi _
    exact hothers i (hmod ▸ hi)
  refine ⟨hqueue, ⟨hs.queued_le, hs.head_lt, ?_⟩, ?_, rfl⟩
  · intro g hg
    rw [hqueue] at hg
    rcases mem_cons.mp hg with rfl | hg
    · exact hs.fits f (by rw [h]; exact mem_cons_self)
    · exact hs.fits g (by rw [h]; exact mem_cons_of_mem _ hg)
  · have hread : site.stream.bytes.read (slotBytesAt site.stream site.stream.head + f.sent) n =
        f.next n := by
      rcases Nat.eq_zero_or_pos n with rfl | _
      · simp [Frame.next, Memory.read]
      · have hdata : f.letter.data = site.stream.bytes.read
            (slotBytesAt site.stream site.stream.head) f.letter.data.length := by
          rw [hf]
          simp [frameAt, letterAt]
        rw [Frame.next, Memory.read_part _ _ f.letter.data.length (by omega), ← hdata]
    rw [← hread, hf]
    rfl

theorem advance_becomes (hs : Stored site.stream) (h : queue site.stream = f :: q) :
    Becomes site q [.finished f.letter] (advance site) := by
  obtain ⟨hf, hpos, hhead, hq⟩ := queue_front h hs
  have hfit (g : Frame) (hg : g ∈ q) : g.letter.data.length ≤ site.stream.slotBytes :=
    hs.fits g (by rw [h]; exact mem_cons_of_mem _ hg)
  have hqueue : queue (advance site).stream = q := by
    obtain ⟨k, hk⟩ : ∃ k, site.stream.queued = k + 1 := ⟨_, (Nat.sub_add_cancel hpos).symm⟩
    have hroom : k < site.stream.slotCount := by
      have := hs.queued_le
      omega
    change ringContents (frameAt (advance site).stream) site.stream.slotCount
      ((site.stream.head + 1) % site.stream.slotCount) (site.stream.queued - 1) = _
    rw [hq, hk, Nat.add_sub_cancel, ringContents_front hroom]
    intro i hi hmem
    rw [Nat.mod_eq_of_lt hhead] at hi
    have hfits := hs.fits (frameAt site.stream i) (by rw [queue, hk]; exact hmem)
    have hletter := letterAt_apart site.stream site.stream.slots
      ((site.stream.head + 1) % site.stream.slotCount) (site.stream.queued - 1) hi
      (length_replicate (a := 0)).le hfits rfl
    rw [frameAt, frameAt, ← hletter]
    rfl
  refine ⟨hqueue, ⟨?_, ?_, ?_⟩, ?_, rfl⟩
  · have := hs.queued_le
    change site.stream.queued - 1 ≤ site.stream.slotCount
    omega
  · exact fun hcount => Nat.mod_lt _ hcount
  · rw [hqueue]
    exact hfit
  · rw [hf]
    rfl

theorem drain_nil : drain writes [] = ⟨.ok (), [], []⟩ := by cases writes <;> simp [drain]

theorem flushLoop_becomes (hs : Stored site.stream) (writes : Writes) :
    (flushLoop writes site).1 = (drain writes (queue site.stream)).result ∧
      Becomes site (drain writes (queue site.stream)).queue
        (drain writes (queue site.stream)).events
        (flushLoop writes site).2 := by
  induction writes generalizing site with
  | nil => exact ⟨rfl, .refl hs⟩
  | cons answer _ ih =>
    cases hq : queue site.stream with
    | nil =>
      have hzero : site.stream.queued = 0 := by rw [← length_queue, hq, length_nil]
      rw [flushLoop.eq_def, drain_nil, ← hq]
      simp only [if_pos hzero]
      exact ⟨trivial, .refl hs⟩
    | cons f =>
      have hsome : ¬site.stream.queued = 0 := by
        rw [← length_queue, hq, length_cons]
        omega
      rw [flushLoop.eq_def]
      simp only [if_neg hsome]
      have hstay := Becomes.refl hs
      rw [hq] at hstay
      cases answer with
      | error e =>
        simp only [drain]
        by_cases hagain : e = .eagain
        · simp only [if_pos hagain]
          exact ⟨trivial, hstay⟩
        · by_cases hintr : e = .eintr
          · simp only [if_neg hagain, if_pos hintr, ← hq]
            exact ih hs
          · simp only [if_neg hagain, if_neg hintr]
            exact ⟨trivial, hstay⟩
      | ok n =>
        obtain ⟨hf, -⟩ := queue_front hq hs
        have hlen : (site.stream.slots site.stream.head).length = f.letter.data.length := by
          rw [hf]
          exact (length_letterAt ..).symm
        have hsent : (site.stream.slots site.stream.head).sent = f.sent := by
          rw [hf]
          rfl
        have hmoved := progress_becomes hs hq (min_le_right n _)
        simp only [drain, progress_slot, hlen, hsent]
        split
        · exact ⟨rfl, hmoved⟩
        · have hleft := advance_becomes hmoved.stored hmoved.holds
          obtain ⟨hresult, hrest⟩ := ih hleft.stored
          rw [hleft.holds] at hresult hrest
          exact ⟨hresult, (hmoved.trans hleft).trans hrest⟩

theorem enqueue_becomes (hs : Stored site.stream)
    (hroom : site.stream.queued < site.stream.slotCount)
    (hfit : letter.data.length ≤ site.stream.slotBytes) :
    Becomes site (queue site.stream ++ [⟨letter, 0⟩]) [.queued letter] (enqueue site letter) := by
  have hqueue : queue (enqueue site letter).stream = queue site.stream ++ [⟨letter, 0⟩] := by
    apply ringContents_push hroom
    · simp [frameAt, letterAt, enqueue, Site.log, slotBytesAt, Memory.read_write]
    · intro i hi hmem
      have hslot :=
        Function.update_of_ne hi (⟨letter.data.length, 0, letter.id, letter.ticket⟩ : Slot)
        site.stream.slots
      have hletter := letterAt_apart site.stream _ site.stream.head (site.stream.queued + 1) hi hfit
        (hs.fits _ hmem) hslot
      rw [frameAt, frameAt, ← hletter]
      congr 1
      exact congrArg Slot.sent hslot
  refine ⟨hqueue, ⟨hroom, hs.head_lt, ?_⟩, rfl, rfl⟩
  intro f hf
  rw [hqueue] at hf
  rcases mem_append.mp hf with hf | hf
  · exact hs.fits f hf
  · cases mem_singleton.mp hf
    exact hfit

theorem dropLoop_spec (hs : Stored site.stream) (hn : n ≤ site.stream.queued) :
    ∃ bytes, (List.range n).foldl
        (fun at_ i => dropAt at_ ((site.stream.head + i) % site.stream.slotCount)) site =
      { site with
        trace := site.trace ++
          ((queue site.stream).take n).map fun f => dropEvent site.stream.onDropped f.letter
        stream := { site.stream with bytes } } ∧
      ∀ i < site.stream.queued, n ≤ i →
        letterAt { site.stream with bytes } ((site.stream.head + i) % site.stream.slotCount) =
          letterAt site.stream ((site.stream.head + i) % site.stream.slotCount) := by
  induction n with
  | zero => exact ⟨site.stream.bytes, by simp, fun _ _ _ => rfl⟩
  | succ n ih =>
    obtain ⟨bytes, hfold, hsame⟩ := ih (by omega)
    have hqueued := hs.queued_le
    have hget : (queue site.stream)[n]? =
        some (frameAt site.stream ((site.stream.head + n) % site.stream.slotCount)) := by
      simp [queue, ringContents, show n < site.stream.queued by omega]
    refine ⟨(slotWipe { site.stream with bytes }
      ((site.stream.head + n) % site.stream.slotCount)).bytes, ?_, ?_⟩
    · rw [range_succ, foldl_append, hfold, foldl_cons, foldl_nil, dropAt,
        Site.log, hsame n (by omega) le_rfl, take_add_one, hget]
      simp only [map_append, Option.toList_some, map_singleton, ← append_assoc]
      rfl
    · intro i hi _
      rw [← hsame i hi (by omega)]
      have hne : (site.stream.head + i) % site.stream.slotCount ≠
          (site.stream.head + n) % site.stream.slotCount := fun h =>
        absurd (ring_index_inj (by omega) (by omega) h) (by omega)
      have hfits := hs.fits _ (mem_ringContents hi)
      exact letterAt_apart { site.stream with bytes } site.stream.slots site.stream.head
        site.stream.queued hne (length_replicate).le
        (by rw [hsame i hi (by omega)]; exact hfits) rfl

theorem streamDropQueue_becomes (hs : Stored site.stream) :
    Becomes site [] ((queue site.stream).map fun f => dropEvent site.stream.onDropped f.letter)
      (streamDropQueue site) := by
  obtain ⟨_, hfold, -⟩ := dropLoop_spec hs le_rfl
  rw [← length_queue, take_length, length_queue] at hfold
  rw [streamDropQueue, hfold]
  exact ⟨rfl, ⟨Nat.zero_le _, id, nofun⟩, rfl, rfl⟩

end Inkwell.Streams
