import Inkwell.Net.Mqtt.History
import Inkwell.Net.Mqtt.Run

namespace Inkwell.Mqtt
open List

/-- The place in the filter table is one of the table, and the SUBSCRIBE in flight is for it. -/
structure Aligned (filters : List Bytes) (sent flight : Nat) : Prop where
  sent_le : sent ≤ filters.length
  count : filters.length ≤ filtersMax
  in_flight : flight ≠ 0 → flight = sent + 1 ∧ sent < filters.length

theorem Aligned.reset (h : Aligned filters sent flight) : Aligned filters 0 0 :=
  ⟨Nat.zero_le _, h.count, fun h => absurd rfl h⟩

theorem Aligned.add (h : Aligned filters sent flight) (filter : Bytes)
    (hroom : filters.length < filtersMax) : Aligned (filters ++ [filter]) sent flight where
  sent_le := by
    rw [length_append]
    exact Nat.le_add_right_of_le h.sent_le
  count := by
    rw [length_append]
    exact hroom
  in_flight := by
    intro hflight
    obtain ⟨hid, hlt⟩ := h.in_flight hflight
    rw [length_append]
    exact ⟨hid, Nat.lt_add_right _ hlt⟩

def Event.InTable : Event → Prop
  | .filterRead index count => index < count
  | .called client => Aligned client.filters client.filterSent client.subscribeId
  | _ => True

structure Table (c : Core) : Prop where
  aligned : Aligned c.filters c.filterSent c.subscribeId
  reads : ∀ e ∈ c.trace, e.InTable

theorem Table.enter (h : Table c) : Table (c.enter st) := by
  unfold Core.enter
  split
  · exact h
  · exact ⟨h.aligned, forall_mem_cons.mpr ⟨trivial, h.reads⟩⟩

theorem Table.log (h : Table c) (he : e.InTable) : Table (c.log e) :=
  ⟨h.aligned, forall_mem_cons.mpr ⟨he, h.reads⟩⟩

theorem Table.failed (h : Table c) : Table (c.failed f) :=
  Table.enter ⟨h.aligned.reset,
    forall_mem_cons.mpr ⟨trivial, forall_mem_cons.mpr ⟨trivial, h.reads⟩⟩⟩

theorem Send.reads (h : Send o t o' t') (ht : ∀ e ∈ t, e.InTable) : ∀ e ∈ t', e.InTable := by
  cases h with
  | accepted | blocked | refused => exact forall_mem_cons.mpr ⟨trivial, ht⟩
  | drained | compacted => exact ht

theorem Prelude.table (h : Prelude who c b) (ht : Table c) : Table b := by
  cases h with
  | start =>
    exact ⟨ht.aligned.reset, forall_mem_cons.mpr ⟨trivial, forall_mem_cons.mpr ⟨trivial, ht.reads⟩⟩⟩
  | retry =>
    exact ⟨ht.aligned, forall_mem_cons.mpr ⟨trivial, forall_mem_cons.mpr ⟨trivial, ht.reads⟩⟩⟩
  | resolved => exact ⟨ht.aligned, ht.reads⟩

theorem Pump.table (h : Pump c c') (ht : Table c) : Table c' := by
  cases h with
  | idle => exact ht
  | subscribe _ _ hf =>
    exact ⟨⟨ht.aligned.sent_le, ht.aligned.count, fun _ => ⟨rfl, hf⟩⟩,
      forall_mem_cons.mpr ⟨trivial, forall_mem_cons.mpr ⟨hf, ht.reads⟩⟩⟩
  | noRoom _ _ hf =>
    exact ⟨ht.aligned, forall_mem_cons.mpr ⟨trivial, forall_mem_cons.mpr ⟨hf, ht.reads⟩⟩⟩

theorem Goodbye.reads (h : Goodbye c t) (ht : ∀ e ∈ c.trace, e.InTable) : ∀ e ∈ t, e.InTable := by
  cases h with
  | silent => exact ht
  | said => exact forall_mem_cons.mpr ⟨trivial, forall_mem_cons.mpr ⟨trivial, ht⟩⟩

def Event.straySuback : Event → Bool
  | .suback 0 0 _ => true
  | _ => false

def NoStraySuback (t : List Event) : Prop := ∀ e ∈ t, e.straySuback = false

theorem noStraySuback_lasting : Lasting NoStraySuback := lasting_mem _

theorem Table.answered (h : Table c) (hflight : c.subscribeId ≠ 0) (code : UInt8) :
    Table (c.answered c.subscribeId code) := by
  obtain ⟨_, hlt⟩ := h.aligned.in_flight hflight
  refine ⟨⟨hlt, h.aligned.count, fun h => absurd rfl h⟩, ?_⟩
  have hsuback : ∀ e ∈ Event.suback c.subscribeId c.subscribeId code :: c.trace, e.InTable :=
    forall_mem_cons.mpr ⟨trivial, h.reads⟩
  refine forall_mem_cons.mpr ⟨trivial, ?_⟩
  split
  · exact forall_mem_cons.mpr ⟨hlt, hsuback⟩
  · exact hsuback

theorem Table.act (ht : Table c) (ha : Act .reader c c')
    (hanswer : ∀ code, c.socket → Pump (c.answered c.subscribeId code) c' → c.subscribeId ≠ 0) :
    Table c' := by
  cases ha with
  | clock | moved => exact ⟨ht.aligned, ht.reads⟩
  | called client h =>
    have hclient : Aligned client.filters client.filterSent client.subscribeId := by
      have hc := ht.aligned
      rw [← h] at hc
      exact hc
    exact ht.log hclient
  | received | skipped | delivered | queued =>
    exact ⟨ht.aligned, forall_mem_cons.mpr ⟨trivial, ht.reads⟩⟩
  | send _ h => exact ⟨ht.aligned, h.reads ht.reads⟩
  | failed => exact ht.failed
  | connect h =>
    have hb := h.table ht
    exact Table.enter ⟨hb.aligned, forall_mem_cons.mpr ⟨trivial, hb.reads⟩⟩
  | lookUp h =>
    have hb := h.table ht
    exact Table.enter ⟨hb.aligned, hb.reads⟩
  | missed h => exact (h.table ht).failed
  | refused h _ _ f _ hb =>
    have hb := h.table ht
    exact Table.failed ⟨hb.aligned, forall_mem_cons.mpr ⟨trivial, hb.reads⟩⟩
  | secure | greet => exact Table.enter ⟨ht.aligned, ht.reads⟩
  | ignored => exact ht.log trivial
  | answered _ hs code h => exact h.table (ht.answered (hanswer code hs h) code)
  | addFilter filter _ _ _ hroom h => exact h.table ⟨ht.aligned.add filter hroom, ht.reads⟩
  | cleared =>
    exact ⟨⟨Nat.zero_le _, Nat.zero_le _, fun h => absurd rfl h⟩,
      forall_mem_cons.mpr ⟨trivial, ht.reads⟩⟩
  | stopped h hg =>
    exact Table.enter ⟨ht.aligned.reset, forall_mem_cons.mpr ⟨trivial, hg.reads ht.reads⟩⟩
  | shutdown => exact ⟨ht.aligned.reset, forall_mem_cons.mpr ⟨trivial, ht.reads⟩⟩

theorem answered_suback {c : Core} (h : Pump (c.answered c.subscribeId code) c') :
    .suback c.subscribeId c.subscribeId code :: c.trace <:+ c'.trace := by
  refine List.IsSuffix.trans ?_ h.grows
  unfold Core.answered
  split
  · exact suffix_append [_, _] _
  · exact suffix_cons _ _

theorem table_kept : Kept .reader NoStraySuback Table := by
  intro c _ _ ht ha hok
  refine ht.act ha ?_
  intro _ _ h h₀
  have hmem := (answered_suback h).subset mem_cons_self
  rw [h₀] at hmem
  cases hok _ hmem

theorem Table.accepted (h : Table c) : Table c.accepted := Table.enter ⟨h.aligned, h.reads⟩

theorem Moves.table (h : Moves c c') (hq : Quiet c) (ht : Table c) (hok : NoStraySuback c'.trace) :
    Table c' := by
  refine h.keeps noStraySuback_lasting table_kept ?_ ?_ hq ht hok
  · intro c c₁ _ hq ht hs _ hcalls _ hp hok
    have hc₁ : Table c₁ :=
      hcalls.steps.keeps noStraySuback_lasting table_kept (quiet_accepted hq hs)
      ht.accepted (noStraySuback_lasting ((suffix_cons _ _).trans hp.grows) hok)
    exact hp.table ⟨hc₁.aligned.reset, forall_mem_cons.mpr ⟨trivial, hc₁.reads⟩⟩
  · intro c _ hq ht hs _ hcalls _ hok
    exact hcalls.steps.keeps noStraySuback_lasting table_kept (quiet_accepted hq hs) ht.accepted hok

/-- If no SUBACK with packet id 0 comes while nothing is in flight, the place in the filter table
stays in it, the SUBSCRIBE in flight is for it, and no access goes past the filters held. -/
theorem run_filters_in_table (depth : Nat) (hasLoop : Bool) (world : World) (ops : List Op)
    (hok : ∀ e ∈ (run (callback depth) (boot hasLoop world) ops).trace, e.straySuback = false) :
    let s := run (callback depth) (boot hasLoop world) ops
    Aligned s.client.filters s.client.filterSent s.client.subscribeId ∧
    (∀ client, Event.called client ∈ s.trace →
      Aligned client.filters client.filterSent client.subscribeId) ∧
    (∀ index count, Event.filterRead index count ∈ s.trace → index < count) := by
  have hboot : Table (boot hasLoop world).core :=
    ⟨⟨Nat.zero_le _, Nat.zero_le _, fun h => absurd rfl h⟩, forall_mem_nil _⟩
  have hmoves := run_boot_moves depth hasLoop world ops
  generalize run (callback depth) (boot hasLoop world) ops = s at hmoves hok ⊢
  have ht : Table s.core := hmoves.table (boot_quiet hasLoop world) hboot hok
  refine ⟨ht.aligned, ?_, ?_⟩
  · intro _ hmem
    exact ht.reads _ hmem
  · intro _ _ hmem
    exact ht.reads _ hmem

/-- A client that has sent its first filter and awaits the answer. -/
theorem run_filters_in_table_awaiting :
    let s := run (callback 0)
      (boot true { reached with recvs := [.ok [0x20, 2, 0, 0]] })
      (opening false ++ [.call (.subscribe [97])])
    s.client.subscribeId = 1 ∧ Aligned s.client.filters s.client.filterSent s.client.subscribeId :=
  ⟨by decide, (run_filters_in_table 0 true _ _ (by decide)).1⟩

/-- The broker sends a SUBACK that refuses packet id 0: the client, which waits for none, takes it
for its own and reads past its table. -/
theorem stray_suback_leaves_table :
    let s := run (callback 0)
      (boot true { reached with recvs := [.ok [0x20, 2, 0, 0, 0x90, 3, 0, 0, 0x80]] })
      (opening false)
    s.client.filters.length < s.client.filterSent ∧ Event.filterRead 0 0 ∈ s.trace := by
  decide

end Inkwell.Mqtt
