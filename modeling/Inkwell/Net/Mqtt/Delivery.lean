import Inkwell.Net.Mqtt.Consume

namespace Inkwell.Mqtt
open Net

theorem Inbox.receive (hi : Inbox c) (hs : c.socket) (hlive : Listening c) (bytes : Bytes) :
    Reading { c with input := c.input ++ bytes, trace := .read bytes :: c.trace } 0 := by
  obtain ⟨hopen, hmore⟩ := hi.opened hs
  have hon : c.state ≠ .off := by rcases hlive with h | h <;> rw [h] <;> decide
  have hfirst : ReadOpen (.read bytes :: c.trace) := by
    show (parse true (readBytes c.trace)).closed = none
    rw [hi.parsed]
    exact hopen
  refine ⟨Nat.zero_le _, hs, hlive, tails_cons_forall hi.reads hfirst, hopen, ?_,
    ⟨hi.counted.messages, hi.counted.passed⟩, hi.message hon⟩
  intro rest
  have hrest := hmore (bytes ++ rest)
  simp only [readBytes, List.append_assoc, Nat.zero_add]
  exact hrest

theorem receive_inbox {s : Sys} (hq : Quiet s.core) (hi : Fair s.trace → Inbox s.core)
    (hs : s.core.socket) (hl : Listening s.core) (bytes : Bytes)
    (hok : Fair (mqttConsume (callback 0) (s.receive bytes)).2.trace) :
    Inbox (mqttConsume (callback 0) (s.receive bytes)).2.core := by
  have hreceived : Act .reader s.core (s.receive bytes).core := .received rfl hs bytes
  have hq' := hreceived.quiet hq
  have hmoves := (consumeFrom_moves (callback_reenters 0)
    ((s.receive bytes).client.input.length + 1) 0 hq' hs).1
  have hbefore : Fair s.trace := fair_lasting (hreceived.grows.trans hmoves.grows) hok
  have hreading := (hi hbefore).receive hs hl bytes
  exact (consumeFrom_waiting hreading hq' (lt_add_one _) hok).1

theorem inbox_survives : Survives (callback 0) (fun c => Fair c.trace → Inbox c) where
  steps hq hi hsteps hok :=
    hsteps.keeps fair_lasting inbox_kept hq (hi (fair_lasting hsteps.grows hok)) hok
  read bytes hq hi hs hl hok := receive_inbox hq hi hs hl bytes hok

theorem boot_inbox : Inbox (boot hasLoop world).core :=
  ⟨List.forall_mem_singleton.mpr trivial, rfl, nofun, fun h => absurd rfl h, fun _ => ⟨rfl, rfl⟩,
    ⟨rfl, rfl⟩, fun h => absurd rfl h⟩

/-- However the bytes of a connection arrive, what is delivered and counted of them, and whether
and why they close it, is what a parse of the whole stream says; no bytes behind those that close
it are read, nor would have changed it. -/
theorem run_hears_reference (hasLoop : Bool) (world : World) (ops : List Op)
    (hmessage : ∀ e ∈ (run (callback 0) (boot hasLoop world) ops).trace, e ≠ .started false)
    (hwrites : ∀ e ∈ (run (callback 0) (boot hasLoop world) ops).trace, e.writeFailed = false)
    (htopics : ∀ u ∈ (run (callback 0) (boot hasLoop world) ops).trace.tails,
      ∀ d ∈ (parse true (readBytes u)).deliveries, 0 ∉ d.1) :
    let s := run (callback 0) (boot hasLoop world) ops
    let reference := parse true (readBytes s.trace)
    heard s.trace = reference ∧
    s.client.stats.received =
      (openedStats s.trace).received + UInt32.ofNat reference.deliveries.length ∧
    s.client.stats.skipped = (openedStats s.trace).skipped + UInt32.ofNat reference.skipped ∧
    (∀ u ∈ s.trace.tails, ReadOpen u) ∧
    (reference.closed ≠ none →
      s.client.socket = none ∧ ∀ rest, parse true (readBytes s.trace ++ rest) = reference) := by
  have hsurvives := inbox_survives.run (callback_reenters 0) ops (boot_quiet hasLoop world)
    (fun _ => boot_inbox)
  generalize run (callback 0) (boot hasLoop world) ops = s at *
  have hi : Inbox s.core := hsurvives ⟨hmessage, hwrites, htopics⟩
  have hparsed : parse true (readBytes s.trace) = heard s.trace := hi.parsed
  simp only [hparsed]
  refine ⟨trivial, hi.counted.messages, hi.counted.passed, hi.reads, ?_⟩
  intro hclosed
  refine ⟨?_, hi.closed hclosed⟩
  by_contra hsocket
  exact hclosed (hi.opened (Option.isSome_iff_ne_none.mpr hsocket)).1

/-- A message that arrives in pieces, and a packet no broker may send right behind it. -/
theorem run_hears_reference_pieces :
    let s := run (callback 0)
      (boot true { reached with
        recvs := [.ok [0x20, 2, 0], .ok [0, 0x30, 5, 0], .ok [1, 97, 104, 105, 0xC0],
          .ok [0, 0x30]] }) (opening true)
    heard s.trace = { deliveries := [([97], [104, 105])], closed := some (.protocol, 0) } ∧
      heard s.trace = parse true (readBytes s.trace) := by
  intro s
  exact ⟨by decide, (run_hears_reference true _ _ (by decide) (by decide) (by decide)).1⟩

end Inkwell.Mqtt
