import Inkwell.Net.Mqtt.Callback

namespace Inkwell.Mqtt
open Net List

def minus (a b : Nat) : Option Nat := if b ≤ a then some (a - b) else none

theorem minus_eq (h : b ≤ a) : minus a b = some (a - b) := if_pos h

/-- The end of `mqtt_consume`: what was read goes from the front of the buffer. -/
def compactChecked (s : Sys) (at_ : Nat) : Option (Bool × Sys) :=
  if at_ > 0 then (minus s.client.input.length at_).map fun _ => (true, compactIn s at_)
  else some (true, compactIn s at_)

/-- `mqtt_consume` from position `at_`, with no result where a size would be subtracted from a
smaller one. -/
def consumeChecked (cb : Sys → Sys) : (fuel at_ : Nat) → Sys → Option (Bool × Sys)
  | 0, at_, s => compactChecked s at_
  | fuel + 1, at_, s =>
    let c := s.client
    if c.skipRemaining > 0 then
      (minus c.input.length at_).bind fun left =>
        let chunk := if left > c.skipRemaining then c.skipRemaining else left
        (minus c.skipRemaining chunk).bind fun skip =>
          let s := { s with client := { c with skipRemaining := skip } }
          if s.client.skipRemaining > 0 then compactChecked s (at_ + chunk)
          else consumeChecked cb fuel (at_ + chunk) s
    else
      (minus c.input.length at_).bind fun left =>
        match decodeHeader ((c.input.drop at_).take left) with
        | .more => compactChecked s at_
        | .malformed => some (false, failOwn cb s .protocol 0)
        | .ok header =>
          (minus packetMax header.headerLen).bind fun room =>
            if header.remaining > room then
              let s := { s with client := { c with skipRemaining := header.remaining } }
              consumeChecked cb fuel (at_ + header.headerLen) s.countSkipped
            else if left < header.headerLen + header.remaining then compactChecked s at_
            else
              let body := (c.input.drop (at_ + header.headerLen)).take header.remaining
              match mqttHandle cb s header body with
              | (false, s) => some (false, s)
              | (true, s) =>
                if s.client.generation ≠ c.generation then some (false, s)
                else if s.client.socket.isNone then some (false, s)
                else consumeChecked cb fuel (at_ + (header.headerLen + header.remaining)) s

theorem compactChecked_eq (h : at_ ≤ s.client.input.length) :
    compactChecked s at_ = some (true, compactIn s at_) := by
  unfold compactChecked
  rw [minus_eq h]
  split <;> rfl

theorem handled_same_buffer (hcb : Reenters cb) (hq : Quiet s.core) (hs : s.core.socket)
    (h : mqttHandle cb s header body = (true, s'))
    (hg : ¬ s'.client.generation ≠ s.client.generation)
    (hsome : ¬ s'.client.socket.isNone) : s'.client.input = s.client.input := by
  exact (handled_buffer hcb hq hs h).same (not_not.mp hg) (socket_held hsome)

/-- From a position within the buffer no subtraction wraps around, whatever the callbacks do. -/
theorem consumeChecked_eq (hcb : Reenters cb) (fuel at_ : Nat) (hq : Quiet s.core)
    (hs : s.core.socket) (hat : at_ ≤ s.client.input.length) :
    consumeChecked cb fuel at_ s = some (consumeFrom cb fuel at_ s) := by
  induction fuel generalizing at_ s with
  | zero => exact compactChecked_eq hat
  | succ _ ih =>
    rw [consumeChecked, consumeFrom]
    simp only [minus_eq hat, Option.bind_some]
    split
    · -- the bytes of an oversized packet: no more than are there, and no more than are to go
      have hchunk : (if s.client.input.length - at_ > s.client.skipRemaining then
          s.client.skipRemaining else s.client.input.length - at_) =
          min (s.client.input.length - at_) s.client.skipRemaining := by
        split <;> omega
      rw [hchunk]
      generalize hn : min (s.client.input.length - at_) s.client.skipRemaining = n
      have hskip : n ≤ s.client.skipRemaining := by omega
      have hend : at_ + n ≤ s.client.input.length := by omega
      simp only [minus_eq hskip, Option.bind_some]
      split
      · exact compactChecked_eq hend
      · exact ih (at_ + n) (quiet_skip hq hs) hs hend
    · have htake : (s.client.input.drop at_).take (s.client.input.length - at_) =
          s.client.input.drop at_ := by
        apply take_of_length_le
        rw [length_drop]
      rw [htake]
      cases hheader : decodeHeader (s.client.input.drop at_) with
      | more => exact compactChecked_eq hat
      | malformed => rfl
      | ok header =>
        obtain ⟨_, hfive, hlen⟩ := decodeHeader_bounds hheader
        rw [length_drop] at hlen
        have hroom : header.headerLen ≤ packetMax := le_trans hfive (by decide)
        simp only [minus_eq hroom, Option.bind_some]
        split
        · have hend : at_ + header.headerLen ≤ s.client.input.length := by omega
          exact ih _ (quiet_countSkipped (quiet_skip hq hs) hs) hs hend
        · split
          · exact compactChecked_eq hat
          · generalize hhandle : mqttHandle cb s header
              ((s.client.input.drop (at_ + header.headerLen)).take header.remaining) = w
            obtain ⟨_ | _, s'⟩ := w
            · rfl
            simp only
            split
            · rfl
            rename_i hsame
            split
            · rfl
            rename_i hsome
            have hinput := handled_same_buffer hcb hq hs hhandle hsame hsome
            have hquiet := (handled_moves hcb hq hs hhandle).quiet hq
            have hend : at_ + (header.headerLen + header.remaining) ≤ s'.client.input.length := by
              rw [hinput]
              omega
            exact ih _ hquiet (socket_held hsome) hend

/-- Less than a whole buffer waits for more, and nothing while a packet is passed over. -/
structure Tidy (c : Core) : Prop where
  room : c.input.length < packetMax
  passed : 0 < c.skipRemaining → c.input = []
  idle : Idle c

theorem tidy_empty (hi : c.input = []) (hk : c.skipRemaining = 0) : Tidy c := by
  refine ⟨?_, ?_, fun _ => ⟨hi, hk⟩⟩
  · rw [hi]
    decide
  · intro _
    exact hi

theorem Emptied.tidy (h : Emptied c) : Tidy c := tidy_empty h.1 h.2.1

theorem idle_of_socket (hs : c.socket) : Idle c := by
  intro hclosed
  rw [hs] at hclosed
  cases hclosed

theorem tidy_waiting (hs : s.core.socket) (hskip : ¬ s.client.skipRemaining > 0)
    (hroom : s.client.input.length - at_ < packetMax) : Tidy (compactIn s at_).core where
  room := by
    have hinput : (compactIn s at_).core.input = s.client.input.drop at_ := rfl
    rw [hinput, length_drop]
    exact hroom
  passed h := absurd h hskip
  idle := idle_of_socket hs

theorem consumeFrom_tidy (hcb : Reenters cb) (hq : Quiet s.core) (hs : s.core.socket)
    (hat : at_ ≤ s.client.input.length) (hfuel : s.client.input.length - at_ < fuel) :
    Tidy (consumeFrom cb fuel at_ s).2.core := by
  fun_induction consumeFrom cb fuel at_ s with
  | case1 => exact absurd hfuel (Nat.not_lt_zero _)
  | case2 _ at_ s c _ chunk s' hleft =>
    have hleft : c.skipRemaining - chunk > 0 := hleft
    have hdrop : c.input.drop (at_ + chunk) = [] := drop_eq_nil_of_le (by omega)
    have hinput : (compactIn s' (at_ + chunk)).core.input = [] := hdrop
    refine ⟨?_, fun _ => hinput, idle_of_socket hs⟩
    rw [hinput]
    decide
  | case3 fuel at_ s c _ chunk s' hleft ih =>
    have hleft : ¬ c.skipRemaining - chunk > 0 := hleft
    have hfuel : c.input.length - at_ < fuel + 1 := hfuel
    have hend : at_ + chunk ≤ c.input.length := by omega
    have hrest : c.input.length - (at_ + chunk) < fuel := by omega
    exact ih (quiet_skip hq hs) hs hend hrest
  | case4 _ at_ s c hskip hmore =>
    have hshort : ¬ 5 ≤ (c.input.drop at_).length := fun h => decodeHeader_ne_more h hmore
    rw [length_drop] at hshort
    have hroom : c.input.length - at_ < packetMax :=
      lt_of_lt_of_le (lt_of_not_ge hshort) (by decide)
    exact tidy_waiting hs hskip hroom
  | case5 =>
    have hrefusal : Refusal.protocol ≠ .none := by simp
    exact (failOwn_buffered hcb hq hs hrefusal).2.tidy
  | case6 fuel at_ s c _ header hheader _ s' ih =>
    obtain ⟨_, _, hlen⟩ := decodeHeader_bounds hheader
    rw [length_drop] at hlen
    have hfuel : c.input.length - at_ < fuel + 1 := hfuel
    have hend : at_ + header.headerLen ≤ c.input.length := by omega
    have hrest : c.input.length - (at_ + header.headerLen) < fuel := by omega
    exact ih (quiet_countSkipped (quiet_skip hq hs) hs) hs hend hrest
  | case7 _ at_ s c hskip _ hheader =>
    have hbounds := decodeHeader_bounds hheader
    have hmax : packetMax = 1024 := rfl
    have hroom : c.input.length - at_ < packetMax := by omega
    exact tidy_waiting hs hskip hroom
  | case8 _ _ s c _ _ _ _ _ _ _ hhandle => exact ((handled_buffer hcb hq hs hhandle).gone rfl).tidy
  | case9 _ _ s c _ _ _ _ _ _ _ hhandle hnew =>
    exact ((handled_buffer hcb hq hs hhandle).ended hs (.inl hnew)).tidy
  | case10 _ _ s c _ _ _ _ _ _ _ hhandle _ hgone =>
    exact ((handled_buffer hcb hq hs hhandle).ended hs (.inr (socket_gone hgone))).tidy
  | case11 fuel at_ s c _ _ hheader _ _ _ s' hhandle hsame hsome ih =>
    have hbounds := decodeHeader_bounds hheader
    have hquiet := (handled_moves hcb hq hs hhandle).quiet hq
    have hinput : s'.client.input = c.input := handled_same_buffer hcb hq hs hhandle hsame hsome
    have hfuel : c.input.length - at_ < fuel + 1 := hfuel
    refine ih hquiet (socket_held hsome) ?_ ?_
    · rw [hinput]
      omega
    · rw [hinput]
      omega

theorem mqttConsume_tidy (hcb : Reenters cb) (hq : Quiet s.core) (hs : s.core.socket) :
    Tidy (mqttConsume cb s).2.core :=
  consumeFrom_tidy hcb hq hs (Nat.zero_le _) (Nat.lt_succ_self _)

theorem Tidy.buffered (ht : Tidy c) (h : Buffered who c c') : Tidy c' := by
  have hidle := h.idle ht.idle
  cases h with
  | kept hi hk =>
    refine ⟨?_, ?_, hidle⟩
    · rw [hi]
      exact ht.room
    · rw [hi, hk]
      exact ht.passed
  | emptied hi hk => exact tidy_empty hi hk

theorem tidy_survives (hcb : Reenters cb) : Survives cb Tidy where
  steps hq ht hsteps := hsteps.keeps_buffered hq (·.idle) ht (fun ht hb => ht.buffered hb)
  read _ hq _ hs _ := mqttConsume_tidy hcb (quiet_receive hq hs) hs

/-- Whatever the callbacks do, the inbound buffer has room between calls and is empty while a
packet is passed over; and a pass of the loop over any bytes subtracts no size from a smaller one.
-/
theorem run_consume_bounded (depth : Nat) (hasLoop : Bool) (world : World) (ops : List Op) :
    (let s := run (callback depth) (boot hasLoop world) ops
     s.client.input.length < 1024 ∧ (0 < s.client.skipRemaining → s.client.input = [])) ∧
    ∀ s : Sys, Moves (boot hasLoop world).core s.core → s.client.socket.isSome →
      consumeChecked (callback depth) (s.client.input.length + 1) 0 s =
        some (mqttConsume (callback depth) s) ∧
      ((mqttConsume (callback depth) s).1 →
        (mqttConsume (callback depth) s).2.client.input.length < 1024 ∧
        (0 < (mqttConsume (callback depth) s).2.client.skipRemaining →
          (mqttConsume (callback depth) s).2.client.input = [])) := by
  have hboot := boot_quiet hasLoop world
  have hcb := callback_reenters depth
  refine ⟨?_, ?_⟩
  · have htidy := (tidy_survives hcb).run hcb ops hboot (tidy_empty rfl rfl)
    exact ⟨htidy.room, htidy.passed⟩
  · intro s hmoves hs
    have hq := hmoves.quiet hboot
    have htidy := mqttConsume_tidy hcb hq hs
    exact ⟨consumeChecked_eq hcb _ 0 hq hs (Nat.zero_le _), fun _ => ⟨htidy.room, htidy.passed⟩⟩

end Inkwell.Mqtt
