import Inkwell.Io.UsbStorage

namespace Inkwell.UsbStorage
open Library List

def Child.reached (c : Child) : Nat :=
  match c.phase with
  | .reporting => c.offset
  | _ => c.offset + c.sent

/-- The device has the image up to where the child is, and up to the last whole chunk for good. -/
structure Child.Sound (c : Child) : Prop where
  offset : c.offset ≤ c.len
  synced : c.synced = c.offset
  device : c.device = c.image.bytes.take c.reached
  writing : c.phase = .writing → c.sent < c.chunk
  syncing : c.phase = .syncing → c.sent = c.chunk
  whole : c.exited = some (.exit 0) → c.offset = c.len ∧ c.phase = .reporting

theorem Child.chunk_le (c : Child) : c.chunk ≤ c.len - c.offset := by
  unfold Child.chunk
  split
  · rename_i hlong
    exact hlong.le
  · exact le_rfl

theorem Child.chunk_pos {c : Child} (h : c.offset < c.len) : 0 < c.chunk := by
  unfold Child.chunk
  split
  · decide
  · exact Nat.sub_pos_of_lt h

def lines (counts : List Nat) : Bytes := counts.flatMap Child.line

theorem lines_append : lines (counts ++ counts') = lines counts ++ lines counts' := flatMap_append

structure Child.Grows (c c' : Child) : Prop where
  image : c'.image = c.image
  reaps : c'.reaps = c.reaps
  sound : c'.Sound
  synced : c.synced ≤ c'.synced
  pipe : ∃ counts, c'.pipe = c.pipe ++ lines counts ∧ ∀ k ∈ counts, k ≤ c'.synced
  gone : c.exited.isSome → c' = c

theorem Child.Grows.rfl {c : Child} (h : c.Sound) : c.Grows c :=
  ⟨.refl _, .refl _, h, le_rfl, ⟨[], by simp [lines], nofun⟩, fun _ => .refl _⟩

section Act
variable {c : Child}

theorem Child.Grows.silent (hc : c.exited = none) (himage : c'.image = c.image)
    (hreaps : c'.reaps = c.reaps) (hsound : c'.Sound) (hsynced : c.synced ≤ c'.synced)
    (hpipe : c'.pipe = c.pipe) : c.Grows c' :=
  ⟨himage, hreaps, hsound, hsynced, ⟨[], by simp [lines, hpipe], nofun⟩, fun hgone => by
    rw [hc] at hgone
    cases hgone⟩

theorem Child.exit_grows (h : c.Sound) (hc : c.exited = none) (hcode : code ≠ 0) :
    c.Grows (c.exit code) := by
  refine .silent hc rfl rfl ⟨h.offset, h.synced, h.device, h.writing, h.syncing, ?_⟩ le_rfl rfl
  intro hzero
  cases hzero
  exact absurd rfl hcode

theorem Child.writeSome_grows (h : c.Sound) (hc : c.exited = none) (hphase : c.phase = .writing) :
    c.Grows (c.writeSome n) := by
  have hreached : c.reached = c.offset + c.sent := by rw [Child.reached, hphase]
  have hdevice : c.device ++ (c.image.bytes.drop (c.offset + c.sent)).take
      (min (max n 1) (c.chunk - c.sent)) =
      c.image.bytes.take (c.offset + (c.sent + min (max n 1) (c.chunk - c.sent))) := by
    rw [h.device, hreached, ← add_assoc, ← take_add]
  unfold Child.writeSome Child.next
  simp only
  split
  · rename_i hmore
    refine .silent hc rfl rfl ⟨h.offset, h.synced, hdevice, fun _ => hmore, nofun, ?_⟩ le_rfl rfl
    intro hzero
    cases hc.symm.trans hzero
  · rename_i hall
    refine .silent hc rfl rfl ⟨h.offset, h.synced, hdevice, nofun, fun _ => ?_, ?_⟩ le_rfl rfl
    · have hlt := h.writing hphase
      have hall' : ¬ c.sent + min (max n 1) (c.chunk - c.sent) < c.chunk := hall
      have hgoal : c.sent + min (max n 1) (c.chunk - c.sent) = c.chunk := by omega
      exact hgoal
    · intro hzero
      cases hc.symm.trans hzero

theorem Child.sync_grows (h : c.Sound) (hc : c.exited = none) (hphase : c.phase = .syncing) :
    c.Grows c.sync := by
  have hsent := h.syncing hphase
  have hchunk := c.chunk_le
  have hoffset := h.offset
  have hreached : c.reached = c.offset + c.chunk := by rw [Child.reached, hphase, hsent]
  have hfits : c.offset + c.chunk ≤ c.image.bytes.length := by
    unfold Child.len at hchunk hoffset
    omega
  have hlength : c.device.length = c.offset + c.chunk := by
    rw [h.device, hreached, length_take, min_eq_left hfits]
  refine .silent hc rfl rfl ⟨hfits, hlength, ?_, nofun, nofun, ?_⟩ ?_ rfl
  · have hdevice := h.device
    rwa [hreached] at hdevice
  · intro hzero
    cases hc.symm.trans hzero
  · rw [h.synced]
    exact (Nat.le_add_right _ _).trans hlength.ge

theorem Child.again_sound (h : c.Sound) (hc : c.exited = none) (hphase : c.phase = .reporting) :
    c.again.Sound := by
  have hdevice : c.device = c.image.bytes.take c.offset := by
    have hdevice := h.device
    rwa [Child.reached, hphase] at hdevice
  unfold Child.again
  split
  · rename_i hmore
    refine ⟨h.offset, h.synced, hdevice, fun _ => Child.chunk_pos hmore, nofun, fun hzero => ?_⟩
    cases hc.symm.trans hzero
  · rename_i hall
    exact ⟨h.offset, h.synced, h.device, h.writing, h.syncing,
      fun _ => ⟨le_antisymm h.offset (le_of_not_gt hall), hphase⟩⟩

theorem Child.again_eq : c.again.image = c.image ∧ c.again.reaps = c.reaps ∧
    c.again.synced = c.synced ∧ c.again.pipe = c.pipe := by
  unfold Child.again
  split <;> exact ⟨rfl, rfl, rfl, rfl⟩

theorem Child.again_grows (h : c.Sound) (hc : c.exited = none) (hphase : c.phase = .reporting) :
    c.Grows c.again := by
  obtain ⟨himage, hreaps, hsynced, hpipe⟩ := c.again_eq
  exact .silent hc himage hreaps (Child.again_sound h hc hphase) hsynced.ge hpipe

theorem Child.report_grows (h : c.Sound) (hc : c.exited = none) (hphase : c.phase = .reporting) :
    c.Grows c.report := by
  have htold : { c with pipe := c.pipe ++ Child.line c.offset }.Sound :=
    ⟨h.offset, h.synced, h.device, h.writing, h.syncing, h.whole⟩
  obtain ⟨himage, hreaps, hsynced, hpipe⟩ :=
    { c with pipe := c.pipe ++ Child.line c.offset }.again_eq
  refine ⟨himage, hreaps, Child.again_sound htold hc hphase, hsynced.ge, ⟨[c.offset], ?_, ?_⟩, ?_⟩
  · rw [Child.report, hpipe, lines, flatMap_singleton]
  · intro k hk
    rw [mem_singleton.mp hk, Child.report, hsynced]
    exact h.synced.ge
  · intro hgone
    rw [hc] at hgone
    cases hgone

theorem Child.act_grows (h : c.Sound) (a : ChildAct) : c.Grows (c.act a) := by
  unfold Child.act
  split
  · exact .rfl h
  · rename_i hrunning
    have hc : c.exited = none := by simpa using hrunning
    cases a with
    | die =>
      refine .silent hc rfl rfl ⟨h.offset, h.synced, h.device, h.writing, h.syncing, ?_⟩ le_rfl rfl
      exact nofun
    | call =>
      simp only [Child.call]
      split
      · exact Child.writeSome_grows h hc ‹_›
      · exact .rfl h
      · exact Child.exit_grows h hc (by decide)
      · exact Child.sync_grows h hc ‹_›
      · exact Child.exit_grows h hc (by decide)
      · exact Child.report_grows h hc ‹_›
      · exact Child.again_grows h hc ‹_›

end Act

theorem isDigit_newline : isDigit newline = false := rfl

theorem newline_not_mem_decimal : newline ∉ decimal k := by
  intro hmem
  cases (isDigit_decimal k newline hmem).symm.trans isDigit_newline

theorem isSpace_of_isDigit (h : isDigit c) : isSpace c = false ∧ c ≠ 45 ∧ c ≠ 43 := by
  simp only [isDigit, Bool.and_eq_true, decide_eq_true_eq, UInt8.le_iff_toNat_le] at h
  refine ⟨?_, ?_, ?_⟩
  · have hne : c ≠ 32 := by
      rintro rfl
      exact absurd h.1 (by decide)
    have hlarge : ¬ c ≤ 13 := fun hle =>
      absurd (h.1.trans (UInt8.le_iff_toNat_le.mp hle)) (by decide)
    simp [isSpace, hne, hlarge]
  · rintro rfl
    exact absurd h.1 (by decide)
  · rintro rfl
    exact absurd h.1 (by decide)

theorem strtoull_decimal (h : k < 2 ^ 64) : strtoull (decimal k) = some k := by
  have hall := isDigit_decimal k
  have hnumeral := numeral_decimal k
  have hne := decimal_ne_nil k
  generalize decimal k = text at hall hnumeral hne
  obtain ⟨c, rest, rfl⟩ := exists_cons_of_ne_nil hne
  obtain ⟨hspace, hminus, hplus⟩ := isSpace_of_isDigit (hall c mem_cons_self)
  have hdrop : (c :: rest).dropWhile isSpace = c :: rest := dropWhile_cons_of_neg (by simp [hspace])
  have htake : (c :: rest).takeWhile isDigit = c :: rest := takeWhile_eq_self_iff.mpr hall
  unfold strtoull
  simp only [hdrop]
  split
  · rename_i heq
    cases heq
    exact absurd rfl hminus
  · rename_i heq
    cases heq
    exact absurd rfl hplus
  · simp only [htake, hnumeral, isEmpty_cons, Bool.false_eq_true, if_false, if_neg (not_le.mpr h)]

/-- The bytes on their way make lines with numbers up to a bound, the first begun in what is
pending. -/
structure Stream (pending pipe : Bytes) (counts : List Nat) (bound : Nat) : Prop where
  text : pending ++ pipe = lines counts
  begun : newline ∉ pending
  upTo : ∀ k ∈ counts, k ≤ bound

theorem lines_cons : lines (k :: counts) = decimal k ++ newline :: lines counts := by
  rw [lines, flatMap_cons, Child.line, append_assoc]
  rfl

theorem append_eq_of_not_mem (hp : newline ∉ p)
    (h : p ++ q = d ++ newline :: r) : ∃ u, d = p ++ u ∧ q = u ++ newline :: r := by
  obtain ⟨u, hd, hq⟩ | ⟨u, hp', hr⟩ := append_eq_append_iff.mp h
  · exact ⟨u, hd, hq⟩
  · cases u with
    | nil =>
      rw [append_nil] at hp'
      exact ⟨[], by rw [hp', append_nil], hr.symm⟩
    | cons =>
      cases hr
      exact absurd (by rw [hp']; simp) hp

theorem Stream.cons (h : Stream pending (b :: pipe) counts bound) :
    ∃ k rest, counts = k :: rest := by
  cases counts with
  | nil =>
    have hlines := h.text
    cases append_eq_nil_iff.mp hlines |>.2
  | cons k rest => exact ⟨k, rest, rfl⟩

theorem Stream.byte (h : Stream pending (b :: pipe) counts bound) (hbound : bound < 2 ^ 64)
    (hb : b ≠ newline) :
    Stream (pending ++ [b]) pipe counts bound ∧ pending.length + 1 < pendingSize := by
  obtain ⟨k, rest, rfl⟩ := h.cons
  have hlines : pending ++ [b] ++ pipe = decimal k ++ newline :: lines rest := by
    rw [append_assoc, ← lines_cons]
    exact h.text
  have hbegun : newline ∉ pending ++ [b] := by
    intro hmem
    obtain hmem | hmem := mem_append.mp hmem
    · exact h.begun hmem
    · exact hb (mem_singleton.mp hmem).symm
  obtain ⟨_, hdecimal, -⟩ := append_eq_of_not_mem hbegun hlines
  have hk : k < 10 ^ (19 + 1) := ((h.upTo k mem_cons_self).trans_lt hbound).trans (by decide)
  have hlength := length_decimal hk
  rw [hdecimal, length_append, length_append, length_singleton] at hlength
  refine ⟨⟨hlines.trans lines_cons.symm, hbegun, h.upTo⟩, ?_⟩
  unfold pendingSize
  omega

theorem Stream.line_end (h : Stream pending (newline :: pipe) counts bound) :
    ∃ k rest, counts = k :: rest ∧ pending = decimal k ∧ k ≤ bound ∧ Stream [] pipe rest bound := by
  obtain ⟨k, rest, rfl⟩ := h.cons
  have hlines : pending ++ newline :: pipe = decimal k ++ newline :: lines rest := by
    rw [← lines_cons]
    exact h.text
  obtain ⟨u, hdecimal, hrest⟩ := append_eq_of_not_mem h.begun hlines
  cases u with
  | nil =>
    rw [append_nil] at hdecimal
    cases hrest
    exact ⟨k, rest, rfl, hdecimal.symm, h.upTo k mem_cons_self, rfl, nofun,
      fun k hk => h.upTo k (mem_cons_of_mem _ hk)⟩
  | cons =>
    cases hrest
    exact absurd (by rw [hdecimal]; simp) newline_not_mem_decimal

structure Writer.Reads (w w' : Writer) (bound : Nat) : Prop where
  same : w' = { w with
    pending := w'.pending, written := w'.written, idleDeadlineMs := w'.idleDeadlineMs }
  mono : w.written ≤ w'.written
  upTo : w'.written ≤ max w.written bound
  total : w.written ≤ w.total → w'.written ≤ w.total

theorem Writer.Reads.rfl {w : Writer} : w.Reads w bound := ⟨.refl _, le_rfl, le_max_left _ _, id⟩

theorem Writer.Reads.trans {w w' w'' : Writer} (h : w.Reads w' bound) (h' : w'.Reads w'' bound) :
    w.Reads w'' bound where
  same := by rw [h'.same, h.same]
  mono := h.mono.trans h'.mono
  upTo := h'.upTo.trans (max_le h.upTo (le_max_right _ _))
  total hle := by
    have htotal : w'.total = w.total := by rw [h.same]
    rw [← htotal]
    exact h'.total (htotal ▸ h.total hle)

theorem consumeByte_reads (h : Stream w.pending (b :: pipe) counts bound)
    (hbound : bound < 2 ^ 64) : w.Reads (consumeByte nowMs w b) bound ∧
      ∃ rest, Stream (consumeByte nowMs w b).pending pipe rest bound := by
  unfold consumeByte
  split
  · rename_i hb
    obtain ⟨hstream, hroom⟩ := h.byte hbound hb
    rw [if_pos hroom]
    exact ⟨⟨rfl, le_rfl, le_max_left _ _, id⟩, counts, hstream⟩
  · rename_i hb
    cases not_not.mp hb
    obtain ⟨_, rest, rfl, hpending, hk, hstream⟩ := h.line_end
    rw [hpending, strtoull_decimal (hk.trans_lt hbound)]
    simp only [Writer.report]
    split
    · rename_i hvalue
      exact ⟨⟨rfl, hvalue.2, hk.trans (le_max_right _ _), fun _ => hvalue.1⟩, rest, hstream⟩
    · exact ⟨⟨rfl, le_rfl, le_max_left _ _, id⟩, rest, hstream⟩

theorem consume_reads {w : Writer} (h : Stream w.pending (bytes ++ pipe) counts bound)
    (hbound : bound < 2 ^ 64) : w.Reads (consume nowMs w bytes) bound ∧
      ∃ rest, Stream (consume nowMs w bytes).pending pipe rest bound := by
  induction bytes generalizing w counts with
  | nil => exact ⟨.rfl, counts, h⟩
  | cons b _ ih =>
    obtain ⟨hreads, _, hstream⟩ := consumeByte_reads h hbound
    obtain ⟨hreads', hrest⟩ := ih hstream
    exact ⟨hreads.trans hreads', hrest⟩

end Inkwell.UsbStorage
