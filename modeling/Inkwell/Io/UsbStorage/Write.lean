import Inkwell.Io.UsbStorage.Progress

namespace Inkwell.UsbStorage
open Library

structure Child.Later (c c' : Child) : Prop where
  image : c'.image = c.image
  reaps : c'.reaps = c.reaps
  sound : c'.Sound
  synced : c.synced ≤ c'.synced
  exited : ∀ status, c.exited = some status → c'.exited = some status

theorem Child.Later.rfl {c : Child} (h : c.Sound) : c.Later c :=
  ⟨.refl _, .refl _, h, le_rfl, fun _ => id⟩

theorem Child.Later.trans {c c' c'' : Child} (h : c.Later c') (h' : c'.Later c'') : c.Later c'' :=
  ⟨h'.image.trans h.image, h'.reaps.trans h.reaps, h'.sound, h.synced.trans h'.synced,
    fun status hs => h'.exited status (h.exited status hs)⟩

theorem Child.Grows.later {c c' : Child} (h : c.Grows c') : c.Later c' where
  image := h.image
  reaps := h.reaps
  sound := h.sound
  synced := h.synced
  exited status hs := by
    rw [h.gone (by rw [hs]; exact Eq.refl _)]
    exact hs

theorem Child.Sound.synced_lt {c : Child} (h : c.Sound) : c.synced < 2 ^ 64 := by
  rw [h.synced]
  exact h.offset.trans_lt c.image.fits

section Site
variable {s t u : Site}

@[simp] theorem Site.setChild_same (s : Site) (n : Nat) (c : Child) :
    (s.setChild n c).children n = c := by
  simp [Site.setChild]

theorem Site.setChild_other (s : Site) (c : Child) (h : m ≠ n) :
    (s.setChild n c).children m = s.children m := by
  simp [Site.setChild, h]

structure Flow (s : Site) (n : Nat) : Prop where
  sound : ∀ m < s.forks, (s.children m).Sound
  known : n < s.forks
  stream : ∃ counts, Stream s.write.pending (s.children n).pipe counts (s.children n).synced

structure Drains (s t : Site) (n : Nat) : Prop where
  flow : Flow t n
  forks : t.forks = s.forks
  claims : t.claims = s.claims
  closes : t.closes = s.closes
  strays : t.strays = s.strays
  later : ∀ m < s.forks, (s.children m).Later (t.children m)
  write : s.write.Reads t.write (t.children n).synced

theorem Drains.rfl (h : Flow s n) : Drains s s n :=
  ⟨h, .refl _, .refl _, .refl _, .refl _, fun m hm => .rfl (h.sound m hm), .rfl⟩

theorem Writer.Reads.mono_bound {w w' : Writer} (h : w.Reads w' bound) (hle : bound ≤ bound') :
    w.Reads w' bound' :=
  ⟨h.same, h.mono, h.upTo.trans (max_le_max le_rfl hle), h.total⟩

theorem Drains.trans (h : Drains s t n) (h' : Drains t u n) : Drains s u n where
  flow := h'.flow
  forks := h'.forks.trans h.forks
  claims := h'.claims.trans h.claims
  closes := h'.closes.trans h.closes
  strays := h'.strays.trans h.strays
  later m hm := (h.later m hm).trans (h'.later m (h.forks ▸ hm))
  write := (h.write.mono_bound (h'.later n h.flow.known).synced).trans h'.write

theorem Site.act_drains (h : Flow s n) (a : Nat × ChildAct) : Drains s (s.act a) n := by
  unfold Site.act
  split
  · rename_i hknown
    have hgrows := Child.act_grows (h.sound a.1 hknown) a.2
    have hlater : ∀ m < s.forks, (s.children m).Later
        ((s.setChild a.1 ((s.children a.1).act a.2)).children m) := by
      intro m hm
      by_cases hne : m = a.1
      · subst hne
        rw [Site.setChild_same]
        exact hgrows.later
      · rw [Site.setChild_other _ _ hne]
        exact .rfl (h.sound m hm)
    refine ⟨⟨fun m hm => (hlater m hm).sound, h.known, ?_⟩, rfl, rfl, rfl, rfl, hlater, .rfl⟩
    obtain ⟨counts, hstream⟩ := h.stream
    by_cases hne : n = a.1
    · subst hne
      rw [Site.setChild_same]
      obtain ⟨counts', hpipe, hcounts⟩ := hgrows.pipe
      refine ⟨counts ++ counts', ?_, hstream.begun, fun k hk => ?_⟩
      · rw [hpipe, ← List.append_assoc, lines_append, ← hstream.text]
        rfl
      · obtain hk | hk := List.mem_append.mp hk
        · exact (hstream.upTo k hk).trans hgrows.synced
        · exact hcounts k hk
    · rw [Site.setChild_other _ _ hne]
      exact ⟨counts, hstream⟩
  · exact .rfl h

theorem Site.happen_drains (h : Flow s n) (acts : Acts) : Drains s (s.happen acts) n := by
  induction acts generalizing s with
  | nil => exact .rfl h
  | cons a _ ih =>
    have hact := Site.act_drains h a
    exact hact.trans (ih hact.flow)

theorem take_drains (h : Flow s n) : Drains s ((s.take n k).2.consume nowMs (s.take n k).1) n := by
  obtain ⟨counts, hstream⟩ := h.stream
  have hsound := h.sound n h.known
  have hbytes : Stream s.write.pending ((s.children n).pipe.take k ++ (s.children n).pipe.drop k)
      counts (s.children n).synced := by
    rw [List.take_append_drop]
    exact hstream
  obtain ⟨hreads, hrest⟩ := consume_reads hbytes hsound.synced_lt
  have hchild : ((s.take n k).2.consume nowMs (s.take n k).1).children n =
      { s.children n with pipe := (s.children n).pipe.drop k } := Site.setChild_same ..
  have hlater : ∀ m < s.forks, (s.children m).Later
      (((s.take n k).2.consume nowMs (s.take n k).1).children m) := by
    intro m hm
    by_cases hne : m = n
    · subst hne
      rw [hchild]
      exact ⟨rfl, rfl, ⟨hsound.offset, hsound.synced, hsound.device, hsound.writing, hsound.syncing,
        hsound.whole⟩, le_rfl, fun _ => id⟩
    · have hsame : ((s.take n k).2.consume nowMs (s.take n k).1).children m = s.children m :=
        Site.setChild_other _ _ hne
      rw [hsame]
      exact .rfl (h.sound m hm)
  refine ⟨⟨fun m hm => (hlater m hm).sound, h.known, ?_⟩, rfl, rfl, rfl, rfl, hlater, ?_⟩
  · rw [hchild]
    exact hrest
  · rw [hchild]
    exact hreads

theorem readOnce_drains (h : Flow s n) (nowMs : UInt64) (answer : ReadAnswer) :
    Drains s (readOnce nowMs n answer s).2 n := by
  cases answer with
  | eintr | error => exact .rfl h
  | upTo =>
    simp only [readOnce]
    split
    · exact .rfl h
    · exact take_drains h

theorem drainRest_drains (h : Flow s n) (nowMs : UInt64) (fuel : Nat) :
    Drains s (drainRest nowMs n fuel s).2 n := by
  induction fuel generalizing s with
  | zero => exact .rfl h
  | succ _ ih =>
    have hread := readOnce_drains h nowMs (.upTo readSize)
    rw [drainRest]
    generalize readOnce nowMs n (.upTo readSize) s = result at hread
    obtain ⟨_ | _, _⟩ := result
    · exact hread.trans (ih hread.flow)
    · exact hread

theorem Drains.future (h : Drains s t n) (reads : List (Acts × ReadAnswer)) :
    Drains s { t with reads } n :=
  ⟨⟨h.flow.sound, h.flow.known, h.flow.stream⟩, h.forks, h.claims, h.closes, h.strays,
    h.later, h.write⟩

theorem drainLoop_drains (h : Flow s n) : Drains s (drainLoop nowMs n reads s).2 n := by
  -- The answers are used up one by one; what is left after that is read to the end.
  induction reads generalizing s with
  | nil =>
    have hrest := (Drains.rfl h).future []
    exact hrest.trans (drainRest_drains hrest.flow nowMs _)
  | cons a reads ih =>
    obtain ⟨acts, answer⟩ := a
    have hacts := (Site.happen_drains h acts).future reads
    have hread := readOnce_drains hacts.flow nowMs answer
    rw [drainLoop]
    generalize readOnce nowMs n answer { s.happen acts with reads } = result at hread
    obtain ⟨_ | _, _⟩ := result
    · have hturn := hacts.trans hread
      exact hturn.trans (ih hturn.flow)
    · exact hacts.trans hread

theorem drain_drains (h : Flow s n) (hfd : s.write.progressFd = some n) (nowMs : UInt64) :
    Drains s (drain nowMs s).2 n := by
  unfold drain
  rw [hfd]
  exact drainLoop_drains h

theorem Site.atPoll_drains (h : Flow s n) : Drains s s.atPoll n := by
  have hd := Site.happen_drains h (s.polls.head?.getD [])
  exact ⟨⟨hd.flow.sound, hd.flow.known, hd.flow.stream⟩, hd.forks, hd.claims, hd.closes, hd.strays,
    hd.later, hd.write⟩

theorem Site.atKill_drains (h : Flow s n) : Drains s s.atKill n := by
  have hd := Site.happen_drains h (s.kills.head?.getD [])
  exact ⟨⟨hd.flow.sound, hd.flow.known, hd.flow.stream⟩, hd.forks, hd.claims, hd.closes, hd.strays,
    hd.later, hd.write⟩

structure Running (s : Site) (n : Nat) : Prop where
  state : s.write.state = .running
  last : s.forks = n + 1
  progressFd : s.write.progressFd = some n
  deviceFd : ∃ i < s.claims, s.write.deviceFd = some i
  reaps : (s.children n).reaps = 0
  stream : ∃ counts, Stream s.write.pending (s.children n).pipe counts (s.children n).synced

structure Last (s : Site) (n : Nat) : Prop where
  total : s.write.total = (s.children n).len
  synced : s.write.written ≤ (s.children n).synced
  whole : s.write.state = .done → (s.children n).exited = some (.exit 0)

structure Books (s : Site) : Prop where
  sound : ∀ m < s.forks, (s.children m).Sound
  reaped : ∀ m < s.forks, s.write.child ≠ some m →
    (s.children m).reaps = 1 ∧ (s.children m).exited.isSome
  closed : ∀ i < s.claims, s.closes i = if s.write.deviceFd = some i then 0 else 1
  unclaimed : ∀ i, s.claims ≤ i → s.closes i = 0
  strays : s.strays = 0
  bounded : s.write.written ≤ s.write.total
  idle : s.forks = 0 → s.write.state = .idle
  last : ∀ n, s.forks = n + 1 → Last s n
  work : match s.write.child with
    | none => s.write.state ≠ .running ∧ s.write.progressFd = none ∧ s.write.deviceFd = none
    | some n => Running s n

theorem Books.running (h : Books s) (hn : s.write.child = some n) : Running s n := by
  have hwork := h.work
  rw [hn] at hwork
  exact hwork

theorem Books.resting (h : Books s) (hn : s.write.child = none) :
    s.write.state ≠ .running ∧ s.write.progressFd = none ∧ s.write.deviceFd = none := by
  have hwork := h.work
  rw [hn] at hwork
  exact hwork

theorem Running.flow (hr : Running s n) (h : Books s) : Flow s n :=
  ⟨h.sound, hr.last ▸ Nat.lt_succ_self n, hr.stream⟩

theorem Drains.written (hd : Drains s t n) (hl : Last s n) (hn : n < s.forks) :
    t.write.written ≤ (t.children n).synced :=
  hd.write.upTo.trans (max_le (hl.synced.trans (hd.later n hn).synced) le_rfl)

theorem Child.Later.len_eq {c c' : Child} (h : c.Later c') : c'.len = c.len := by
  rw [Child.len, h.image, ← Child.len]

theorem Books.drained (h : Books s) (hn : s.write.child = some n) (hd : Drains s t n) :
    Books t := by
  have hr := h.running hn
  have hknown : n < s.forks := hr.last ▸ Nat.lt_succ_self n
  have hlast := h.last n hr.last
  have hsame := hd.write.same
  have hchild : t.write.child = some n := by rw [hsame]; exact hn
  have htotal : t.write.total = s.write.total := by rw [hsame]
  have hdevice : t.write.deviceFd = s.write.deviceFd := by rw [hsame]
  have hstate : t.write.state = .running := by rw [hsame]; exact hr.state
  have hforks : t.forks = n + 1 := hd.forks.trans hr.last
  refine ⟨hd.flow.sound, ?_, ?_, ?_, hd.strays.trans h.strays, ?_, ?_, ?_, ?_⟩
  · intro m hm hother
    rw [hd.forks] at hm
    have hold := h.reaped m hm fun heq => hother (hchild.trans (hn.symm.trans heq))
    obtain ⟨status, hstatus⟩ := Option.isSome_iff_exists.mp hold.2
    rw [(hd.later m hm).reaps, (hd.later m hm).exited status hstatus]
    exact ⟨hold.1, rfl⟩
  · rw [hd.claims, hd.closes, hdevice]
    exact h.closed
  · rw [hd.claims, hd.closes]
    exact h.unclaimed
  · rw [htotal]
    exact hd.write.total h.bounded
  · intro hzero
    cases hzero.symm.trans hforks
  · intro m hm
    obtain rfl : m = n := Nat.succ.inj (hm.symm.trans hforks)
    refine ⟨?_, hd.written hlast hknown, fun hdone => ?_⟩
    · rw [htotal, (hd.later m hknown).len_eq]
      exact hlast.total
    · cases hstate.symm.trans hdone
  · rw [hchild]
    refine ⟨hstate, hforks, ?_, ?_, ?_, hd.flow.stream⟩
    · rw [hsame]
      exact hr.progressFd
    · rw [hdevice, hd.claims]
      exact hr.deviceFd
    · rw [(hd.later n hknown).reaps]
      exact hr.reaps

end Site

end Inkwell.UsbStorage
