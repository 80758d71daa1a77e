import Inkwell.Net.Fetch.Desk
import Inkwell.Net.ZipFetch.Machine

namespace Inkwell.ZipFetch
open List hiding zip
open Net Http Zip Fetch

def Foreign : ApiCall → Prop
  | .start request _ => request.onDone ≠ some zipCallback
  | _ => True

/-- Start or cancel the download, use the fetcher for something else, or see to its own affairs
and files. -/
inductive HostCall (τ : Type)
  | start (request : ZipRequest)
  | cancel
  | fetcher (c : ApiCall) (foreign : Foreign c)
  | own (user : τ) (files : Bytes → Option Bytes)

def hostCall (s : System τ) : HostCall τ → System τ
  | .start request => (zipFetchStart s request).2
  | .cancel => zipFetchCancel s
  | .fetcher c _ => apiCall s c
  | .own user files => { s with app := { s.app with user }, files }

def HostStep (s s' : System τ) : Prop := ∃ c, s' = hostCall s c

structure Customer (τ : Type) where
  done : Nat → System τ → System τ
  fetched : Nat → Result → System τ → System τ
  done_steps : ∀ id s, Relation.ReflTransGen HostStep s (done id s)
  fetched_steps : ∀ id result s, Relation.ReflTransGen HostStep s (fetched id result s)

def Customer.run (customer : Customer τ) (id : Nat) (result : Result) (s : System τ) : System τ :=
  if id = zipCallback then zipOnFetch customer.done result s else customer.fetched id result s

inductive HostOp (τ : Type)
  | call (c : HostCall τ)
  | zipTick (nowMs : Nat)
  | tick (nowMs : Nat)
  | socketEvent (events : Runtime.Mask)
  | lookupEvent

def hostStep (customer : Customer τ) (s : System τ) : HostOp τ → System τ
  | .call c => hostCall s c
  | .zipTick _ => zipFetchTick customer.done s
  | .tick nowMs => fetchTick customer.run s nowMs
  | .socketEvent events => fetchOnFd customer.run s events
  | .lookupEvent => resolveTryFinish customer.run s

def hostRun (customer : Customer τ) (s : System τ) (ops : List (HostOp τ)) : System τ :=
  ops.foldl (hostStep customer) s

theorem hostRun_cons :
    hostRun customer s (op :: ops) = hostRun customer (hostStep customer s op) ops := rfl

def hostBoot (hasLoop : Bool) (world : World) (around : Surroundings)
    (files : Bytes → Option Bytes) (user : τ) : System τ :=
  Fetch.boot hasLoop world files { around, user }

structure Surroundings.Spends (a b : Surroundings) : Prop where
  removes : b.removes <:+ a.removes
  crc32 : b.crc32 = a.crc32

theorem Surroundings.Spends.refl (a : Surroundings) : a.Spends a := ⟨suffix_rfl, rfl⟩

theorem Surroundings.Spends.trans {a b c : Surroundings} (h : a.Spends b) (h' : b.Spends c) :
    a.Spends c :=
  ⟨h'.removes.trans h.removes, h'.crc32.trans h.crc32⟩

def Aside (s s' : System τ) : Prop :=
  ∃ around files, s.app.around.Spends around ∧ s' = { s with app := { s.app with around }, files }

def Surroundings.Removes (around : Surroundings) : Prop := ∀ removed ∈ around.removes, removed

/-- Some staged files are removed, if removals succeed, and no other file is touched. -/
structure Sweeps (names : List Staged) (s s' : System τ) : Prop where
  aside : Aside s s'
  gone : s.app.around.Removes → ∀ name ∈ names, ∀ path, zipPath s.app.zip name = some path →
    s'.files path = none
  rest : ∀ path, (∀ name ∈ names, zipPath s.app.zip name ≠ some path) → s'.files path = s.files path

section Aside
variable {s s' s'' : System τ}

theorem Aside.refl : Aside s s := ⟨_, _, .refl _, rfl⟩

theorem Aside.trans (h : Aside s s') (h' : Aside s' s'') : Aside s s'' := by
  obtain ⟨_, _, hspends, rfl⟩ := h
  obtain ⟨_, _, hspends', rfl⟩ := h'
  exact ⟨_, _, hspends.trans hspends', rfl⟩

theorem Surroundings.Removes.spends {a b : Surroundings} (h : a.Removes) (hs : a.Spends b) :
    b.Removes :=
  fun removed hmem => h removed (hs.removes.subset hmem)

theorem Sweeps.trans {names names' : List Staged} (h : Sweeps names s s')
    (h' : Sweeps names' s' s'') : Sweeps (names ++ names') s s'' := by
  obtain ⟨_, _, hspends, rfl⟩ := h.aside
  refine ⟨h.aside.trans h'.aside, ?_, ?_⟩
  · intro hremoves name hname path hpath
    by_cases hagain : ∃ name ∈ names', zipPath s.app.zip name = some path
    · obtain ⟨name', hname', hpath'⟩ := hagain
      exact h'.gone (hremoves.spends hspends) name' hname' path hpath'
    · have hother : ∀ name ∈ names', zipPath s.app.zip name ≠ some path :=
        fun name' hname' hpath' => hagain ⟨name', hname', hpath'⟩
      rw [h'.rest path hother]
      rcases mem_append.mp hname with hfirst | hsecond
      · exact h.gone hremoves name hfirst path hpath
      · exact absurd hpath (hother name hsecond)
  · intro path hpath
    rw [h'.rest path fun name hname => hpath name (mem_append_right _ hname)]
    exact h.rest path fun name hname => hpath name (mem_append_left _ hname)

theorem zipRemove_sweeps (name : Staged) : Sweeps [name] s (zipRemove name s) := by
  have hspends : ∀ rest, rest = s.app.around.removes.tail →
      s.app.around.Spends { s.app.around with removes := rest } := by
    rintro _ rfl
    exact ⟨tail_suffix _, rfl⟩
  unfold zipRemove
  split
  · rename_i hnone
    refine ⟨.refl, ?_, fun _ _ => rfl⟩
    intro _ _ hname' _ hpath
    cases mem_singleton.mp hname'
    cases hnone.symm.trans hpath
  rename_i hsome
  simp only
  split
  · refine ⟨⟨_, _, hspends _ rfl, rfl⟩, ?_, ?_⟩
    · intro _ _ hname' _ hpath'
      cases mem_singleton.mp hname'
      cases hsome.symm.trans hpath'
      exact if_pos rfl
    · intro _ hpath'
      apply if_neg
      rintro rfl
      exact hpath' name mem_cons_self hsome
  · rename_i hkept
    refine ⟨⟨_, _, hspends _ rfl, rfl⟩, ?_, fun _ _ => rfl⟩
    intro hremoves
    exfalso
    apply hkept
    cases hlist : s.app.around.removes with
    | nil => rfl
    | cons =>
      apply hremoves
      rw [hlist]
      exact mem_cons_self

theorem zipClean_sweeps (s : System τ) :
    Sweeps [.window, .central, .header, .member] s (zipClean s) :=
  (((zipRemove_sweeps .window).trans (zipRemove_sweeps .central)).trans
    (zipRemove_sweeps .header)).trans (zipRemove_sweeps .member)

theorem zipRead_aside (name : Staged) (s : System τ) : Aside s (zipRead name s).2 := by
  unfold zipRead
  split
  · exact .refl
  · exact .refl
  · have hspends : ∀ rest, s.app.around.Spends { s.app.around with reads := rest } :=
      fun _ => ⟨suffix_rfl, rfl⟩
    exact ⟨_, _, hspends _, rfl⟩

theorem zipTake_aside (name : Staged) (expected : Nat) (s : System τ) :
    Aside s (zipTake name expected s).2 ∧
      ∀ bytes, (zipTake name expected s).1 = .ok bytes → bytes.length = expected := by
  have hread := zipRead_aside name s
  unfold zipTake
  split
  · exact ⟨.refl, nofun⟩
  generalize zipRead name s = read at *
  obtain ⟨bytes, _⟩ := read
  cases bytes with
  | none => exact ⟨hread, nofun⟩
  | some =>
    simp only
    split
    · exact ⟨hread, nofun⟩
    · rename_i hlength
      refine ⟨hread, ?_⟩
      intro _ heq
      cases heq
      exact not_not.mp hlength

theorem zipWriteOutput_aside :
    Aside s (zipWriteOutput bytes s).2 ∧ ((zipWriteOutput bytes s).1 →
      ∃ path, zipPath s.app.zip .image = some path ∧
        (zipWriteOutput bytes s).2.files path = some bytes) := by
  unfold zipWriteOutput
  split
  · exact ⟨.refl, nofun⟩
  rename_i path hpath
  have hspends : ∀ rest, s.app.around.Spends { s.app.around with images := rest } :=
    fun _ => ⟨suffix_rfl, rfl⟩
  simp only
  split
  · exact ⟨⟨_, _, hspends _, rfl⟩, nofun⟩
  · exact ⟨⟨_, _, hspends _, rfl⟩, nofun⟩
  · refine ⟨⟨_, _, hspends _, rfl⟩, fun _ => ⟨path, hpath, ?_⟩⟩
    simp [appendFile, createFile]

theorem zipOutput_aside (member : Bytes) : Aside s (zipOutput member s).2 := by
  have hspends : ∀ rest, s.app.around.Spends { s.app.around with memory := rest } :=
    fun _ => ⟨suffix_rfl, rfl⟩
  unfold zipOutput
  split
  · exact .refl
  simp only
  split
  · exact ⟨_, _, hspends _, rfl⟩
  split <;> exact ⟨_, _, hspends _, rfl⟩

end Aside

inductive Directory (zip : Download) : Nat → Bytes → Nat → Prop
  | tail (hpass : zip.directoryOnly = false) (window : Bytes)
      (hwindow : window.length = zip.windowLen) (e : ZipEnd)
      (hend : findEnd window zip.windowOffset = some (some e))
      (hslice : centralSlice e window zip.windowOffset = some central) :
    Directory zip e.centralOffset central e.entries
  | apart (hpass : zip.directoryOnly) (hwindow : central.length = zip.windowLen) :
    Directory zip zip.centralOffset central zip.centralEntries

/-- The member a directory was searched for, once it has passed every check. -/
structure Chosen (zip : Download) (centralOffset : Nat) (entry : ZipEntry) : Prop where
  listed : ∃ central entries, Directory zip centralOffset central entries ∧
    findMember central entries zip.member = some (.found, entry)
  method : entry.method = methodDeflate ∨ entry.method = methodStore
  placed : centralOffset = 0 ∨ u64 (entry.localHeaderOffset + entry.compressedSize) ≤ centralOffset
  compressed : 0 < entry.compressedSize ∧ entry.compressedSize ≤ zip.maxMemberBytes
  uncompressed : 0 < entry.uncompressedSize ∧ entry.uncompressedSize ≤ zip.maxMemberBytes

def Download.dues (zip : Download) : Option Nat × Bool := (zip.onDone, zip.inflatePending)

/-- The range read a download goes on to when a fetch has ended, and what it has noted by then. -/
inductive Next (result : Result) (app : Host τ) : Step → Host τ → Prop
  | again (hout : result.outcome = .network ∨ result.outcome = .timedOut)
      (hretried : app.zip.retried = false) (step : Step) (hstep : app.zip.step = some step) :
    Next result app step { app with zip := { app.zip with retried := true } }
  | measured (hout : result.outcome = .ok) (hstate : app.zip.state = .measuring) (size : Nat)
      (hsize : fetchContentLength result.body = some size) (hleast : localHeaderSize ≤ size) :
    Next result app .window { app with zip := { app.zip with retried := false, zipSize := size } }
  | apart (hout : result.outcome = .ok) (hstate : app.zip.state = .reading)
      (hpass : app.zip.directoryOnly = false) (window : Bytes)
      (hwindow : window.length = app.zip.windowLen) (e : ZipEnd)
      (hend : findEnd window app.zip.windowOffset = some (some e))
      (hslice : centralSlice e window app.zip.windowOffset = none)
      (hsize : e.centralSize ≤ directoryMax) :
    Next result app .central { app with
      zip := { app.zip with
        retried := false, windowOffset := e.centralOffset, windowLen := e.centralSize
        centralOffset := e.centralOffset, centralEntries := e.entries }
      said := .apart e :: app.said }
  | chosen (hout : result.outcome = .ok) (hstate : app.zip.state = .reading) (centralOffset : Nat)
      (entry : ZipEntry) (hchosen : Chosen app.zip centralOffset entry) :
    Next result app .header { app with
      zip := { app.zip with retried := false, centralOffset, entry, located := true }
      said := .member app.zip.zipSize centralOffset entry :: app.said }
  | placed (hout : result.outcome = .ok) (hstate : app.zip.state = .locating) (header : Bytes)
      (hheader : header.length = localHeaderSize) (dataOffset : Nat)
      (hdata : localDataStart header app.zip.entry = some (some dataOffset)) :
    Next result app .member { app with
      zip := { app.zip with retried := false, dataOffset }
      said := .data app.zip.zipSize app.zip.entry (headerNameLen header) (headerExtraLen header) ::
        app.said }

inductive Turn (done : Nat → System τ → System τ) (result : Result) (s : System τ) : System τ → Prop
  | failed (zip : Download) (error : Error) (h : Aside (edit s fun _ => zip) s')
      (hsame : zip.dues = s.app.zip.dues) : Turn done result s (zipFail done error s')
  | next (step : Step) (h : Next result s.app step app) (haside : Aside { s with app } s') :
    Turn done result s (zipStep done step s')
  | landed (hout : result.outcome = .ok) (hstate : s.app.zip.state = .fetching) :
    Turn done result s (zipStepInflate (edit s ({ · with retried := false })))
  | ignored (hout : result.outcome = .ok) (hmeasuring : s.app.zip.state ≠ .measuring)
      (hreading : s.app.zip.state ≠ .reading) (hlocating : s.app.zip.state ≠ .locating)
      (hfetching : s.app.zip.state ≠ .fetching) :
    Turn done result s (edit s ({ · with retried := false }))

section Turn
variable {done : Nat → System τ → System τ} {result : Result} {s s' : System τ}

theorem Turn.fails (hspends : s.app.around.Spends around) (hsame : zip.dues = s.app.zip.dues) :
    Turn done result s (zipFail done error { s with app := { s.app with zip, around }, files }) :=
  .failed zip error ⟨around, files, hspends, rfl⟩ hsame

theorem zipSearch_turn (hout : result.outcome = .ok) (hstate : s.app.zip.state = .reading)
    (hdirectory : Directory s.app.zip centralOffset central entries)
    (h : Aside (edit s ({ · with retried := false, centralOffset })) s') :
    Turn done result s (zipSearch done central entries s') := by
  obtain ⟨around, files, hspends, rfl⟩ := h
  unfold zipSearch
  split
  · exact .fails hspends rfl
  rename_i search entry hfind
  simp only
  split
  · exact .fails hspends rfl
  split
  · exact .fails hspends rfl
  rename_i hfound
  split
  · exact .fails hspends rfl
  rename_i hmethod
  split
  · exact .fails hspends rfl
  rename_i hplaced
  split
  · exact .fails hspends rfl
  split
  · exact .fails hspends rfl
  rename_i hlarge
  have hfound : search = .found := not_not.mp hfound
  subst hfound
  have hchosen : Chosen s.app.zip centralOffset entry := by
    refine ⟨⟨central, entries, hdirectory, hfind⟩, ?_, ?_, ?_, ?_⟩
    · by_contra hother
      exact hmethod (not_or.mp hother)
    · by_contra hother
      rw [not_or, not_le] at hother
      exact hplaced hother
    · have hlarge : ¬ (entry.compressedSize > s.app.zip.maxMemberBytes ∨ _) := hlarge
      omega
    · have hlarge : ¬ (_ ∨ entry.uncompressedSize > s.app.zip.maxMemberBytes) := hlarge
      omega
  exact .next _ (.chosen hout hstate centralOffset entry hchosen) ⟨around, files, hspends, rfl⟩

theorem zipReadDirectory_turn (hout : result.outcome = .ok) (hstate : s.app.zip.state = .reading) :
    Turn done result s (zipReadDirectory done name s.app.zip.directoryOnly
      (edit s ({ · with retried := false }))) := by
  obtain ⟨haside, hlength⟩ := zipTake_aside name s.app.zip.windowLen
    (edit s ({ · with retried := false }))
  unfold zipReadDirectory
  have hexpected : (edit s ({ · with retried := false })).app.zip.windowLen = s.app.zip.windowLen :=
    rfl
  rw [hexpected]
  generalize zipTake name s.app.zip.windowLen (edit s ({ · with retried := false })) = taken at *
  obtain ⟨window, _⟩ := taken
  cases window with
  | error => exact .failed _ _ haside rfl
  | ok window =>
    have hwindow := hlength window rfl
    obtain ⟨around, files, hspends, hs'⟩ := haside
    subst hs'
    cases hpass : s.app.zip.directoryOnly with
    | true => exact zipSearch_turn hout hstate (.apart hpass hwindow) ⟨around, files, hspends, rfl⟩
    | false =>
      simp only [Bool.false_eq_true, if_false]
      split
      · exact .fails hspends rfl
      · exact .fails hspends rfl
      rename_i e hend
      split
      · rename_i hslice
        exact zipSearch_turn hout hstate (.tail hpass window hwindow e hend hslice)
          ⟨around, files, hspends, rfl⟩
      · rename_i hslice
        split
        · exact .fails hspends rfl
        · rename_i hsize
          exact .next _ (.apart hout hstate hpass window hwindow e hend hslice (le_of_not_gt hsize))
            ⟨around, files, hspends, rfl⟩

theorem zipReadHeader_turn (hout : result.outcome = .ok) (hstate : s.app.zip.state = .locating) :
    Turn done result s (zipReadHeader done (edit s ({ · with retried := false }))) := by
  obtain ⟨haside, hlength⟩ := zipTake_aside .header localHeaderSize
    (edit s ({ · with retried := false }))
  unfold zipReadHeader
  generalize zipTake .header localHeaderSize (edit s ({ · with retried := false })) = taken at *
  obtain ⟨header, _⟩ := taken
  cases header with
  | error => exact .failed _ _ haside rfl
  | ok header =>
    have hheader := hlength header rfl
    obtain ⟨around, files, hspends, hs'⟩ := haside
    subst hs'
    simp only
    split
    · exact .fails hspends rfl
    · exact .fails hspends rfl
    · rename_i dataOffset hdata
      exact .next _ (.placed hout hstate header hheader dataOffset hdata)
        ⟨around, files, hspends, rfl⟩

theorem zipOnFetch_turn (done : Nat → System τ → System τ) (result : Result) (s : System τ) :
    Turn done result s (zipOnFetch done result s) := by
  unfold zipOnFetch
  by_cases hout : result.outcome = .ok
  · rw [if_neg (not_not.mpr hout)]
    simp only
    split
    · rename_i hstate
      have hstate : s.app.zip.state = .measuring := hstate
      split
      · exact .failed _ _ (.refl) rfl
      · rename_i size hsize
        split
        · exact .failed _ _ (.refl) rfl
        · rename_i hleast
          exact .next _ (.measured hout hstate size hsize (le_of_not_gt hleast)) (.refl)
    · rename_i hstate
      exact zipReadDirectory_turn hout hstate
    · rename_i hstate
      exact zipReadHeader_turn hout hstate
    · rename_i hstate
      exact .landed hout hstate
    · rename_i hmeasuring hreading hlocating hfetching
      exact .ignored hout hmeasuring hreading hlocating hfetching
  · rw [if_pos hout]
    simp only
    split
    · rename_i step hstep
      split
      · rename_i hagain
        exact .next _ (.again hagain.1 (by simpa using hagain.2) step hstep) (.refl)
      · exact .failed s.app.zip _ (.refl) rfl
    · exact .failed s.app.zip _ (.refl) rfl

end Turn

theorem zipRange_begun (name : Staged) (first last timeoutMs : Nat) (s : System τ) :
    zipRange name first last timeoutMs s = (false, s) ∨
    ∃ around path nowMs refused, s.app.around.Spends around ∧ zipPath s.app.zip name = some path ∧
      (zipRange name first last timeoutMs s).1 = Option.isNone refused ∧
      Begun (rangeRequest s.app.zip path first last timeoutMs) nowMs
        { s.desk with app := { s.app with around } } refused
        (zipRange name first last timeoutMs s).2.desk := by
  unfold zipRange
  split
  · exact .inl rfl
  split
  · exact .inl rfl
  rename_i path hpath _
  right
  simp only
  generalize Net.next 0 s.app.around.clock = now
  have hbegun := fetchStart_begun (answer s { s.app.around with clock := now.2 })
    (rangeRequest s.app.zip path first last timeoutMs) now.1
  have hzip : (answer s { s.app.around with clock := now.2 }).app.zip = s.app.zip := rfl
  rw [hzip]
  generalize fetchStart (answer s { s.app.around with clock := now.2 })
    (rangeRequest s.app.zip path first last timeoutMs) now.1 = started at *
  obtain ⟨refused, _⟩ := started
  refine ⟨{ s.app.around with clock := now.2 }, path, now.1, refused, ⟨suffix_rfl, rfl⟩, hpath, ?_⟩
  cases refused <;> exact ⟨rfl, hbegun⟩

def Download.idle (zip : Download) : Download :=
  { zip with inflatePending := false, onDone := none, state := .idle }

def Download.closed (zip : Download) (state : State) (error : Error) : Download :=
  { zip with state, error, onDone := none }

/-- A download has ended: its files are cleared away, those of a failed one with the result. -/
inductive Closes (state : State) (error : Error) (d : Desk (Host τ)) : Desk (Host τ) → Prop
  | intro (around : Surroundings) (files : Bytes → Option Bytes)
      (hspends : d.app.around.Spends around)
      (hgone : d.app.around.Removes → ∀ name path, (name = .image → state = .failed) →
        zipPath d.app.zip name = some path → files path = none)
      (hrest : state ≠ .failed → ∀ path, zipPath d.app.zip .image = some path →
        files path = d.files path) :
    Closes state error d { d with
      app := { d.app with
        zip := d.app.zip.closed state error
        around
        deeds :=
          .ended d.app.zip.onDone (d.app.zip.closed state error) d.app.said files :: d.app.deeds }
      files }

theorem Staged.suffix_injective (h : Staged.suffix name = Staged.suffix name') : name = name' := by
  cases name <;> cases name' <;> first | rfl | exact absurd h (by decide)

theorem zipPath_injective (h : zipPath zip name = some path) (h' : zipPath zip name' = some path) :
    name = name' := by
  unfold zipPath at h h'
  simp only [Option.ite_none_right_eq_some, Option.some.injEq] at h h'
  exact Staged.suffix_injective (append_cancel_left (h.2.trans h'.2.symm))

theorem zipFinish_ends :
    ∃ app files, Closes state error s.desk ({ s with app, files } : System τ).desk ∧
      (zipFinish done state error s = { s with app, files } ∨
        ∃ id, zipFinish done state error s = done id { s with app, files }) := by
  have hclean := zipClean_sweeps (edit s ({ · with state, error }))
  have himage := hclean.trans (zipRemove_sweeps .image)
  unfold zipFinish
  simp only
  generalize hs' :
    (if state = .failed then zipRemove .image (zipClean (edit s ({ · with state, error })))
    else zipClean (edit s ({ · with state, error }))) = s'
  have hspent : Aside (edit s ({ · with state, error })) s' ∧
      (s.app.around.Removes → ∀ name path, (name = .image → state = .failed) →
        zipPath s.app.zip name = some path → s'.files path = none) ∧
      (state ≠ .failed → ∀ path, zipPath s.app.zip .image = some path →
        s'.files path = s.files path) := by
    split at hs'
    · rename_i hfailed
      subst hs'
      refine ⟨himage.aside, ?_, fun hother => absurd hfailed hother⟩
      intro hremoves name path _ hpath
      apply himage.gone hremoves name _ path hpath
      cases name <;> decide
    · rename_i hother
      subst hs'
      refine ⟨hclean.aside, ?_, ?_⟩
      · intro hremoves name path hname hpath
        apply hclean.gone hremoves name _ path hpath
        cases name with
        | image => exact absurd (hname rfl) hother
        | _ => decide
      · intro _ _ hpath
        apply hclean.rest
        intro _ hname hpath'
        cases zipPath_injective hpath hpath'
        revert hname
        decide
  obtain ⟨⟨around, files, hspends, rfl⟩, hgone, hrest⟩ := hspent
  refine ⟨_, files, .intro around files hspends hgone hrest, ?_⟩
  split
  · rename_i hdone
    have hdone : s.app.zip.onDone = none := hdone
    left
    simp only [record, edit, Download.closed, Sys.desk, hdone]
  · rename_i id hdone
    have hdone : s.app.zip.onDone = some id := hdone
    refine .inr ⟨id, ?_⟩
    simp only [record, edit, Download.closed, Sys.desk, hdone]

def Ready (app : Host τ) (files : Bytes → Option Bytes) : Prop :=
  ∃ path output, zipPath app.zip .image = some path ∧ files path = some output ∧
    output.length = app.zip.entry.uncompressedSize ∧
    app.around.crc32 output = some app.zip.entry.crc32

theorem zipInflate_ends (done : Nat → System τ → System τ) (s : System τ) :
    ∃ state error s', Aside s s' ∧ zipInflate done s = zipFinish done state error s' ∧
      (state = .failed ∨ state = .ready ∧ Ready s.app s'.files) := by
  have htake := (zipTake_aside .member s.app.zip.entry.compressedSize s).1
  unfold zipInflate
  generalize zipTake .member s.app.zip.entry.compressedSize s = taken at *
  obtain ⟨member, s₁⟩ := taken
  cases member with
  | error e => exact ⟨_, e, s₁, htake, rfl, .inl rfl⟩
  | ok member =>
    have houtput := htake.trans (zipOutput_aside member)
    simp only
    generalize zipOutput member s₁ = output at *
    obtain ⟨output, s₂⟩ := output
    cases output with
    | error e => exact ⟨_, e, s₂, houtput, rfl, .inl rfl⟩
    | ok output =>
      simp only
      split
      · exact ⟨_, _, s₂, houtput, rfl, .inl rfl⟩
      rename_i crc hcrc
      split
      · exact ⟨_, _, s₂, houtput, rfl, .inl rfl⟩
      rename_i hsame
      obtain ⟨haside, hwritten⟩ := zipWriteOutput_aside
      have hwrite := houtput.trans haside
      generalize zipWriteOutput output s₂ = written at *
      obtain ⟨stored, s₃⟩ := written
      cases stored with
      | false => exact ⟨_, _, s₃, hwrite, rfl, .inl rfl⟩
      | true =>
        obtain ⟨path, hpath, hfile⟩ := hwritten rfl
        obtain ⟨_, _, hspends, rfl⟩ := houtput
        obtain ⟨hlength, hvalue⟩ := not_or.mp hsame
        refine ⟨_, _, s₃, hwrite, rfl,
          .inr ⟨rfl, path, output, hpath, hfile, not_not.mp hlength, ?_⟩⟩
        have hvalue : crc = s.app.zip.entry.crc32 := not_not.mp hvalue
        rw [← hspends.crc32, hcrc, hvalue]

abbrev AppSteps (s s' : System τ) : Prop := Relation.ReflTransGen AppStep s s'

section Steps
variable {done : Nat → System τ → System τ} {s s' : System τ}

theorem edit_steps (s : System τ) (f : Download → Download) : AppSteps s (edit s f) :=
  .single (.own _ s.files)

theorem Aside.steps (h : Aside s s') : AppSteps s s' := by
  obtain ⟨_, files, _, rfl⟩ := h
  exact .single (.own _ files)

theorem fetchStart_steps_app (s : System τ) (request : Request) (nowMs : Nat) :
    AppSteps s (fetchStart s request nowMs).2 :=
  .single (.call (.start request nowMs))

theorem zipFetchStart_steps : AppSteps s (zipFetchStart s request).2 := by
  unfold zipFetchStart
  iterate 4
    split
    · exact .refl
  simp only
  generalize hs' : answer (edit s fun _ => request.zip) _ = s'
  have hown : AppSteps s s' := by
    subst hs'
    exact .single (.own _ s.files)
  have hstart := fetchStart_steps_app s' (headRequest request.zip) (Net.next 0 s.app.around.clock).1
  generalize fetchStart s' _ (Net.next 0 s.app.around.clock).1 = started at *
  obtain ⟨refused, s''⟩ := started
  cases refused with
  | none =>
    have hrecord : AppSteps s'' (record s'' (.started request.onDone)) := .single (.own _ s''.files)
    exact (hown.trans hstart).trans hrecord
  | some =>
    have hidle := edit_steps s'' ({ · with state := .idle, onDone := none })
    exact (hown.trans hstart).trans hidle

theorem zipFetchCancel_ends : ∃ around files, s.app.around.Spends around ∧
    (s.app.around.Removes → ∀ name path, zipPath s.app.zip name = some path → files path = none) ∧
    zipFetchCancel s = { (if s.app.zip.borrowed then fetchCancel s else s) with
      app := { s.app with
        zip := s.app.zip.idle
        around
        deeds := .cancelled s.app.zip.idle files :: s.app.deeds }
      files } := by
  have happ : (if s.app.zip.borrowed then fetchCancel s else s).app = s.app := by
    split
    · exact fetchCancel_app s
    · rfl
  unfold zipFetchCancel
  simp only
  generalize (if s.app.zip.borrowed then fetchCancel s else s) = s' at *
  have hsweeps := (zipClean_sweeps (edit s' ({ · with inflatePending := false }))).trans
    (zipRemove_sweeps .image)
  generalize zipRemove .image (zipClean (edit s' ({ · with inflatePending := false }))) = s'' at *
  obtain ⟨⟨around, files, hspends, rfl⟩, hgone, _⟩ := hsweeps
  rw [← happ]
  refine ⟨around, files, hspends, ?_, rfl⟩
  intro hremoves name path hpath
  apply hgone hremoves name _ path hpath
  cases name <;> decide

theorem zipFetchCancel_steps : AppSteps s (zipFetchCancel s) := by
  obtain ⟨_, files, _, _, heq⟩ := zipFetchCancel_ends
  have hcancel : AppSteps s (if s.app.zip.borrowed then fetchCancel s else s) := by
    split
    · exact .single (.call .cancel)
    · exact .refl
  rw [heq]
  exact hcancel.trans (.single (.own _ files))

theorem HostStep.steps (h : HostStep s s') : AppSteps s s' := by
  obtain ⟨c, rfl⟩ := h
  cases c with
  | start => exact zipFetchStart_steps
  | cancel => exact zipFetchCancel_steps
  | fetcher c => exact .single (.call c)
  | own _ files => exact .single (.own _ files)

theorem hostSteps_steps (h : Relation.ReflTransGen HostStep s s') : AppSteps s s' := by
  induction h with
  | refl => exact .refl
  | tail _ hstep ih => exact ih.trans hstep.steps

theorem zipFinish_steps (hdone : ∀ id (s : System τ), AppSteps s (done id s)) :
    AppSteps s (zipFinish done state error s) := by
  obtain ⟨app, files, _, hend⟩ := zipFinish_ends
  have hsteps : AppSteps s { s with app, files } := .single (.own app files)
  rcases hend with hend | ⟨id, hend⟩
  · rw [hend]
    exact hsteps
  · rw [hend]
    exact hsteps.trans (hdone id _)

theorem zipRange_steps (name : Staged) (first last timeoutMs : Nat) (s : System τ) :
    AppSteps s (zipRange name first last timeoutMs s).2 := by
  unfold zipRange
  split
  · exact .refl
  split
  · exact .refl
  rename_i path _ _
  simp only
  generalize hs' : answer s _ = s'
  have hown : AppSteps s s' := by
    subst hs'
    exact .single (.own _ s.files)
  have hstart := fetchStart_steps_app s' (rangeRequest s'.app.zip path first last timeoutMs)
    (Net.next 0 s.app.around.clock).1
  generalize fetchStart s' (rangeRequest s'.app.zip path first last timeoutMs)
    (Net.next 0 s.app.around.clock).1 = started at *
  obtain ⟨refused, _⟩ := started
  cases refused <;> exact hown.trans hstart

variable (hdone : ∀ id (s : System τ), AppSteps s (done id s))
include hdone

theorem zipAsk_steps : AppSteps s (zipAsk done name first last timeoutMs s) := by
  have hrange := zipRange_steps name first last timeoutMs s
  unfold zipAsk
  generalize zipRange name first last timeoutMs s = asked at *
  obtain ⟨started, _⟩ := asked
  cases started with
  | true => exact hrange
  | false => exact hrange.trans (zipFinish_steps hdone)

theorem zipStep_steps (step : Step) : AppSteps s (zipStep done step s) := by
  cases step <;> exact (edit_steps s _).trans (zipAsk_steps hdone)

theorem zipOnFetch_steps : AppSteps s (zipOnFetch done result s) := by
  have hturn := zipOnFetch_turn done result s
  generalize zipOnFetch done result s = s' at hturn
  cases hturn with
  | failed _ _ h => exact ((edit_steps s _).trans h.steps).trans (zipFinish_steps hdone)
  | next _ _ haside =>
    obtain ⟨_, files, _, rfl⟩ := haside
    exact Relation.ReflTransGen.trans (.single (.own _ files)) (zipStep_steps hdone _)
  | landed | ignored => exact .single (.own _ s.files)

theorem zipInflate_steps : AppSteps s (zipInflate done s) := by
  obtain ⟨_, _, _, haside, hend, _⟩ := zipInflate_ends done s
  rw [hend]
  exact haside.steps.trans (zipFinish_steps hdone)

end Steps

theorem Customer.done_appSteps (customer : Customer τ) (id : Nat) (s : System τ) :
    AppSteps s (customer.done id s) :=
  hostSteps_steps (customer.done_steps id s)

/-- To the fetcher, a download and its owner are an application like any other. -/
def Customer.callback (customer : Customer τ) : Callback (Host τ) where
  run := customer.run
  steps id result s := by
    unfold Customer.run
    split
    · exact zipOnFetch_steps customer.done_appSteps
    · exact hostSteps_steps (customer.fetched_steps id result s)

theorem run_append : Fetch.run cb s (ops ++ ops') = Fetch.run cb (Fetch.run cb s ops) ops' :=
  foldl_append

theorem appSteps_run (h : AppSteps s s') : ∃ ops, s' = Fetch.run cb s ops := by
  induction h with
  | refl => exact ⟨[], rfl⟩
  | tail _ hstep ih =>
    obtain ⟨ops, rfl⟩ := ih
    cases hstep with
    | call c =>
      refine ⟨ops ++ [.call c], ?_⟩
      rw [run_append]
      rfl
    | own app files =>
      refine ⟨ops ++ [.own app files], ?_⟩
      rw [run_append]
      rfl

theorem hostStep_run : ∃ ops, hostStep customer s op = Fetch.run customer.callback s ops := by
  cases op with
  | call c => exact appSteps_run (HostStep.steps ⟨c, rfl⟩)
  | zipTick =>
    apply appSteps_run
    unfold hostStep zipFetchTick
    simp only
    split
    · exact .refl
    · exact (edit_steps s _).trans (zipInflate_steps customer.done_appSteps)
  | tick nowMs => exact ⟨[.tick nowMs], rfl⟩
  | socketEvent events => exact ⟨[.socketEvent events], rfl⟩
  | lookupEvent => exact ⟨[.lookupEvent], rfl⟩

theorem hostRun_run (customer : Customer τ) (s : System τ) (ops : List (HostOp τ)) :
    ∃ ops', hostRun customer s ops = Fetch.run customer.callback s ops' := by
  induction ops generalizing s with
  | nil => exact ⟨[], rfl⟩
  | cons op _ ih =>
    obtain ⟨first, hfirst⟩ := hostStep_run
    obtain ⟨rest, hrest⟩ := ih (hostStep customer s op)
    refine ⟨first ++ rest, ?_⟩
    rw [run_append, ← hfirst]
    exact hrest

end Inkwell.ZipFetch
