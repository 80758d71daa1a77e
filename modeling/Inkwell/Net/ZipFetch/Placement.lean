import Inkwell.Net.ZipFetch.Course
import Inkwell.Net.ZipFetch.Ranges

namespace Inkwell.ZipFetch
open Net Http Zip Fetch
open List hiding zip

def MemberRead (request : Request) : Prop :=
  RangeRead request ∧ ∃ stem, request.outputPath = some (stem ++ ascii ".member")

/-- An archive described a member, and right after that the two lengths in its local header. -/
def Described (said : List Finding) (centralOffset : Nat) (entry : ZipEntry)
    (nameLen extraLen : Nat) : Prop :=
  ∃ zipSize, [.data zipSize entry nameLen extraLen, .member zipSize centralOffset entry] <:+: said

/-- What is asked for is the bytes of a member that was described, all of them. -/
def Located (said : List Finding) (request : Request) (centralOffset : Nat) (entry : ZipEntry)
    (nameLen extraLen : Nat) : Prop :=
  Described said centralOffset entry nameLen extraLen ∧
    request.headers = [rangeLine (memberStart entry nameLen extraLen)
      (memberStart entry nameLen extraLen + entry.compressedSize - 1)]

def Lodged (d : Desk (Host τ)) : Prop :=
  ∀ request nowMs, .started request nowMs ∈ d.trace → MemberRead request →
    ∃ centralOffset entry nameLen extraLen,
      Located d.app.said request centralOffset entry nameLen extraLen

theorem Located.mono (h : Located said request centralOffset entry nameLen extraLen)
    (hs : said <:+ said') : Located said' request centralOffset entry nameLen extraLen := by
  obtain ⟨⟨zipSize, hinfix⟩, hheaders⟩ := h
  exact ⟨⟨zipSize, hinfix.trans hs.isInfix⟩, hheaders⟩

theorem Step.staged_member {step : Step}
    (h : zipPath zip step.staged = some (stem ++ ascii ".member")) : step = .member := by
  unfold zipPath at h
  simp only [Option.ite_none_right_eq_some, Option.some.injEq] at h
  have hname : ascii ".member" = ascii "." ++ ascii "member" := by decide
  cases step with
  | member => rfl
  | central =>
    have hlast := append_inj_right' h.2 (by decide)
    exact absurd hlast (by decide)
  | window | header =>
    rw [hname, ← append_assoc] at h
    have hlast := append_inj_right' h.2 (by decide)
    exact absurd hlast (by decide)

theorem Heading.described (h : Heading zip said .member) :
    ∃ nameLen extraLen, Described said zip.centralOffset zip.entry nameLen extraLen ∧
      Step.range zip .member = (memberStart zip.entry nameLen extraLen,
        memberStart zip.entry nameLen extraLen + zip.entry.compressedSize - 1) := by
  obtain ⟨hlisted, _, nameLen, extraLen, earlier, hplace, hsaid⟩ := h.basis
  obtain ⟨_, _, hfound⟩ := hlisted.found
  have hsize := (findMember_found hfound).2.1
  have hpos := hlisted.size
  refine ⟨nameLen, extraLen, ⟨zip.zipSize, [], earlier, hsaid.symm⟩, ?_⟩
  simp only [Step.range]
  rw [sub64_one (by omega) (by omega), hplace]

theorem Move.lodged (h : Move d d') (hc : OnCourse d) (hd : Lodged d) : Lodged d' := by
  have hold : ∀ request nowMs, .started request nowMs ∈ d.trace → MemberRead request →
      ∃ centralOffset entry nameLen extraLen,
        Located d'.app.said request centralOffset entry nameLen extraLen := by
    intro request nowMs hmem hread
    obtain ⟨centralOffset, entry, nameLen, extraLen, hlocated⟩ := hd request nowMs hmem hread
    exact ⟨centralOffset, entry, nameLen, extraLen, hlocated.mono h.said⟩
  cases h.adds with
  | nothing hunasked htrace =>
    intro request nowMs hmem hread
    rw [htrace] at hmem
    rcases mem_append.mp hmem with hnew | hmem
    · exact absurd hnew hunasked.not_mem
    · exact hold request nowMs hmem hread
  | request hnewer holder htrace hbegins =>
    intro request nowMs hmem hread
    rw [htrace] at hmem
    rcases mem_append.mp hmem with hnew | hmem
    · exact absurd hnew hnewer.not_mem
    rcases mem_cons.mp hmem with heq | hmem
    · cases heq
      cases hbegins with
      | foreign hforeign => exact absurd hread.1.1 hforeign
      | head _ _ heq =>
        rw [heq] at hread
        cases hread.1.2
      | range hown _ hnext hpath heq hsaid =>
        subst heq
        obtain ⟨_, stem, hstaged⟩ := hread
        have hstaged : some _ = some (stem ++ ascii ".member") := hstaged
        rw [hstaged] at hpath
        cases Step.staged_member hpath
        have hheading := hnext.heading (hc.underway hown)
        obtain ⟨_, _, hdescribed, hrange⟩ := hheading.described
        refine ⟨_, _, _, _, hsaid ▸ hdescribed, ?_⟩
        unfold Step.request rangeRequest
        rw [hrange]
    rcases mem_append.mp hmem with hnew | hmem
    · exact absurd hnew holder.not_mem
    · exact hold request nowMs hmem hread

theorem hostRun_lodged :
    Lodged (hostRun customer (hostBoot hasLoop world around files user) ops).desk := by
  have hkept := (hostRun_moves customer (hostBoot hasLoop world around files user) ops).keeps
    (p := fun d => OnCourse d ∧ Lodged d)
    (fun _ _ hmove h => ⟨hmove.onCourse h.1, hmove.lodged h.1 h.2⟩)
  apply (hkept _).2
  exact ⟨.free not_ownErrand_none rfl, fun _ _ hmem => absurd hmem not_mem_nil⟩

/-- The bytes asked for as a member's are in front of the directory that described it, if the
lengths in the local headers put them there. -/
theorem run_member_in_front (customer : Customer τ) (hasLoop : Bool) (world : World)
    (around : Surroundings) (files : Bytes → Option Bytes) (user : τ)
    (ops : List (HostOp τ))
    (hfront : ∀ centralOffset entry nameLen extraLen, Described
      (hostRun customer (hostBoot hasLoop world around files user) ops).app.said
        centralOffset entry nameLen extraLen →
      entry.localHeaderOffset + localHeaderSize + nameLen + extraLen + entry.compressedSize ≤
        centralOffset) :
    ∀ request nowMs, .started request nowMs ∈
        (hostRun customer (hostBoot hasLoop world around files user) ops).trace →
      MemberRead request →
      ∃ centralOffset entry nameLen extraLen,
        Located (hostRun customer (hostBoot hasLoop world around files user) ops).app.said request
          centralOffset entry nameLen extraLen ∧
        memberStart entry nameLen extraLen + entry.compressedSize ≤ centralOffset := by
  intro request nowMs hmem hread
  obtain ⟨centralOffset, entry, nameLen, extraLen, hlocated⟩ :=
    hostRun_lodged request nowMs hmem hread
  exact ⟨centralOffset, entry, nameLen, extraLen, hlocated,
    hfront centralOffset entry nameLen extraLen hlocated.1⟩

def sampleEntry : ZipEntry := { name := ascii "m", compressedSize := 1, uncompressedSize := 1 }

/-- In that archive the member is the byte in front of the directory. -/
theorem run_member_in_front_sample :
    let s := sampleRun sampleReplies
    ∃ request nowMs, .started request nowMs ∈ s.trace ∧ MemberRead request ∧
      request.headers = [rangeLine 31 31] ∧
      ∃ centralOffset entry nameLen extraLen,
        Located s.app.said request centralOffset entry nameLen extraLen ∧
        memberStart entry nameLen extraLen + entry.compressedSize ≤ centralOffset := by
  intro s
  have hrun : s.app.said = [.data 101 sampleEntry 1 0, .member 101 32 sampleEntry] ∧
      .started (sampleAsked "/s/zip_fetch.member" 31 31) 0 ∈ s.trace := by
    decide +kernel
  obtain ⟨hsaid, hstarted⟩ := hrun
  have hread : MemberRead (sampleAsked "/s/zip_fetch.member" 31 31) :=
    ⟨⟨rfl, rfl⟩, ascii "/s/zip_fetch", by decide⟩
  unfold s sampleRun at *
  refine ⟨_, 0, hstarted, hread, rfl, ?_⟩
  apply run_member_in_front
  · intro _ _ _ _ hdescribed
    rw [hsaid] at hdescribed
    obtain ⟨_, hinfix⟩ := hdescribed
    cases hinfix.eq_of_length rfl
    decide
  · exact hstarted
  · exact hread

def sampleFarLocal : Bytes :=
  le32 sigLocal ++ List.replicate 22 0 ++ le16 1 ++ le16 100 ++ ascii "m" ++ ascii "!"

/-- Its member is asked for from byte 131 on, although its directory begins at byte 32. -/
theorem member_behind_directory :
    let s := sampleRun [sampleLength 101,
      sampleRange (sampleFarLocal ++ sampleCentral 0 ++ sampleEnd 47 32),
      sampleRange (sampleFarLocal.take 30), []]
    ∃ request nowMs, .started request nowMs ∈ s.trace ∧ MemberRead request ∧
      request.headers = [rangeLine 131 131] ∧ Described s.app.said 32 sampleEntry 1 100 := by
  intro s
  have hrun : .started (sampleAsked "/s/zip_fetch.member" 131 131) 0 ∈ s.trace ∧
      s.app.said = [.data 101 sampleEntry 1 100, .member 101 32 sampleEntry] := by
    decide +kernel
  refine ⟨_, 0, hrun.1, ⟨⟨rfl, rfl⟩, ascii "/s/zip_fetch", by decide⟩, rfl, 101, ?_⟩
  exact hrun.2 ▸ infix_rfl

end Inkwell.ZipFetch
