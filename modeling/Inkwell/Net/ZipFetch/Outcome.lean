import Inkwell.Net.ZipFetch.Course

namespace Inkwell.ZipFetch
open Net Http Zip Fetch

/-- One bit more, by the polynomial of IEEE 802.3 with its bits reflected. -/
def crcBit (crc : BitVec 32) : BitVec 32 :=
  if crc.getLsbD 0 then (crc >>> 1) ^^^ 0xedb88320 else crc >>> 1

def crcByte (crc : BitVec 32) (byte : UInt8) : BitVec 32 :=
  Nat.repeat crcBit 8 (crc ^^^ byte.toBitVec.setWidth 32)

def crc32 (bytes : Bytes) : Nat := (~~~ bytes.foldl crcByte (BitVec.allOnes 32)).toNat

example : crc32 (ascii "123456789") = 0xcbf43926 := by decide +kernel

/-- Removals succeed, and the checksum that is reported is the CRC-32. -/
structure Surroundings.Reliable (around : Surroundings) : Prop where
  removes : around.Removes
  crc32 : ∀ bytes crc, around.crc32 bytes = some crc → crc = ZipFetch.crc32 bytes

theorem Surroundings.Reliable.spends {a b : Surroundings} (h : a.Reliable) (hs : a.Spends b) :
    b.Reliable := by
  refine ⟨h.removes.spends hs, ?_⟩
  rw [hs.crc32]
  exact h.crc32

def Swept (zip : Download) (files : Bytes → Option Bytes) : Prop :=
  ∀ name path, zipPath zip name = some path → files path = none

/-- The result is there, with its size and CRC-32, and no other file of the download's. -/
structure Delivered (zip : Download) (said : List Finding)
    (files : Bytes → Option Bytes) : Prop where
  image : ∃ path output, zipPath zip .image = some path ∧ files path = some output ∧
    output.length = zip.entry.uncompressedSize ∧ crc32 output = zip.entry.crc32
  listed : Listed zip.member zip.entry
  said : Lengths zip said
  rest : ∀ name path, name ≠ .image → zipPath zip name = some path → files path = none

def Tidy : Deed → Prop
  | .started _ => True
  | .ended _ zip said files =>
    zip.state = .failed ∧ Swept zip files ∨ zip.state = .ready ∧ Delivered zip said files
  | .cancelled zip files => Swept zip files

section Outcome
variable {d d' : Desk (Host τ)}

theorem Closes.around (h : Closes state error d d') : d.app.around.Spends d'.app.around := by
  cases h with
  | intro _ _ hspends => exact hspends

theorem Asked.around {e : Option Errno} (h : Asked d e d') : d.app.around.Spends d'.app.around := by
  cases h with
  | accepted => exact .refl _
  | refused _ hcloses => exact hcloses.around

theorem Move.around (h : Move d d') : d.app.around.Spends d'.app.around := by
  have hsame : ∀ {around : Surroundings}, around = d.app.around → d.app.around.Spends around := by
    rintro _ rfl
    exact .refl _
  cases h with
  | works hworks => exact hsame (congrArg Host.around hworks.app)
  | fetches _ hbegun => exact hsame (congrArg Host.around hbegun.leaves.1)
  | starts _ _ _ hspends hbegun | fallsThrough _ _ _ hspends hbegun =>
    have heq := congrArg Host.around hbegun.leaves.1
    rw [heq]
    exact hspends
  | drops => exact hsame (congrArg Host.around d.cancel_app)
  | cancels hspends => exact hspends
  | stalls _ _ _ hspends _ hcloses | inflates _ hspends _ hcloses =>
    exact hspends.trans hcloses.around
  | asks _ _ _ hnext hspends _ hbegun hasked =>
    have hasked := hasked.around
    rw [hbegun.leaves.1] at hasked
    rw [← hnext.around]
    exact hspends.trans hasked
  | _ => exact .refl _

theorem Closes.deeds (h : Closes state error d d') : ∃ deed, d'.app.deeds = deed :: d.app.deeds ∧
    (d.app.around.Reliable →
      (state = .failed ∨ state = .ready ∧ Ready d.app d.files ∧
        Basis d.app.zip d.app.said .member) →
      Tidy deed) := by
  cases h with
  | intro _ _ _ hgone hrest =>
    refine ⟨_, rfl, fun hreliable hstate => ?_⟩
    rcases hstate with rfl | ⟨rfl, hready, hbasis⟩
    · exact .inl ⟨rfl, fun name path => hgone hreliable.removes name path fun _ => rfl⟩
    · obtain ⟨path, output, hpath, hfile, hlength, hcrc⟩ := hready
      obtain ⟨hlisted, _, hsaid⟩ := hbasis
      refine .inr ⟨rfl, ⟨path, output, hpath, ?_, hlength, ?_⟩, hlisted, hsaid, ?_⟩
      · rw [hrest nofun path hpath, hfile]
      · exact (hreliable.crc32 output _ hcrc).symm
      · intro name path hname
        exact hgone hreliable.removes name path fun heq => absurd heq hname

theorem Move.deeds (h : Move d d') : d'.app.deeds = d.app.deeds ∨
    ∃ deed, d'.app.deeds = deed :: d.app.deeds ∧
      (OnCourse d → d.app.around.Reliable → Tidy deed) := by
  cases h with
  | works hworks => exact .inl (congrArg Host.deeds hworks.app)
  | fetches _ hbegun => exact .inl (congrArg Host.deeds hbegun.leaves.1)
  | drops => exact .inl (congrArg Host.deeds d.cancel_app)
  | starts _ _ _ _ hbegun =>
    have heq := congrArg Host.deeds hbegun.leaves.1
    exact .inr ⟨_, congrArg (List.cons _) heq, fun _ _ => trivial⟩
  | fallsThrough _ _ _ _ hbegun =>
    have heq := congrArg Host.deeds hbegun.leaves.1
    exact .inl heq
  | cancels _ hgone => exact .inr ⟨_, rfl, fun _ hreliable => hgone hreliable.removes⟩
  | stalls _ _ _ hspends _ hcloses =>
    obtain ⟨deed, hdeeds, htidy⟩ := hcloses.deeds
    exact .inr ⟨deed, hdeeds, fun _ hreliable => htidy (hreliable.spends hspends) (.inl rfl)⟩
  | asks _ _ _ hnext hspends _ hbegun hasked =>
    have happ := hbegun.leaves.1
    cases hasked with
    | accepted =>
      rw [happ]
      exact .inl hnext.user.2
    | refused e hcloses =>
      obtain ⟨deed, hdeeds, htidy⟩ := hcloses.deeds
      rw [happ] at hdeeds htidy
      refine .inr ⟨deed, hdeeds.trans (congrArg (List.cons _) hnext.user.2), fun _ hreliable => ?_⟩
      rw [← hnext.around] at hreliable
      exact htidy (hreliable.spends hspends) (.inl rfl)
  | inflates hpending hspends hstate hcloses =>
    obtain ⟨deed, hdeeds, htidy⟩ := hcloses.deeds
    refine .inr ⟨deed, hdeeds, fun hc hreliable => htidy (hreliable.spends hspends) ?_⟩
    refine hstate.imp_right fun ⟨hready, path, output, hpath, hfile, hlength, hcrc⟩ =>
      ⟨hready, ?_, ?_⟩
    · rw [← hspends.crc32] at hcrc
      exact ⟨path, output, hpath, hfile, hlength, hcrc⟩
    · exact (hc.landed hpending).2.1
  | _ => exact .inl rfl

theorem Moves.deeds (h : Moves d d') : d.app.deeds <:+ d'.app.deeds := by
  apply h.keeps
  · intro _ _ hmove hsuffix
    rcases hmove.deeds with heq | ⟨_, heq, _⟩
    · rw [heq]
      exact hsuffix
    · rw [heq]
      exact hsuffix.trans (List.suffix_cons _ _)
  · exact List.suffix_rfl

def AllTidy (d : Desk (Host τ)) : Prop := d.app.around.Reliable ∧ ∀ deed ∈ d.app.deeds, Tidy deed

theorem Move.allTidy (h : Move d d') (hc : OnCourse d) (hd : AllTidy d) : AllTidy d' := by
  obtain ⟨hreliable, htidy⟩ := hd
  refine ⟨hreliable.spends h.around, ?_⟩
  rcases h.deeds with heq | ⟨_, heq, hdeed⟩
  · rw [heq]
    exact htidy
  · rw [heq]
    exact List.forall_mem_cons.mpr ⟨hdeed hc hreliable, htidy⟩

end Outcome

end Inkwell.ZipFetch
