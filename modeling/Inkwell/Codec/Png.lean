import Inkwell.Base.Errno

namespace Inkwell.Png

/-- `SIZE_MAX` where a `size_t` has 64 bits. -/
def sizeMax : UInt64 := 0xFFFFFFFFFFFFFFFF

def pixelBytes : UInt64 := 4

def decoderBytes : UInt64 := 48 * 1024

def workbufBytes (width height bytesPerPixel : UInt32) : UInt64 :=
  if width = 0 ∨ height = 0 ∨ bytesPerPixel = 0 then 0
  else
    let row := width.toUInt64 * bytesPerPixel.toUInt64
    let total := row * height.toUInt64 + width.toUInt64
    if total > sizeMax then 0 else total

/-- The arguments of a decode; of a pointer, whether it is given. -/
structure Call where
  decoderState : Bool := true
  encoded : Bool := true
  len : UInt64
  width : UInt32
  height : UInt32
  pixels : Bool := true
  pixelsLen : UInt64
  work : Bool := true
  workLen : UInt64

/-- What Wuffs answers; an image that it reads has a width and a height. -/
structure Wuffs where
  decoderBytes : UInt64
  initialized : Bool
  config : Option (UInt32 × UInt32)
  slice : Bool
  workbufLen : UInt64
  frame : Bool

inductive Decoded
  | imageConfig | frame
  deriving DecidableEq

def Call.wantedPixels (call : Call) : UInt64 :=
  call.width.toUInt64 * call.height.toUInt64 * pixelBytes

/-- What is returned, and what Wuffs was asked to decode. -/
def decodeBgra (call : Call) (wuffs : Wuffs) : Except Errno Unit × List Decoded :=
  if !call.decoderState ∨ !call.encoded ∨ call.len = 0 ∨ !call.pixels ∨ call.width = 0 ∨
      call.height = 0 ∨ !call.work ∧ call.workLen ≠ 0 then (.error .einval, [])
  else if call.pixelsLen < call.wantedPixels then (.error .enobufs, [])
  else if wuffs.decoderBytes > decoderBytes then (.error .enobufs, [])
  else if !wuffs.initialized then (.error .einval, [])
  else
    match wuffs.config with
    | none => (.error .eilseq, [.imageConfig])
    | some (width, height) =>
      if width ≠ call.width ∨ height ≠ call.height then (.error .einval, [.imageConfig])
      else if !wuffs.slice then (.error .enobufs, [.imageConfig])
      else if wuffs.workbufLen > call.workLen then (.error .enotsup, [.imageConfig])
      else (if wuffs.frame then .ok () else .error .eilseq, [.imageConfig, .frame])

theorem workbufBytes_toNat (hwidth : width ≠ 0) (hheight : height ≠ 0)
    (hbytes : bytesPerPixel ≠ 0) :
    (workbufBytes width height bytesPerPixel).toNat =
      (width.toNat * bytesPerPixel.toNat * height.toNat + width.toNat) % 2 ^ 64 := by
  have hmax (total : UInt64) : ¬total > sizeMax := by
    rw [gt_iff_lt, UInt64.lt_iff_toNat_lt]
    exact not_lt.mpr (Nat.le_of_lt_succ total.toNat_lt)
  simp only [workbufBytes, hwidth, hheight, hbytes, or_self, if_false, hmax]
  rw [UInt64.toNat_add, UInt64.toNat_mul, UInt64.toNat_mul, Nat.mod_mul_mod, Nat.mod_add_mod]
  rfl

theorem wantedPixels_toNat (call : Call) :
    call.wantedPixels.toNat = call.width.toNat * call.height.toNat * 4 % 2 ^ 64 := by
  rw [Call.wantedPixels, UInt64.toNat_mul, UInt64.toNat_mul, Nat.mod_mul_mod]
  rfl

/-- The arguments that are refused whatever their sizes. -/
def Call.Refused (call : Call) : Prop :=
  call.decoderState = false ∨ call.encoded = false ∨ call.len = 0 ∨ call.pixels = false ∨
    call.width = 0 ∨ call.height = 0 ∨ call.work = false ∧ call.workLen ≠ 0

theorem decodeBgra_goes (call : Call) :
    (∃ wuffs, (decodeBgra call wuffs).2 ≠ []) ↔
      ¬call.Refused ∧ call.wantedPixels ≤ call.pixelsLen := by
  constructor
  · rintro ⟨_, h⟩
    unfold decodeBgra at h
    split at h
    · exact absurd rfl h
    rename_i hgiven
    split at h
    · exact absurd rfl h
    rename_i hroom
    refine ⟨?_, UInt64.not_lt.mp hroom⟩
    simpa only [Call.Refused, Bool.not_eq_true'] using hgiven
  · rintro ⟨hgiven, hroom⟩
    refine ⟨⟨0, true, none, true, 0, true⟩, ?_⟩
    unfold decodeBgra
    rw [if_neg, if_neg (UInt64.not_lt.mpr hroom)]
    · exact List.cons_ne_nil _ _
    · simpa only [Call.Refused, Bool.not_eq_true'] using hgiven

/-- The scratch size is exact or zero as long as it stays under 2 ^ 64 or is a multiple of it; and
no decode is begun without room for the pixels exactly if the call is refused, the product stays
under 2 ^ 64, or the buffer is shorter than what is left of the product. -/
theorem sizes_exact_iff (width height bytesPerPixel : UInt32) (call : Call) :
    (workbufBytes width height bytesPerPixel = 0 ∨ (workbufBytes width height bytesPerPixel).toNat =
        width.toNat * bytesPerPixel.toNat * height.toNat + width.toNat ↔
      (width = 0 ∨ height = 0 ∨ bytesPerPixel = 0) ∨
        width.toNat * bytesPerPixel.toNat * height.toNat + width.toNat < 2 ^ 64 ∨
        2 ^ 64 ∣ width.toNat * bytesPerPixel.toNat * height.toNat + width.toNat) ∧
    ((∀ wuffs, (decodeBgra call wuffs).2 ≠ [] →
        call.width.toNat * call.height.toNat * 4 ≤ call.pixelsLen.toNat) ↔
      call.Refused ∨ call.width.toNat * call.height.toNat * 4 < 2 ^ 64 ∨
        call.pixelsLen.toNat < call.width.toNat * call.height.toNat * 4 % 2 ^ 64) := by
  constructor
  · by_cases hzero : width = 0 ∨ height = 0 ∨ bytesPerPixel = 0
    · have hnone : workbufBytes width height bytesPerPixel = 0 := if_pos hzero
      exact iff_of_true (.inl hnone) (.inl hzero)
    obtain ⟨hwidth, hheight, hbytes⟩ : width ≠ 0 ∧ height ≠ 0 ∧ bytesPerPixel ≠ 0 := by
      rwa [not_or, not_or] at hzero
    rw [or_iff_right hzero, ← UInt64.toNat_inj, workbufBytes_toNat hwidth hheight hbytes]
    generalize width.toNat * bytesPerPixel.toNat * height.toNat + width.toNat = total
    rw [or_comm, Nat.mod_eq_iff_lt (by decide), Nat.dvd_iff_mod_eq_zero]
    rfl
  · have hlen := call.pixelsLen.toNat_lt
    have hgoes := decodeBgra_goes call
    rw [UInt64.le_iff_toNat_le, wantedPixels_toNat] at hgoes
    rw [← forall_exists_index (p := fun wuffs => (decodeBgra call wuffs).2 ≠ [])
      (q := fun _ => call.width.toNat * call.height.toNat * 4 ≤ call.pixelsLen.toNat), hgoes]
    generalize call.width.toNat * call.height.toNat * 4 = product at *
    constructor
    · intro h
      by_cases hrefused : call.Refused
      · exact .inl hrefused
      · right
        by_cases hroom : product % 2 ^ 64 ≤ call.pixelsLen.toNat
        · exact .inl (lt_of_le_of_lt (h ⟨hrefused, hroom⟩) hlen)
        · exact .inr (lt_of_not_ge hroom)
    · rintro (hrefused | hsmall | hshort) ⟨hgiven, hroom⟩
      · exact absurd hrefused hgiven
      · rwa [Nat.mod_eq_of_lt hsmall] at hroom
      · exact absurd hroom (not_le.mpr hshort)

/-- The scratch size of an image of 2 ^ 64 bytes is that of a row, and an image of 2 ^ 64 bytes of
pixels is gone on with in a buffer of one. -/
theorem products_wrap :
    workbufBytes 0x400000 0x200000 0x200000 = 0x400000 ∧
      (decodeBgra
        { len := 1, width := 0x80000000, height := 0x80000000, pixelsLen := 1, workLen := 1 }
        { decoderBytes := 44632, initialized := true, config := none, slice := true,
          workbufLen := 1,
          frame := true }).2 = [.imageConfig] := by
  decide

end Inkwell.Png
