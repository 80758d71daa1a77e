import Inkwell.Codec.Zip

namespace Inkwell.Zip
open List

def u16Bytes (n : Nat) : Bytes := [UInt8.ofNat n, UInt8.ofNat (n / 256)]
def u32Bytes (n : Nat) : Bytes := u16Bytes n ++ u16Bytes (n / 65536)

@[simp] theorem length_u16Bytes : (u16Bytes n).length = 2 := rfl
@[simp] theorem length_u32Bytes : (u32Bytes n).length = 4 := rfl

theorem zipU16_at (front rest : Bytes) (hbytes : bytes = front ++ (u16Bytes n ++ rest))
    (hat : at_ = front.length) (hn : n < 2 ^ 16) : zipU16 bytes at_ = some n := by
  subst hbytes hat
  have hlow : (front ++ (u16Bytes n ++ rest))[front.length]? = some (UInt8.ofNat n) := by
    rw [List.getElem?_append_right (le_rfl), Nat.sub_self]
    rfl
  have hhigh : (front ++ (u16Bytes n ++ rest))[front.length + 1]? =
      some (UInt8.ofNat (n / 256)) := by
    rw [List.getElem?_append_right (Nat.le_add_right ..), Nat.add_sub_cancel_left]
    rfl
  rw [zipU16, hlow, hhigh]
  simp only [Option.bind_eq_bind, Option.bind_some, Option.pure_def, UInt8.toNat_ofNat']
  congr 1
  omega

theorem zipU32_at (front rest : Bytes) (hbytes : bytes = front ++ (u32Bytes n ++ rest))
    (hat : at_ = front.length) (hn : n < 2 ^ 32) : zipU32 bytes at_ = some n := by
  have hsplit : u32Bytes n = u16Bytes (n % 65536) ++ u16Bytes (n / 65536) := by
    have hlow : UInt8.ofNat n = UInt8.ofNat (n % 65536) := by
      apply UInt8.toNat_inj.mp
      rw [UInt8.toNat_ofNat', UInt8.toNat_ofNat']
      omega
    have hhigh : UInt8.ofNat (n / 256) = UInt8.ofNat (n % 65536 / 256) := by
      apply UInt8.toNat_inj.mp
      rw [UInt8.toNat_ofNat', UInt8.toNat_ofNat']
      omega
    rw [u32Bytes, u16Bytes, hlow, hhigh]
    rfl
  have hlow : zipU16 bytes at_ = some (n % 65536) :=
    zipU16_at front (u16Bytes (n / 65536) ++ rest)
      (by rw [hbytes, hsplit, append_assoc]) hat (by omega)
  have hhigh : zipU16 bytes (at_ + 2) = some (n / 65536) :=
    zipU16_at (front ++ u16Bytes (n % 65536)) rest
      (by rw [hbytes, hsplit]; simp only [append_assoc]) (by simp [hat]) (by omega)
  rw [zipU32, hlow, hhigh]
  simp only [Option.bind_eq_bind, Option.bind_some, Option.pure_def]
  congr 1
  omega

theorem flatten_split (hi : fields[i]? = some field) :
    List.flatten fields = (fields.take i).flatten ++ (field ++ (fields.drop (i + 1)).flatten) := by
  obtain ⟨hlt, rfl⟩ := List.getElem?_eq_some_iff.mp hi
  conv_lhs => rw [← take_append_drop i fields, drop_eq_getElem_cons hlt]
  rw [flatten_append, flatten_cons]

theorem zipU16_field (front : Bytes) (fields : List Bytes) (i : Nat)
    (hbytes : bytes = front ++ (List.flatten fields ++ rest)) (hi : fields[i]? = some (u16Bytes n))
    (hat : at_ = front.length + ((fields.take i).map List.length).sum) (hn : n < 2 ^ 16) :
    zipU16 bytes at_ = some n := by
  apply zipU16_at (front ++ (fields.take i).flatten) ((fields.drop (i + 1)).flatten ++ rest) _ _ hn
  · rw [hbytes, flatten_split hi]
    simp only [append_assoc]
  · rw [hat, length_append, length_flatten]

theorem zipU32_field (front : Bytes) (fields : List Bytes) (i : Nat)
    (hbytes : bytes = front ++ (List.flatten fields ++ rest)) (hi : fields[i]? = some (u32Bytes n))
    (hat : at_ = front.length + ((fields.take i).map List.length).sum) (hn : n < 2 ^ 32) :
    zipU32 bytes at_ = some n := by
  apply zipU32_at (front ++ (fields.take i).flatten) ((fields.drop (i + 1)).flatten ++ rest) _ _ hn
  · rw [hbytes, flatten_split hi]
    simp only [append_assoc]
  · rw [hat, length_append, length_flatten]

theorem zipU32_low (h : zipU32 bytes at_ = some n) :
    ∃ b, bytes[at_]? = some b ∧ n % 256 = b.toNat := by
  simp only [zipU32, zipU16, Option.bind_eq_bind, Option.pure_def, Option.bind_eq_some_iff,
    Option.some.injEq] at h
  obtain ⟨_, ⟨b, hb, c, _, rfl⟩, _, ⟨_, _, _, _, rfl⟩, rfl⟩ := h
  have := b.toNat_lt
  exact ⟨b, hb, by omega⟩

/-- The signature of an end record, and a comment length that is what follows. -/
def Looks (bytes : Bytes) (at_ : Nat) : Prop :=
  zipU32 bytes at_ = some sigEocd ∧ zipU16 bytes (at_ + 20) = some (bytes.length - at_ - eocdSize)

instance (bytes : Bytes) (at_ : Nat) : Decidable (Looks bytes at_) :=
  inferInstanceAs (Decidable (_ ∧ _))

theorem endAt_elsewhere (hroom : back + eocdSize ≤ window.length) (h : ¬Looks window back) :
    endAt window windowOffset back = some .elsewhere := by
  unfold eocdSize at hroom
  obtain ⟨sig, hsig⟩ := zipU32_read window back (by omega)
  obtain ⟨comment, hcomment⟩ := zipU16_read window (back + 20) (by omega)
  simp only [endAt, hsig, hcomment, Option.bind_eq_bind, Option.bind_some, Option.pure_def]
  by_cases hs : sig = sigEocd
  · have hc : comment ≠ window.length - back - eocdSize := by
      rintro rfl
      exact h ⟨hs ▸ hsig, hcomment⟩
    rw [if_neg (not_not.mpr hs), if_pos hc]
  · rw [if_pos hs]

theorem scanEnd_last (hrecord : endAt window windowOffset at_ = some (.record found))
    (hle : at_ ≤ back) (hroom : back + eocdSize ≤ window.length)
    (hlater : ∀ b, at_ < b → b ≤ back → ¬Looks window b) :
    scanEnd window windowOffset back = some found := by
  induction back with
  | zero =>
    cases Nat.le_zero.mp hle
    rw [scanEnd, hrecord]
  | succ back ih =>
    rcases Nat.lt_or_ge back at_ with hlt | hge
    · cases le_antisymm hle hlt
      rw [scanEnd, hrecord]
    · rw [scanEnd, endAt_elsewhere hroom (hlater _ (by omega) (le_rfl))]
      exact ih hge (by omega) fun b hb hle => hlater b hb (by omega)

theorem scanEnd_none (hroom : back + eocdSize ≤ window.length)
    (hnone : ∀ b ≤ back, ¬Looks window b) : scanEnd window windowOffset back = some none := by
  induction back with
  | zero => rw [scanEnd, endAt_elsewhere hroom (hnone 0 (le_rfl))]
  | succ _ ih =>
    rw [scanEnd, endAt_elsewhere hroom (hnone _ (le_rfl))]
    exact ih (by omega) fun b hle => hnone b (by omega)

theorem findEnd_last (hrecord : endAt window windowOffset at_ = some (.record found))
    (hroom : at_ + eocdSize ≤ window.length)
    (hlater : ∀ b, at_ < b → b + eocdSize ≤ window.length → ¬Looks window b) :
    findEnd window windowOffset = some found := by
  rw [findEnd, if_neg (by omega)]
  exact scanEnd_last hrecord (by omega) (by omega) fun b hb hle => hlater b hb (by omega)

theorem findEnd_none (hnone : ∀ b, b + eocdSize ≤ window.length → ¬Looks window b) :
    findEnd window windowOffset = some none := by
  unfold findEnd
  split
  · rfl
  · exact scanEnd_none (by omega) fun b hle => hnone b (by omega)

structure ZipEnd.At (e : ZipEnd) (bytes : Bytes) (at_ : Nat) : Prop where
  entries : zipU16 bytes (at_ + 10) = some e.entries
  centralSize : zipU32 bytes (at_ + 12) = some e.centralSize
  centralOffset : zipU32 bytes (at_ + 16) = some e.centralOffset

def ZipEnd.placeholder (e : ZipEnd) : Prop :=
  e.entries = u16Sentinel ∨ e.centralSize = u32Sentinel ∨ e.centralOffset = u32Sentinel

instance : DecidablePred ZipEnd.placeholder := fun _ => inferInstanceAs (Decidable (_ ∨ _))

theorem endAt_looks (windowOffset : Nat) (h : Looks window back) (he : e.At window back) :
    endAt window windowOffset back = some (.record (
      if e.placeholder ∨ e.centralOffset + e.centralSize > u64 (windowOffset + back) then none
      else some e)) := by
  simp only [endAt, h.1, h.2, he.entries, he.centralSize, he.centralOffset, Option.bind_eq_bind,
    Option.bind_some, Option.pure_def, ne_eq, not_true_eq_false, if_false]
  split
  · rename_i hplaceholder
    rw [if_pos (.inl hplaceholder)]
  rename_i hnumbers
  split
  · rename_i hbehind
    rw [if_pos (.inr hbehind)]
  · rename_i hbefore
    rw [if_neg (fun hany => hany.elim hnumbers hbefore)]

/-- The last place in the window that looks like an end record decides. -/
theorem findEnd_decides (window : Bytes) (windowOffset : Nat)
    (hsum : windowOffset + window.length < 2 ^ 64) :
    ((∀ b, b + eocdSize ≤ window.length → ¬Looks window b) →
      findEnd window windowOffset = some none) ∧
    ∀ at_, at_ + eocdSize ≤ window.length → Looks window at_ →
      (∀ b, at_ < b → b + eocdSize ≤ window.length → ¬Looks window b) →
      ∃ e : ZipEnd, e.At window at_ ∧ findEnd window windowOffset = some (
        if e.placeholder ∨ e.centralOffset + e.centralSize > windowOffset + at_ then none
        else some e) := by
  refine ⟨findEnd_none, fun at_ hroom hlooks hlater => ?_⟩
  have hwide : at_ + 22 ≤ window.length := hroom
  obtain ⟨entries, hentries⟩ := zipU16_read window (at_ + 10) (by omega)
  obtain ⟨centralSize, hsize⟩ := zipU32_read window (at_ + 12) (by omega)
  obtain ⟨centralOffset, hoffset⟩ := zipU32_read window (at_ + 16) (by omega)
  have hat : ZipEnd.At ⟨centralOffset, centralSize, entries⟩ window at_ :=
    ⟨hentries, hsize, hoffset⟩
  have hrecord := endAt_looks windowOffset hlooks hat
  have hplace : u64 (windowOffset + at_) = windowOffset + at_ := Nat.mod_eq_of_lt (by omega)
  rw [hplace] at hrecord
  exact ⟨_, hat, findEnd_last hrecord hroom hlater⟩

theorem not_looks (h : 'P'.toUInt8 ∉ bytes.drop from_) (hb : from_ ≤ b) : ¬Looks bytes b := by
  rintro ⟨hsig, -⟩
  obtain ⟨c, hc, hlow⟩ := zipU32_low hsig
  apply h
  have hp : c = 'P'.toUInt8 := by
    apply UInt8.toNat_inj.mp
    rw [← hlow]
    rfl
  rw [← hp]
  apply List.mem_of_getElem?
  rw [List.getElem?_drop, Nat.add_sub_cancel' hb]
  exact hc

/-- A file that ends in an end record and its comment, of numbers that need no zip64 record. -/
structure ZipFile where
  before : Bytes
  disks : Bytes
  entries : Nat
  centralSize : Nat
  centralOffset : Nat
  comment : Bytes
  disks_length : disks.length = 6
  entries_lt : entries < u16Sentinel
  centralSize_lt : centralSize < u32Sentinel
  centralOffset_lt : centralOffset < u32Sentinel
  comment_lt : comment.length < 2 ^ 16
  placed : centralOffset + centralSize ≤ before.length
  before_lt : before.length < 2 ^ 64

def ZipFile.fields (f : ZipFile) : List Bytes :=
  [u32Bytes sigEocd, f.disks, u16Bytes f.entries, u32Bytes f.centralSize, u32Bytes f.centralOffset,
    u16Bytes f.comment.length]

def ZipFile.record (f : ZipFile) : Bytes := f.fields.flatten

def ZipFile.text (f : ZipFile) : Bytes := f.before ++ (f.record ++ f.comment)

def ZipFile.directory (f : ZipFile) : ZipEnd := ⟨f.centralOffset, f.centralSize, f.entries⟩

/-- No place behind the beginning of the end record looks like another one. -/
def ZipFile.Clear (f : ZipFile) : Prop :=
  ∀ p, f.before.length < p → p + eocdSize ≤ f.text.length → ¬Looks f.text p

theorem ZipFile.length_record (f : ZipFile) : f.record.length = eocdSize := by
  simp [ZipFile.record, ZipFile.fields, f.disks_length, eocdSize]

theorem ZipFile.length_text (f : ZipFile) :
    f.text.length = f.before.length + eocdSize + f.comment.length := by
  rw [ZipFile.text, length_append, length_append, f.length_record, add_assoc]

theorem ZipFile.endAt_record (f : ZipFile)
    (hfront : front.length + windowOffset = f.before.length) :
    endAt (front ++ (f.record ++ f.comment)) windowOffset front.length =
      some (.record (some f.directory)) := by
  have hentries := f.entries_lt
  have hsize := f.centralSize_lt
  have hoffset := f.centralOffset_lt
  unfold u16Sentinel at hentries
  unfold u32Sentinel at hsize hoffset
  have hsig : zipU32 (front ++ (f.record ++ f.comment)) front.length = some sigEocd :=
    zipU32_field front f.fields 0 rfl rfl rfl (by decide)
  have hcount : zipU16 (front ++ (f.record ++ f.comment)) (front.length + 10) = some f.entries :=
    zipU16_field front f.fields 2 rfl rfl (by simp [ZipFile.fields, f.disks_length])
      (by omega)
  have hbytes : zipU32 (front ++ (f.record ++ f.comment)) (front.length + 12) =
      some f.centralSize :=
    zipU32_field front f.fields 3 rfl rfl (by simp [ZipFile.fields, f.disks_length])
      (by omega)
  have hplace : zipU32 (front ++ (f.record ++ f.comment)) (front.length + 16) =
      some f.centralOffset :=
    zipU32_field front f.fields 4 rfl rfl (by simp [ZipFile.fields, f.disks_length])
      (by omega)
  have hcomment : zipU16 (front ++ (f.record ++ f.comment)) (front.length + 20) =
      some ((front ++ (f.record ++ f.comment)).length - front.length - eocdSize) := by
    rw [length_append, length_append, f.length_record, Nat.add_sub_cancel_left,
      Nat.add_sub_cancel_left]
    exact zipU16_field front f.fields 5 rfl rfl (by simp [ZipFile.fields, f.disks_length])
      f.comment_lt
  rw [endAt_looks (e := f.directory) _ ⟨hsig, hcomment⟩ ⟨hcount, hbytes, hplace⟩, if_neg]
  have hplaced := f.placed
  have hbefore := f.before_lt
  simp only [ZipEnd.placeholder, ZipFile.directory, u16Sentinel, u32Sentinel, u64]
  omega

theorem looks_drop : Looks (bytes.drop n) at_ ↔ Looks bytes (n + at_) := by
  rw [Looks, Looks, zipU32_drop, zipU16_drop, length_drop, ← add_assoc,
    Nat.sub_sub bytes.length n at_]

theorem ZipFile.drop_text (f : ZipFile) :
    f.text.drop (f.before.length + 1) = f.record.tail ++ f.comment := by
  rw [ZipFile.text, ← drop_drop, drop_left]
  rfl

theorem ZipFile.clear_of_plain (f : ZipFile) (h : 'P'.toUInt8 ∉ f.record.tail ++ f.comment) :
    f.Clear := by
  intro p hp _
  apply not_looks _ hp
  rwa [f.drop_text]

theorem ZipFile.findEnd_window (f : ZipFile) (hclear : f.Clear)
    (hwindow : windowOffset ≤ f.before.length) :
    findEnd (f.text.drop windowOffset) windowOffset = some (some f.directory) := by
  have hdrop : f.text.drop windowOffset =
      f.before.drop windowOffset ++ (f.record ++ f.comment) := by
    rw [ZipFile.text, drop_append_of_le_length hwindow]
  have hfront : (f.before.drop windowOffset).length + windowOffset = f.before.length := by
    rw [length_drop]
    omega
  have hlength := f.length_text
  apply findEnd_last
  · rw [hdrop]
    exact f.endAt_record hfront
  · rw [hdrop, length_append, length_append, f.length_record]
    omega
  · intro b _ hroom
    rw [looks_drop]
    rw [length_drop, hlength] at hroom
    exact hclear _ (by omega) (by omega)

theorem ZipFile.findEnd_behind (f : ZipFile) (hclear : f.Clear)
    (hwindow : f.before.length < windowOffset) :
    findEnd (f.text.drop windowOffset) windowOffset = some none := by
  apply findEnd_none
  intro b hroom
  have hpos : 0 < eocdSize := by decide
  rw [length_drop] at hroom
  rw [looks_drop]
  exact hclear _ (by omega) (by omega)

/-- The last bytes of a file show its end record exactly if the comment leaves room for it. -/
theorem findEnd_tail (f : ZipFile) (hclear : f.Clear) :
    findEnd (f.text.drop (f.text.length - tailWindow)) (f.text.length - tailWindow) =
      some (some f.directory) ↔ eocdSize + f.comment.length ≤ tailWindow := by
  have hlength := f.length_text
  constructor
  · intro hfound
    by_contra hroom
    rw [f.findEnd_behind hclear (by omega)] at hfound
    cases hfound
  · intro _
    exact f.findEnd_window hclear (by omega)

theorem u16Sentinel_pos : 0 < u16Sentinel := by decide

theorem u32Sentinel_pos : 0 < u32Sentinel := by decide

def emptyFile (n : Nat) (h : n < 2 ^ 16) : ZipFile where
  before := []
  disks := [0, 0, 0, 0, 0, 0]
  entries := 0
  centralSize := 0
  centralOffset := 0
  comment := List.replicate n 0
  disks_length := rfl
  entries_lt := u16Sentinel_pos
  centralSize_lt := u32Sentinel_pos
  centralOffset_lt := u32Sentinel_pos
  comment_lt := by rwa [length_replicate]
  placed := le_rfl
  before_lt := by decide

theorem findEnd_decides_empty :
    ∃ e : ZipEnd, e.At (emptyFile 0 (by decide)).text 0 ∧
      findEnd (emptyFile 0 (by decide)).text 7 = some (
        if e.placeholder ∨ e.centralOffset + e.centralSize > 7 + 0 then none else some e) :=
  (findEnd_decides (emptyFile 0 (by decide)).text 7 (by decide)).2 0 (by decide) (by decide)
    fun b hb hroom => absurd hroom (by simp [ZipFile.length_text, emptyFile]; omega)

theorem emptyFile_plain (h : n < 2 ^ 16) (hn : 'P'.toUInt8 ∉ u16Bytes n) :
    'P'.toUInt8 ∉ (emptyFile n h).record.tail ++ (emptyFile n h).comment := by
  have hrecord : (emptyFile n h).record.tail =
      (u32Bytes sigEocd).tail ++ List.replicate 16 0 ++ u16Bytes n := by
    rw [ZipFile.record, ZipFile.fields]
    simp only [emptyFile, length_replicate]
    rfl
  intro hmem
  rcases mem_append.mp hmem with hmem | hmem
  · rw [hrecord] at hmem
    rcases mem_append.mp hmem with hmem | hmem
    · exact absurd hmem (by decide)
    · exact hn hmem
  · exact absurd (mem_replicate.mp hmem).2 (by decide)

theorem findEnd_tail_empty :
    findEnd ((emptyFile 3 (by decide)).text.drop
        ((emptyFile 3 (by decide)).text.length - tailWindow))
      ((emptyFile 3 (by decide)).text.length - tailWindow) = some (some ⟨0, 0, 0⟩) :=
  (findEnd_tail (emptyFile 3 (by decide))
    (ZipFile.clear_of_plain _ (emptyFile_plain _ (by decide)))).mpr (by decide)

/-- With the longest comment, the window begins in the last byte of the record. -/
theorem comment_outruns_window :
    let f := emptyFile 65535 (by decide)
    f.Clear ∧
      findEnd (f.text.drop (f.text.length - tailWindow)) (f.text.length - tailWindow) =
        some none := by
  intro f
  have hclear : f.Clear := f.clear_of_plain (emptyFile_plain (by decide) (by decide))
  have hcomment : f.comment.length = 65535 := length_replicate
  refine ⟨hclear, f.findEnd_behind hclear ?_⟩
  rw [f.length_text, hcomment]
  change 0 < 0 + eocdSize + 65535 - tailWindow
  decide

end Inkwell.Zip
