import Mathlib.Algebra.Ring.Nat
import Mathlib.Tactic.Common
import Inkwell.Library.Bytes

namespace Inkwell.Zip
open List

def tailWindow : Nat := 65536
def localHeaderSize : Nat := 30
def nameMax : Nat := 96
def eocdSize : Nat := 22
def centralHeaderSize : Nat := 46

def sigEocd : Nat := 0x06054B50
def sigCentral : Nat := 0x02014B50
def sigLocal : Nat := 0x04034B50

/-- What a zip64 file has in a field whose value is elsewhere. -/
def u16Sentinel : Nat := 0xFFFF
def u32Sentinel : Nat := 0xFFFFFFFF

def methodStore : Nat := 0
def methodDeflate : Nat := 8

def u64 (n : Nat) : Nat := n % 2 ^ 64

/-- Two bytes at `at_`, the low one first; no answer to a read outside of the bytes. -/
def zipU16 (bytes : Bytes) (at_ : Nat) : Option Nat := do
  let low ← bytes[at_]?
  let high ← bytes[at_ + 1]?
  return low.toNat + high.toNat * 256

def zipU32 (bytes : Bytes) (at_ : Nat) : Option Nat := do
  let low ← zipU16 bytes at_
  let high ← zipU16 bytes (at_ + 2)
  return low + high * 65536

def zipBasename (name : Bytes) : Bytes := (name.reverse.takeWhile (· != '/'.toUInt8)).reverse

structure ZipEnd where
  centralOffset : Nat
  centralSize : Nat
  entries : Nat
  deriving DecidableEq

structure ZipEntry where
  name : Bytes := []
  flags : Nat := 0
  method : Nat := 0
  crc32 : Nat := 0
  compressedSize : Nat := 0
  uncompressedSize : Nat := 0
  localHeaderOffset : Nat := 0
  deriving DecidableEq

inductive Look
  | elsewhere
  | record (found : Option ZipEnd)
  deriving DecidableEq

def endAt (window : Bytes) (windowOffset back : Nat) : Option Look := do
  if (← zipU32 window back) ≠ sigEocd then return .elsewhere
  else if (← zipU16 window (back + 20)) ≠ window.length - back - eocdSize then return .elsewhere
  else
    let entries ← zipU16 window (back + 10)
    let centralSize ← zipU32 window (back + 12)
    let centralOffset ← zipU32 window (back + 16)
    if entries = u16Sentinel ∨ centralSize = u32Sentinel ∨ centralOffset = u32Sentinel then
      return .record none
    else if centralOffset + centralSize > u64 (windowOffset + back) then return .record none
    else return .record (some { centralOffset, centralSize, entries })

@[grind =] def scanEnd (window : Bytes) (windowOffset : Nat) : (back : Nat) → Option (Option ZipEnd)
  | 0 =>
    match endAt window windowOffset 0 with
    | none => none
    | some .elsewhere => some none
    | some (.record found) => some found
  | back + 1 =>
    match endAt window windowOffset (back + 1) with
    | none => none
    | some .elsewhere => scanEnd window windowOffset back
    | some (.record found) => some found

def findEnd (window : Bytes) (windowOffset : Nat) : Option (Option ZipEnd) :=
  if window.length < eocdSize then some none
  else scanEnd window windowOffset (window.length - eocdSize)

def centralSlice (e : ZipEnd) (window : Bytes) (windowOffset : Nat) : Option Bytes :=
  if e.centralOffset < windowOffset then none
  else
    let into := e.centralOffset - windowOffset
    if into > window.length ∨ e.centralSize > window.length - into then none
    else some ((window.drop into).take e.centralSize)

inductive Search
  | found | absent | malformed
  deriving DecidableEq

/-- The entry whose central header this is, under the name stored with it. -/
def entryAt (header name : Bytes) : Option ZipEntry := do
  let flags ← zipU16 header 8
  let method ← zipU16 header 10
  let crc32 ← zipU32 header 16
  let compressedSize ← zipU32 header 20
  let uncompressedSize ← zipU32 header 24
  let localHeaderOffset ← zipU32 header 42
  return { name, flags, method, crc32, compressedSize, uncompressedSize, localHeaderOffset }

/-- An entry with its sizes or its place in a zip64 record. -/
def ZipEntry.placeholder (entry : ZipEntry) : Bool :=
  entry.localHeaderOffset == u32Sentinel || entry.compressedSize == u32Sentinel ||
    entry.uncompressedSize == u32Sentinel

/-- The text in the bytes of a stored name, which a NUL among them ends. -/
def storedText (name : Bytes) : Bytes := name.takeWhile (· != 0)

@[grind =] def memberFrom (basename : Bytes) :
    (entries : Nat) → (left : Bytes) → Option (Search × ZipEntry)
  | 0, _ => some (.absent, {})
  | entries + 1, left =>
    if left.length < centralHeaderSize then some (.malformed, {})
    else do
      if (← zipU32 left 0) ≠ sigCentral then return (.malformed, {})
      else
        let nameLen ← zipU16 left 28
        let extraLen ← zipU16 left 30
        let commentLen ← zipU16 left 32
        let entrySize := centralHeaderSize + nameLen + extraLen + commentLen
        let name := (left.drop centralHeaderSize).take nameLen
        if entrySize > left.length then return (.malformed, {})
        else if nameLen < nameMax ∧ zipBasename (storedText name) = basename then
          let entry ← entryAt left name
          return (if entry.placeholder then .malformed else .found, entry)
        else memberFrom basename entries (left.drop entrySize)

def findMember (central : Bytes) (entries : Nat) (basename : Bytes) : Option (Search × ZipEntry) :=
  if basename = [] then some (.absent, {}) else memberFrom basename entries central

def localDataStart (header : Bytes) (entry : ZipEntry) : Option (Option Nat) :=
  if header.length < localHeaderSize then some none
  else do
    if (← zipU32 header 0) ≠ sigLocal then return none
    else
      let nameLen ← zipU16 header 26
      let extraLen ← zipU16 header 28
      return some (u64 (entry.localHeaderOffset + localHeaderSize + nameLen + extraLen))

theorem zipU16_read (bytes : Bytes) (at_ : Nat) (h : at_ + 2 ≤ bytes.length) :
    ∃ n, zipU16 bytes at_ = some n := by
  have hlow : at_ < bytes.length := by omega
  have hhigh : at_ + 1 < bytes.length := by omega
  unfold zipU16
  rw [getElem?_eq_getElem hlow, getElem?_eq_getElem hhigh]
  exact ⟨_, rfl⟩

theorem zipU32_read (bytes : Bytes) (at_ : Nat) (h : at_ + 4 ≤ bytes.length) :
    ∃ n, zipU32 bytes at_ = some n := by
  obtain ⟨_, hlow⟩ := zipU16_read bytes at_ (by omega)
  obtain ⟨_, hhigh⟩ := zipU16_read bytes (at_ + 2) (by omega)
  unfold zipU32
  rw [hlow, hhigh]
  exact ⟨_, rfl⟩

theorem zipU16_lt (h : zipU16 bytes at_ = some n) : n < 2 ^ 16 := by
  simp only [zipU16, Option.bind_eq_bind, Option.pure_def, Option.bind_eq_some_iff,
    Option.some.injEq] at h
  obtain ⟨low, _, high, _, rfl⟩ := h
  have hlow := low.toNat_lt
  have hhigh := high.toNat_lt
  omega

theorem zipU32_lt (h : zipU32 bytes at_ = some n) : n < 2 ^ 32 := by
  simp only [zipU32, Option.bind_eq_bind, Option.pure_def, Option.bind_eq_some_iff,
    Option.some.injEq] at h
  obtain ⟨_, hlow, _, hhigh, rfl⟩ := h
  have hlow := zipU16_lt hlow
  have hhigh := zipU16_lt hhigh
  omega

theorem entryAt_read (h : centralHeaderSize ≤ header.length) :
    ∃ entry, entryAt header name = some entry := by
  unfold centralHeaderSize at h
  obtain ⟨_, hflags⟩ := zipU16_read header 8 (by omega)
  obtain ⟨_, hmethod⟩ := zipU16_read header 10 (by omega)
  obtain ⟨_, hcrc⟩ := zipU32_read header 16 (by omega)
  obtain ⟨_, hcompressed⟩ := zipU32_read header 20 (by omega)
  obtain ⟨_, huncompressed⟩ := zipU32_read header 24 (by omega)
  obtain ⟨_, hoffset⟩ := zipU32_read header 42 (by omega)
  unfold entryAt
  rw [hflags, hmethod, hcrc, hcompressed, huncompressed, hoffset]
  exact ⟨_, rfl⟩

theorem memberFrom_read (left : Bytes) :
    ∃ result, memberFrom basename entries left = some result := by
  induction entries generalizing left with
  | zero => exact ⟨_, rfl⟩
  | succ _ ih =>
    unfold memberFrom
    split
    · exact ⟨_, rfl⟩
    rename_i hshort
    have hheader : centralHeaderSize ≤ left.length := le_of_not_gt hshort
    unfold centralHeaderSize at hheader
    obtain ⟨_, hsig⟩ := zipU32_read left 0 (by omega)
    obtain ⟨_, hname⟩ := zipU16_read left 28 (by omega)
    obtain ⟨_, hextra⟩ := zipU16_read left 30 (by omega)
    obtain ⟨_, hcomment⟩ := zipU16_read left 32 (by omega)
    simp only [hsig, hname, hextra, hcomment, Option.bind_eq_bind, Option.bind_some,
      Option.pure_def]
    split
    · exact ⟨_, rfl⟩
    split
    · exact ⟨_, rfl⟩
    split
    · obtain ⟨_, hentry⟩ := entryAt_read hheader
      rw [hentry]
      exact ⟨_, rfl⟩
    · exact ih _

theorem findMember_read : ∃ result, findMember central entries basename = some result := by
  unfold findMember
  split
  · exact ⟨_, rfl⟩
  · exact memberFrom_read central

theorem endAt_found (h : endAt window windowOffset back = some (.record (some e))) :
    e.centralOffset + e.centralSize ≤ u64 (windowOffset + back) := by
  simp only [endAt, Option.bind_eq_bind, Option.pure_def, Option.bind_eq_some_iff] at h
  obtain ⟨_, _, h⟩ := h
  split at h
  · cases h
  obtain ⟨_, _, h⟩ := Option.bind_eq_some_iff.mp h
  split at h
  · cases h
  simp only [Option.bind_eq_some_iff] at h
  obtain ⟨_, _, _, _, _, _, h⟩ := h
  split at h
  · cases h
  split at h
  · cases h
  · rename_i hplace
    cases h
    exact le_of_not_gt hplace

theorem scanEnd_found (h : scanEnd window windowOffset back = some (some e)) :
    ∃ at_ ≤ back, e.centralOffset + e.centralSize ≤ u64 (windowOffset + at_) := by
  induction back with
  | zero =>
    unfold scanEnd at h
    split at h
    · cases h
    · cases h
    · rename_i hlook
      cases h
      exact ⟨0, le_refl 0, endAt_found hlook⟩
  | succ back ih =>
    unfold scanEnd at h
    split at h
    · cases h
    · obtain ⟨at_, hle, hplace⟩ := ih h
      exact ⟨at_, Nat.le_succ_of_le hle, hplace⟩
    · rename_i hlook
      cases h
      exact ⟨back + 1, le_rfl, endAt_found hlook⟩

theorem findEnd_found (h : findEnd window windowOffset = some (some e)) :
    ∃ back, back + eocdSize ≤ window.length ∧
      e.centralOffset + e.centralSize ≤ u64 (windowOffset + back) := by
  unfold findEnd at h
  split at h
  · cases h
  · obtain ⟨back, _, hplace⟩ := scanEnd_found h
    exact ⟨back, by omega, hplace⟩

theorem centralSlice_length (h : centralSlice e window windowOffset = some central) :
    central.length = e.centralSize := by
  unfold centralSlice at h
  split at h
  · cases h
  simp only at h
  split at h
  · cases h
  · cases h
    rw [length_take, length_drop]
    omega

theorem entryAt_name (h : entryAt header name = some entry) : entry.name = name := by
  simp only [entryAt, Option.bind_eq_bind, Option.pure_def, Option.bind_eq_some_iff,
    Option.some.injEq] at h
  obtain ⟨_, _, _, _, _, _, _, _, _, _, _, _, rfl⟩ := h
  rfl

theorem entryAt_lt (h : entryAt header name = some entry) :
    entry.compressedSize < 2 ^ 32 ∧ entry.localHeaderOffset < 2 ^ 32 := by
  simp only [entryAt, Option.bind_eq_bind, Option.pure_def, Option.bind_eq_some_iff,
    Option.some.injEq] at h
  obtain ⟨_, _, _, _, _, _, _, hsize, _, _, _, hoffset, rfl⟩ := h
  exact ⟨zipU32_lt hsize, zipU32_lt hoffset⟩

theorem zipU16_drop : zipU16 (bytes.drop n) at_ = zipU16 bytes (n + at_) := by
  simp only [zipU16, getElem?_drop, add_assoc]

theorem zipU32_drop : zipU32 (bytes.drop n) at_ = zipU32 bytes (n + at_) := by
  simp only [zipU32, zipU16_drop, add_assoc]

/-- The bytes begin with the central header of an entry and the name stored with it. -/
structure Heads (left : Bytes) (entry : ZipEntry) : Prop where
  long : centralHeaderSize + entry.name.length ≤ left.length
  signature : zipU32 left 0 = some sigCentral
  nameLen : zipU16 left 28 = some entry.name.length
  name : entry.name = (left.drop centralHeaderSize).take entry.name.length
  numbers : entryAt left entry.name = some entry

theorem memberFrom_found (h : memberFrom basename entries left = some (.found, entry)) :
    (∃ at_, Heads (left.drop at_) entry) ∧ entry.name.length < nameMax ∧
      zipBasename (storedText entry.name) = basename := by
  induction entries generalizing left with
  | zero => cases h
  | succ _ ih =>
    unfold memberFrom at h
    split at h
    · cases h
    simp only [Option.bind_eq_bind, Option.pure_def, Option.bind_eq_some_iff] at h
    obtain ⟨_, hsig, h⟩ := h
    split at h
    · cases h
    rename_i hcentral
    simp only [Option.bind_eq_some_iff] at h
    obtain ⟨nameLen, hname, _, _, _, _, h⟩ := h
    split at h
    · cases h
    split at h
    · rename_i hmatch
      obtain ⟨found, hentry, h⟩ := Option.bind_eq_some_iff.mp h
      simp only [Option.some.injEq, Prod.mk.injEq] at h
      obtain ⟨_, rfl⟩ := h
      have hstored := entryAt_name hentry
      have hlength : ((left.drop centralHeaderSize).take nameLen).length = nameLen := by
        rw [length_take, length_drop]
        omega
      have hheads : Heads left found := by
        refine ⟨?_, hsig.trans (congrArg some (not_not.mp hcentral)), ?_, ?_, hstored.symm ▸ hentry⟩
        · rw [hstored, hlength]
          omega
        · rw [hstored, hlength]
          exact hname
        · rw [hstored, hlength]
      rw [hstored, hlength]
      exact ⟨⟨0, hheads⟩, hmatch⟩
    · obtain ⟨⟨_, hheads⟩, hmatch⟩ := ih h
      rw [drop_drop] at hheads
      exact ⟨⟨_, hheads⟩, hmatch⟩

theorem findMember_found (h : findMember central entries basename = some (.found, entry)) :
    centralHeaderSize ≤ central.length ∧
      entry.compressedSize < 2 ^ 32 ∧ entry.localHeaderOffset < 2 ^ 32 := by
  unfold findMember at h
  split at h
  · cases h
  · obtain ⟨⟨_, hheads⟩, -⟩ := memberFrom_found h
    have hlong := hheads.long
    rw [length_drop] at hlong
    exact ⟨by omega, entryAt_lt hheads.numbers⟩

theorem storedText_eq (h : 0 ∉ name) : storedText name = name := by
  rw [storedText, takeWhile_eq_self_iff]
  intro c hc
  exact bne_iff_ne.mpr fun hzero => h (hzero ▸ hc)

/-- What is found is an entry of the directory, and its name ends in the basename exactly if its
last part is the same up to the first NUL; nothing outside of the directory is read. -/
theorem findMember_named (central : Bytes) (entries : Nat) (basename : Bytes) :
    (∃ result, findMember central entries basename = some result) ∧
    ∀ entry, findMember central entries basename = some (.found, entry) →
      (∃ at_, Heads (central.drop at_) entry) ∧ entry.name.length < nameMax ∧
        (zipBasename entry.name = basename ↔
          zipBasename (storedText entry.name) = zipBasename entry.name) := by
  refine ⟨findMember_read, fun entry h => ?_⟩
  unfold findMember at h
  split at h
  · cases h
  · obtain ⟨hheads, hshort, hmatch⟩ := memberFrom_found h
    rw [hmatch]
    exact ⟨hheads, hshort, eq_comm⟩

def oneEntry (name : Bytes) : Bytes :=
  [0x50, 0x4B, 1, 2] ++ replicate 24 0 ++ [.ofNat name.length] ++ replicate 17 0 ++ name

/-- `ink` is found in an entry whose stored name ends in a NUL and an `x`. -/
theorem findMember_nul :
    findMember (oneEntry [0x69, 0x6E, 0x6B, 0, 0x78]) 1 [0x69, 0x6E, 0x6B] =
      some (.found, { name := [0x69, 0x6E, 0x6B, 0, 0x78] }) := by
  decide

theorem findMember_named_ink : zipBasename [0x61, 0x2F, 0x69, 0x6E, 0x6B] = [0x69, 0x6E, 0x6B] :=
  ((findMember_named (oneEntry [0x61, 0x2F, 0x69, 0x6E, 0x6B]) 1 [0x69, 0x6E, 0x6B]).2
    { name := [0x61, 0x2F, 0x69, 0x6E, 0x6B] } (by decide)).2.2.mpr (by decide)

end Inkwell.Zip
