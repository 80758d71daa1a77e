import Inkwell.Codec.Zip.Tail

namespace Inkwell.Zip
open List hiding after

/-- A member with all that is written of it, the fields that are not read being anything of their
length. -/
structure Member where
  name : Bytes
  localFields : Bytes
  localExtra : Bytes
  data : Bytes
  trailer : Bytes
  made : Bytes
  flags : Nat
  method : Nat
  stamp : Bytes
  crc32 : Nat
  uncompressedSize : Nat
  attributes : Bytes
  centralExtra : Bytes
  comment : Bytes
  name_lt : name.length < nameMax
  name_text : 0 ∉ name
  localFields_length : localFields.length = 22
  localExtra_lt : localExtra.length < 2 ^ 16
  data_lt : data.length < u32Sentinel
  made_length : made.length = 4
  flags_lt : flags < 2 ^ 16
  method_lt : method < 2 ^ 16
  stamp_length : stamp.length = 4
  crc32_lt : crc32 < 2 ^ 32
  uncompressedSize_lt : uncompressedSize < u32Sentinel
  attributes_length : attributes.length = 8
  centralExtra_lt : centralExtra.length < 2 ^ 16
  comment_lt : comment.length < 2 ^ 16

def Member.localHeaderFields (m : Member) : List Bytes :=
  [u32Bytes sigLocal, m.localFields, u16Bytes m.name.length, u16Bytes m.localExtra.length]

def Member.localHeader (m : Member) : Bytes := m.localHeaderFields.flatten

/-- A member's header, name and extra field, its bytes, and what may follow them. -/
def Member.localRecord (m : Member) : Bytes :=
  m.localHeader ++ (m.name ++ (m.localExtra ++ (m.data ++ m.trailer)))

def Member.centralFields (m : Member) (offset : Nat) : List Bytes :=
  [u32Bytes sigCentral, m.made, u16Bytes m.flags, u16Bytes m.method, m.stamp, u32Bytes m.crc32,
    u32Bytes m.data.length, u32Bytes m.uncompressedSize, u16Bytes m.name.length,
    u16Bytes m.centralExtra.length, u16Bytes m.comment.length, m.attributes, u32Bytes offset]

def Member.centralHeader (m : Member) (offset : Nat) : Bytes := (m.centralFields offset).flatten

def Member.centralRecord (m : Member) (offset : Nat) : Bytes :=
  m.centralHeader offset ++ (m.name ++ (m.centralExtra ++ m.comment))

def centrals : Nat → List Member → Bytes
  | _, [] => []
  | offset, m :: ms => m.centralRecord offset ++ centrals (offset + m.localRecord.length) ms

structure Archive where
  lead : Bytes
  members : List Member
  disks : Bytes
  comment : Bytes
  disks_length : disks.length = 6
  members_lt : members.length < u16Sentinel
  central_lt : (centrals lead.length members).length < u32Sentinel
  offset_lt : lead.length + (members.flatMap Member.localRecord).length < u32Sentinel
  comment_lt : comment.length < 2 ^ 16

def Archive.locals (a : Archive) : Bytes := a.members.flatMap Member.localRecord

def Archive.central (a : Archive) : Bytes := centrals a.lead.length a.members

def Archive.file (a : Archive) : ZipFile where
  before := a.lead ++ (a.locals ++ a.central)
  disks := a.disks
  entries := a.members.length
  centralSize := a.central.length
  centralOffset := a.lead.length + a.locals.length
  comment := a.comment
  disks_length := a.disks_length
  entries_lt := a.members_lt
  centralSize_lt := a.central_lt
  centralOffset_lt := a.offset_lt
  comment_lt := a.comment_lt
  placed := by simp only [length_append]; omega
  before_lt := by
    have hcentral := a.central_lt
    have hoffset := a.offset_lt
    unfold u32Sentinel at hcentral hoffset
    simp only [Archive.locals, Archive.central, length_append]
    omega

def Member.entry (m : Member) (offset : Nat) : ZipEntry :=
  { name := m.name, flags := m.flags, method := m.method, crc32 := m.crc32,
    compressedSize := m.data.length, uncompressedSize := m.uncompressedSize,
    localHeaderOffset := offset }

def HasBasename (name basename : Bytes) : Prop :=
  '/'.toUInt8 ∉ basename ∧ (name = basename ∨ ∃ dir, name = dir ++ '/'.toUInt8 :: basename)

theorem zipBasename_eq_iff : zipBasename name = basename ↔ HasBasename name basename := by
  have hkeep (text : Bytes) (h : '/'.toUInt8 ∉ text) : ∀ c ∈ text.reverse, (c != '/'.toUInt8) := by
    intro c hc
    rw [bne_iff_ne]
    rintro rfl
    exact h (mem_reverse.mp hc)
  constructor
  · rintro rfl
    have hsplit := takeWhile_append_dropWhile (p := (· != '/'.toUInt8)) (l := name.reverse)
    refine ⟨?_, ?_⟩
    · intro hmem
      have := mem_takeWhile_imp (mem_reverse.mp hmem)
      simp at this
    · cases hdrop : name.reverse.dropWhile (· != '/'.toUInt8) with
      | nil =>
        left
        rw [hdrop, append_nil] at hsplit
        rw [zipBasename, hsplit, reverse_reverse]
      | cons c dir =>
        right
        have hslash : c = '/'.toUInt8 := by
          have := head?_dropWhile_not (· != '/'.toUInt8) name.reverse
          rw [hdrop] at this
          simpa using this
        refine ⟨dir.reverse, ?_⟩
        rw [hdrop, hslash] at hsplit
        calc name = name.reverse.reverse := (reverse_reverse name).symm
          _ = dir.reverse ++ '/'.toUInt8 :: zipBasename name := by
            conv_lhs => rw [← hsplit]
            simp [zipBasename]
  · rintro ⟨hplain, rfl | ⟨_, rfl⟩⟩
    · rw [zipBasename, takeWhile_eq_self_iff.mpr (hkeep _ hplain), reverse_reverse]
    · rw [zipBasename, reverse_append, reverse_cons, append_assoc,
        takeWhile_append_of_pos (hkeep _ hplain)]
      simp

theorem Member.length_centralHeader (m : Member) (offset : Nat) :
    (m.centralHeader offset).length = centralHeaderSize := by
  simp [Member.centralHeader, Member.centralFields, m.made_length, m.stamp_length,
    m.attributes_length, centralHeaderSize]

theorem Member.length_localHeader (m : Member) : m.localHeader.length = localHeaderSize := by
  simp [Member.localHeader, Member.localHeaderFields, m.localFields_length, localHeaderSize]

theorem Member.central_u16 (m : Member) (offset : Nat) (rest : Bytes) (i at_ n : Nat)
    (hi : (m.centralFields offset)[i]? = some (u16Bytes n))
    (hat : at_ = (((m.centralFields offset).take i).map List.length).sum) (hn : n < 2 ^ 16) :
    zipU16 (m.centralHeader offset ++ rest) at_ = some n :=
  zipU16_field [] _ i rfl hi (hat.trans (zero_add _).symm) hn

theorem Member.central_u32 (m : Member) (offset : Nat) (rest : Bytes) (i at_ n : Nat)
    (hi : (m.centralFields offset)[i]? = some (u32Bytes n))
    (hat : at_ = (((m.centralFields offset).take i).map List.length).sum) (hn : n < 2 ^ 32) :
    zipU32 (m.centralHeader offset ++ rest) at_ = some n :=
  zipU32_field [] _ i rfl hi (hat.trans (zero_add _).symm) hn

theorem Member.central_lengths (m : Member) (offset : Nat) (rest : Bytes) :
    zipU32 (m.centralHeader offset ++ rest) 0 = some sigCentral ∧
      zipU16 (m.centralHeader offset ++ rest) 28 = some m.name.length ∧
      zipU16 (m.centralHeader offset ++ rest) 30 = some m.centralExtra.length ∧
      zipU16 (m.centralHeader offset ++ rest) 32 = some m.comment.length := by
  have hname := m.name_lt
  unfold nameMax at hname
  refine ⟨?_, ?_, ?_, ?_⟩
  · exact m.central_u32 offset rest 0 _ _ rfl rfl (by decide)
  · exact m.central_u16 offset rest 8 _ _ rfl
      (by simp [Member.centralFields, m.made_length, m.stamp_length]) (by omega)
  · exact m.central_u16 offset rest 9 _ _ rfl
      (by simp [Member.centralFields, m.made_length, m.stamp_length]) m.centralExtra_lt
  · exact m.central_u16 offset rest 10 _ _ rfl
      (by simp [Member.centralFields, m.made_length, m.stamp_length]) m.comment_lt

theorem Member.entryAt_header (m : Member) (hoffset : offset < u32Sentinel) (rest : Bytes) :
    entryAt (m.centralHeader offset ++ rest) m.name = some (m.entry offset) := by
  have hdata := m.data_lt
  have hsize := m.uncompressedSize_lt
  unfold u32Sentinel at hdata hsize hoffset
  have hflags := m.central_u16 offset rest 2 8 _ rfl
    (by simp [Member.centralFields, m.made_length]) m.flags_lt
  have hmethod := m.central_u16 offset rest 3 10 _ rfl
    (by simp [Member.centralFields, m.made_length]) m.method_lt
  have hcrc := m.central_u32 offset rest 5 16 _ rfl
    (by simp [Member.centralFields, m.made_length, m.stamp_length]) m.crc32_lt
  have hcompressed := m.central_u32 offset rest 6 20 m.data.length rfl
    (by simp [Member.centralFields, m.made_length, m.stamp_length]) (by omega)
  have huncompressed := m.central_u32 offset rest 7 24 m.uncompressedSize rfl
    (by simp [Member.centralFields, m.made_length, m.stamp_length]) (by omega)
  have hplace := m.central_u32 offset rest 12 42 offset rfl
    (by simp [Member.centralFields, m.made_length, m.stamp_length, m.attributes_length]) (by omega)
  simp only [entryAt, hflags, hmethod, hcrc, hcompressed, huncompressed, hplace,
    Option.bind_eq_bind, Option.bind_some, Option.pure_def]
  rfl

theorem memberFrom_record (m : Member) (hoffset : offset < u32Sentinel) (entries : Nat)
    (rest : Bytes) :
    memberFrom basename (entries + 1) (m.centralRecord offset ++ rest) =
      if zipBasename m.name = basename then some (.found, m.entry offset)
      else memberFrom basename entries rest := by
  have htext : m.centralRecord offset ++ rest =
      m.centralHeader offset ++ (m.name ++ (m.centralExtra ++ (m.comment ++ rest))) := by
    simp only [Member.centralRecord, append_assoc]
  have hheader := m.length_centralHeader offset
  obtain ⟨hsig, hname, hextra, hcomment⟩ :=
    m.central_lengths offset (m.name ++ (m.centralExtra ++ (m.comment ++ rest)))
  have hentry := m.entryAt_header hoffset (m.name ++ (m.centralExtra ++ (m.comment ++ rest)))
  have hstored : ((m.centralHeader offset ++ (m.name ++ (m.centralExtra ++ (m.comment ++
      rest)))).drop centralHeaderSize).take m.name.length = m.name := by
    rw [← hheader, drop_left, take_left]
  have hbehind : (m.centralHeader offset ++ (m.name ++ (m.centralExtra ++ (m.comment ++
      rest)))).drop (centralHeaderSize + m.name.length + m.centralExtra.length + m.comment.length) =
      rest := by
    rw [← hheader, ← drop_drop, ← drop_drop, ← drop_drop, drop_left,
      drop_left, drop_left, drop_left]
  have hplain : (m.entry offset).placeholder = false := by
    have hdata := m.data_lt.ne
    have hsize := m.uncompressedSize_lt.ne
    simp [ZipEntry.placeholder, Member.entry, hdata, hsize, hoffset.ne]
  have hlong : ¬(m.centralHeader offset ++ (m.name ++ (m.centralExtra ++ (m.comment ++
      rest)))).length < centralHeaderSize := by
    rw [length_append, hheader]
    omega
  have hwhole : ¬centralHeaderSize + m.name.length + m.centralExtra.length + m.comment.length >
      (m.centralHeader offset ++ (m.name ++ (m.centralExtra ++ (m.comment ++ rest)))).length := by
    simp only [length_append, hheader]
    omega
  rw [htext, memberFrom, if_neg hlong]
  simp only [hsig, hname, hextra, hcomment, hstored, hentry, hplain, hbehind,
    storedText_eq m.name_text, m.name_lt, Option.bind_eq_bind, Option.bind_some, Option.pure_def,
    ne_eq, not_true_eq_false, if_false, if_neg hwhole, true_and]
  rfl

theorem memberFrom_first (before : List Member) (m : Member) (after : List Member)
    (hbound : offset + ((before ++ m :: after).flatMap Member.localRecord).length < u32Sentinel)
    (hbefore : ∀ x ∈ before, zipBasename x.name ≠ basename) (hm : zipBasename m.name = basename) :
    memberFrom basename (before ++ m :: after).length (centrals offset (before ++ m :: after)) =
      some (.found, m.entry (offset + (before.flatMap Member.localRecord).length)) := by
  induction before generalizing offset with
  | nil =>
    rw [nil_append, length_cons, centrals, memberFrom_record m (by omega), if_pos hm]
    rfl
  | cons x before ih =>
    rw [cons_append, flatMap_cons, length_append] at hbound
    have hbound : offset + x.localRecord.length +
        ((before ++ m :: after).flatMap Member.localRecord).length < u32Sentinel := by
      omega
    have hrest := ih hbound fun y hy => hbefore y (mem_cons_of_mem _ hy)
    rw [cons_append, length_cons, centrals, memberFrom_record x (by omega),
      if_neg (hbefore x (mem_cons_self)), hrest, flatMap_cons, length_append, add_assoc]

theorem memberFrom_none (ms : List Member)
    (hbound : offset + (ms.flatMap Member.localRecord).length < u32Sentinel)
    (hnone : ∀ x ∈ ms, zipBasename x.name ≠ basename) :
    memberFrom basename ms.length (centrals offset ms) = some (.absent, {}) := by
  induction ms generalizing offset with
  | nil => rfl
  | cons x _ ih =>
    rw [flatMap_cons, length_append] at hbound
    rw [length_cons, centrals, memberFrom_record x (by omega), if_neg (hnone x (mem_cons_self))]
    exact ih (by omega) fun y hy => hnone y (mem_cons_of_mem _ hy)

def Member.dataStart (m : Member) (offset : Nat) : Nat :=
  offset + localHeaderSize + m.name.length + m.localExtra.length

theorem Member.localDataStart_header (m : Member) (hoffset : offset < u32Sentinel) (rest : Bytes) :
    localDataStart (m.localHeader ++ rest) (m.entry offset) = some (some (m.dataStart offset)) := by
  have hname := m.name_lt
  have hextra := m.localExtra_lt
  unfold nameMax at hname
  unfold u32Sentinel at hoffset
  have hsig : zipU32 (m.localHeader ++ rest) 0 = some sigLocal :=
    zipU32_field [] m.localHeaderFields 0 rfl rfl rfl (by decide)
  have hnameLen : zipU16 (m.localHeader ++ rest) 26 = some m.name.length :=
    zipU16_field [] m.localHeaderFields 2 rfl rfl
      (by simp [Member.localHeaderFields, m.localFields_length]) (by omega)
  have hextraLen : zipU16 (m.localHeader ++ rest) 28 = some m.localExtra.length :=
    zipU16_field [] m.localHeaderFields 3 rfl rfl
      (by simp [Member.localHeaderFields, m.localFields_length]) hextra
  have hlong : ¬(m.localHeader ++ rest).length < localHeaderSize := by
    rw [length_append, m.length_localHeader]
    omega
  have hplace : u64 (offset + localHeaderSize + m.name.length + m.localExtra.length) =
      offset + localHeaderSize + m.name.length + m.localExtra.length := by
    unfold u64 localHeaderSize
    omega
  rw [localDataStart, if_neg hlong]
  simp only [hsig, hnameLen, hextraLen, Option.bind_eq_bind, Option.bind_some, Option.pure_def,
    ne_eq, not_true_eq_false, if_false, Member.entry, hplace, Member.dataStart]

def Archive.offset (a : Archive) (before : List Member) : Nat :=
  a.lead.length + (before.flatMap Member.localRecord).length

theorem Archive.text_at (a : Archive) (hmembers : a.members = before ++ m :: after) :
    ∃ front rest, a.file.text = front ++ (m.localRecord ++ rest) ∧
      front.length = a.offset before := by
  refine ⟨a.lead ++ before.flatMap Member.localRecord, after.flatMap Member.localRecord ++
    (a.central ++ (a.file.record ++ a.comment)), ?_, length_append⟩
  have hlocals : a.locals = before.flatMap Member.localRecord ++
      (m.localRecord ++ after.flatMap Member.localRecord) := by
    rw [Archive.locals, hmembers, flatMap_append, flatMap_cons]
  change a.lead ++ (a.locals ++ a.central) ++ (a.file.record ++ a.comment) = _
  rw [hlocals]
  simp only [append_assoc]

theorem Archive.offset_bound (a : Archive) (hmembers : a.members = before ++ m :: after) :
    a.offset before < u32Sentinel := by
  have hbound := a.offset_lt
  rw [hmembers, flatMap_append, length_append] at hbound
  rw [Archive.offset]
  omega

theorem Archive.localDataStart_at (a : Archive) (hmembers : a.members = before ++ m :: after)
    (hn : localHeaderSize ≤ n) :
    localDataStart ((a.file.text.drop (a.offset before)).take n) (m.entry (a.offset before)) =
      some (some (m.dataStart (a.offset before))) := by
  obtain ⟨_, _, htext, hfront⟩ := a.text_at hmembers
  have hheader := m.length_localHeader
  rw [htext, ← hfront, drop_left, Member.localRecord, append_assoc, take_append,
    hheader, take_of_length_le (by omega), hfront]
  exact m.localDataStart_header (a.offset_bound hmembers) _

theorem Archive.data_at (a : Archive) (hmembers : a.members = before ++ m :: after) :
    (a.file.text.drop (m.dataStart (a.offset before))).take m.data.length = m.data := by
  obtain ⟨front, rest, htext, hfront⟩ := a.text_at hmembers
  have hstart : m.dataStart (a.offset before) =
      (front ++ (m.localHeader ++ (m.name ++ m.localExtra))).length := by
    simp only [Member.dataStart, length_append, m.length_localHeader, hfront]
    omega
  have hsplit : a.file.text = (front ++ (m.localHeader ++ (m.name ++ m.localExtra))) ++
      (m.data ++ (m.trailer ++ rest)) := by
    rw [htext, Member.localRecord]
    simp only [append_assoc]
  rw [hstart, hsplit, drop_left, take_left]

theorem Archive.central_at (a : Archive) :
    (a.file.text.drop a.file.centralOffset).take a.file.centralSize = a.central := by
  have htext :
      a.file.text = (a.lead ++ a.locals) ++ (a.central ++ (a.file.record ++ a.comment)) := by
    change a.lead ++ (a.locals ++ a.central) ++ (a.file.record ++ a.comment) = _
    simp only [append_assoc]
  have hoffset : a.file.centralOffset = (a.lead ++ a.locals).length := length_append.symm
  rw [htext, hoffset, drop_left]
  exact take_left

theorem Archive.findMember_first (a : Archive) (hmembers : a.members = before ++ m :: after)
    (hbasename : basename ≠ []) (hbefore : ∀ x ∈ before, ¬HasBasename x.name basename)
    (hm : HasBasename m.name basename) :
    findMember a.central a.file.entries basename = some (.found, m.entry (a.offset before)) := by
  have hbound := a.offset_lt
  rw [hmembers] at hbound
  change findMember (centrals a.lead.length a.members) a.members.length basename = _
  rw [findMember, if_neg hbasename, hmembers]
  apply memberFrom_first before m after hbound
  · intro x hx
    exact fun h => hbefore x hx (zipBasename_eq_iff.mp h)
  · exact zipBasename_eq_iff.mpr hm

theorem Archive.findMember_absent (a : Archive) (hbasename : basename ≠ []) :
    findMember a.central a.file.entries basename = some (.absent, {}) ↔
      ∀ m ∈ a.members, ¬HasBasename m.name basename := by
  constructor
  · intro habsent m hm hname
    have hsome : (a.members.find? (zipBasename ·.name = basename)).isSome :=
      find?_isSome.mpr ⟨m, hm, decide_eq_true (zipBasename_eq_iff.mpr hname)⟩
    obtain ⟨_, hfind⟩ := Option.isSome_iff_exists.mp hsome
    obtain ⟨hm', _, _, hmembers, hbefore⟩ := find?_eq_some_iff_append.mp hfind
    simp only [decide_eq_true_eq, Bool.not_eq_true', decide_eq_false_iff_not,
      zipBasename_eq_iff] at hm' hbefore
    rw [a.findMember_first hmembers hbasename hbefore hm'] at habsent
    cases habsent
  · intro hnone
    rw [findMember, if_neg hbasename]
    apply memberFrom_none a.members a.offset_lt
    intro x hx
    exact fun h => hnone x hx (zipBasename_eq_iff.mp h)

theorem Archive.centralSlice_window (a : Archive)
    (h : centralSlice a.file.directory (a.file.text.drop windowOffset) windowOffset = some slice) :
    slice = a.central := by
  unfold centralSlice at h
  split at h
  · cases h
  · rename_i hplace
    dsimp only at h
    split at h
    · cases h
    · cases h
      rw [drop_drop, Nat.add_sub_cancel' (le_of_not_gt hplace)]
      exact a.central_at

/-- From any window that holds the end record: where the directory is, the directory, the first
member of a name, and where its bytes begin. -/
theorem archive_read (a : Archive) (hclear : a.file.Clear)
    (hwindow : windowOffset ≤ a.file.before.length) (hbasename : basename ≠ []) :
    findEnd (a.file.text.drop windowOffset) windowOffset = some (some a.file.directory) ∧
    (∀ central, centralSlice a.file.directory (a.file.text.drop windowOffset) windowOffset =
      some central → central = a.central) ∧
    (a.file.text.drop a.file.centralOffset).take a.file.centralSize = a.central ∧
    (∀ before m after, a.members = before ++ m :: after →
      (∀ x ∈ before, ¬HasBasename x.name basename) → HasBasename m.name basename →
      findMember a.central a.file.entries basename = some (.found, m.entry (a.offset before)) ∧
      (∀ n ≥ localHeaderSize,
        localDataStart ((a.file.text.drop (a.offset before)).take n) (m.entry (a.offset before)) =
          some (some (m.dataStart (a.offset before)))) ∧
      (a.file.text.drop (m.dataStart (a.offset before))).take m.data.length = m.data) ∧
    (findMember a.central a.file.entries basename = some (.absent, {}) ↔
      ∀ m ∈ a.members, ¬HasBasename m.name basename) := by
  refine ⟨a.file.findEnd_window hclear hwindow, fun _ h => a.centralSlice_window h, a.central_at,
    ?_, a.findMember_absent hbasename⟩
  intro _ m _ hmembers hbefore hm
  refine ⟨a.findMember_first hmembers hbasename hbefore hm, ?_, a.data_at hmembers⟩
  intro n hn
  exact a.localDataStart_at hmembers hn

def storedMember : Member where
  name := ['m'.toUInt8]
  localFields := List.replicate 22 0
  localExtra := []
  data := [7]
  trailer := []
  made := List.replicate 4 0
  flags := 0
  method := methodStore
  stamp := List.replicate 4 0
  crc32 := 0x1CB4CF94
  uncompressedSize := 1
  attributes := List.replicate 8 0
  centralExtra := []
  comment := []
  name_lt := by decide
  name_text := by decide
  localFields_length := rfl
  localExtra_lt := by decide
  data_lt := by decide
  made_length := rfl
  flags_lt := by decide
  method_lt := by decide
  stamp_length := rfl
  crc32_lt := by decide
  uncompressedSize_lt := by decide
  attributes_length := rfl
  centralExtra_lt := by decide
  comment_lt := by decide

def storedArchive (comment : Bytes) (h : comment.length < 2 ^ 16) : Archive where
  lead := []
  members := [storedMember]
  disks := List.replicate 6 0
  comment := comment
  disks_length := rfl
  members_lt := by decide
  central_lt := by decide
  offset_lt := by decide
  comment_lt := h

theorem archive_read_stored :
    let a := storedArchive [] (by decide)
    findMember a.central a.file.entries ['m'.toUInt8] = some (.found, storedMember.entry 0) ∧
      (a.file.text.drop 31).take 1 = [7] := by
  intro a
  have hclear : a.file.Clear := a.file.clear_of_plain (by decide)
  obtain ⟨-, -, -, hfound, -⟩ := archive_read a hclear
    (Nat.zero_le _ : 0 ≤ a.file.before.length) (by decide : ['m'.toUInt8] ≠ [])
  obtain ⟨hmember, -, hdata⟩ := hfound [] storedMember [] rfl nofun ⟨by decide, .inl rfl⟩
  exact ⟨hmember, hdata⟩

/-- With its length, as the end record has it, the comment spells another signature. -/
def forgedComment : Bytes :=
  [5, 6] ++ (List.replicate 16 0 ++ (u16Bytes 19260 ++ List.replicate 19260 0))

theorem length_forgedComment : forgedComment.length = 19280 := by
  rw [forgedComment, length_append, length_append, length_append,
    length_replicate, length_replicate]
  rfl

theorem forgedComment_plain : 'P'.toUInt8 ∉ forgedComment := by
  intro hmem
  rw [forgedComment, ← append_assoc, ← append_assoc] at hmem
  rcases mem_append.mp hmem with hmem | hmem
  · exact absurd hmem (by decide)
  · exact absurd (mem_replicate.mp hmem).2 (by decide)

def forgedArchive : Archive := storedArchive forgedComment (by rw [length_forgedComment]; decide)

def forgedFile : ZipFile where
  before := forgedArchive.file.before ++ forgedArchive.file.record.take 20
  disks := List.replicate 6 0
  entries := 0
  centralSize := 0
  centralOffset := 0
  comment := List.replicate 19260 0
  disks_length := rfl
  entries_lt := u16Sentinel_pos
  centralSize_lt := u32Sentinel_pos
  centralOffset_lt := u32Sentinel_pos
  comment_lt := by rw [length_replicate]; decide
  placed := Nat.zero_le _
  before_lt := by decide

theorem forgedFile_record : forgedFile.record =
    u16Bytes 19280 ++ ([5, 6] ++ (List.replicate 16 0 ++ u16Bytes 19260)) := by
  have hlength : forgedFile.comment.length = 19260 := length_replicate
  rw [ZipFile.record, ZipFile.fields, hlength]
  rfl

theorem forgedFile_text : forgedFile.text = forgedArchive.file.text := by
  have hlast : forgedArchive.file.record.drop 20 = u16Bytes 19280 := by
    have hlength : forgedArchive.file.comment.length = 19280 := length_forgedComment
    rw [ZipFile.record, ZipFile.fields, hlength]
    rfl
  have hrecord :
      forgedArchive.file.record = forgedArchive.file.record.take 20 ++ u16Bytes 19280 := by
    rw [← hlast, take_append_drop]
  have hcomment : forgedArchive.file.comment = forgedComment := rfl
  have hzeros : forgedFile.comment = List.replicate 19260 0 := rfl
  have hbefore : forgedFile.before =
      forgedArchive.file.before ++ forgedArchive.file.record.take 20 := rfl
  rw [ZipFile.text, ZipFile.text, hbefore, forgedFile_record, hzeros, hcomment, forgedComment]
  conv_rhs => rw [hrecord]
  simp only [append_assoc]

theorem forgedFile_clear : forgedFile.Clear := by
  apply forgedFile.clear_of_plain
  rw [forgedFile_record]
  intro hmem
  rcases mem_append.mp hmem with hmem | hmem
  · exact absurd hmem (by decide)
  · exact absurd (mem_replicate.mp hmem).2 (by decide)

/-- The last two bytes of the end record and the comment look like another one, and the member is
reported absent. -/
theorem record_begins_in_record :
    let a := forgedArchive
    (∀ p, a.file.before.length + eocdSize ≤ p → ¬Looks a.file.text p) ∧
      HasBasename storedMember.name ['m'.toUInt8] ∧ storedMember ∈ a.members ∧
      findEnd a.file.text 0 = some (some ⟨0, 0, 0⟩) ∧
      findMember ((a.file.text.drop 0).take 0) 0 ['m'.toUInt8] = some (.absent, {}) := by
  have hfound := forgedFile.findEnd_window forgedFile_clear (Nat.zero_le _)
  rw [forgedFile_text, drop_zero] at hfound
  refine ⟨?_, ⟨by decide, .inl rfl⟩, mem_singleton.mpr rfl, hfound, ?_⟩
  · intro p hp
    apply not_looks _ hp
    exact forgedComment_plain
  · rfl

end Inkwell.Zip
