import NexOs.Storage.PartitionRead

/-! The records of a GUID partition table, as the writers of the storage crate
and of the host tools lay them out. -/
namespace NexOs.Storage
open List Bytes

abbrev gptEntryCount : Nat := 128
abbrev gptEntrySize : Nat := 128
abbrev gptEntrySectors : Nat := 32
abbrev gptFirstUsableLba : Nat := 34

/-- The code units of `char::encode_utf16`. -/
def utf16Units (c : Char) : List Nat :=
  if c.toNat < 0x10000 then [c.toNat]
  else [0xd800 + (c.toNat - 0x10000) / 0x400, 0xdc00 + (c.toNat - 0x10000) % 0x400]

def encodeUtf16 (name : List Char) : List Nat := name.flatMap utf16Units

/-! ## Entries -/

structure GptRow where
  typeGuid : Guid
  uniqueGuid : Guid
  firstLba : Nat
  lastLba : Nat
  name : List Char

namespace GptRow

def nameFields (name : List Char) : List (Nat × List UInt8) :=
  ((encodeUtf16 name).take 36).zipIdx.map fun p => (56 + p.2 * 2, leBytes 2 p.1)

def fields (row : GptRow) : List (Nat × List UInt8) :=
  [(0, row.typeGuid.toList), (16, row.uniqueGuid.toList), (32, leBytes 8 row.firstLba),
    (40, leBytes 8 row.lastLba)] ++ nameFields row.name

def bytes (row : GptRow) : List UInt8 := writeFields (List.replicate 128 0) row.fields

variable (row : GptRow)

theorem nameFields_range (hf : f ∈ nameFields row.name) : 56 ≤ f.1 ∧ f.1 + f.2.length ≤ 128 := by
  obtain ⟨p, hp, rfl⟩ := mem_map.mp hf
  have hlt := (mem_zipIdx hp).2.1
  have htake := length_take_le 36 (encodeUtf16 row.name)
  rw [length_leBytes]
  omega

theorem nameFields_apart : (nameFields row.name).Pairwise Apart := by
  unfold nameFields
  rw [pairwise_iff_getElem]
  intro i j hi hj hij
  simp only [getElem_map, getElem_zipIdx, Apart, length_leBytes]
  omega

theorem fields_laid : Laid 128 row.fields := by
  constructor
  · intro f hf
    rcases mem_append.mp hf with hfixed | hname
    · clear hf
      revert f
      simp
    · exact (row.nameFields_range hname).2
  · unfold fields
    rw [pairwise_append]
    refine ⟨by simp [Apart], row.nameFields_apart, ?_⟩
    intro f hf g hg
    apply Or.inl
    apply le_trans _ (row.nameFields_range hg).1
    revert f
    simp

@[simp] theorem length_bytes : row.bytes.length = 128 := row.fields_laid.length_zeros

theorem guidAt_type : guidAt row.bytes 0 = row.typeGuid := by
  apply guidAt_eq
  have h := row.fields_laid.slice_zeros (f := (0, row.typeGuid.toList)) (by simp [fields])
  rwa [row.typeGuid.length_toList] at h

theorem guidAt_unique : guidAt row.bytes 16 = row.uniqueGuid := by
  apply guidAt_eq
  have h := row.fields_laid.slice_zeros (f := (16, row.uniqueGuid.toList)) (by simp [fields])
  rwa [row.uniqueGuid.length_toList] at h

theorem le_first (h : row.firstLba < 2 ^ 64) : le row.bytes 32 8 = row.firstLba :=
  row.fields_laid.le_zeros (by simp [fields]) h

theorem le_last (h : row.lastLba < 2 ^ 64) : le row.bytes 40 8 = row.lastLba :=
  row.fields_laid.le_zeros (by simp [fields]) h

end GptRow

/-! ## Headers -/

def headerFields (currentLba backupLba firstUsableLba lastUsableLba : Nat) (diskGuid : Guid)
    (entriesLba : Nat) (entriesCrc : UInt32) : List (Nat × List UInt8) :=
  [(0, gptSignature), (8, leBytes 4 0x00010000), (12, leBytes 4 92), (24, leBytes 8 currentLba),
    (32, leBytes 8 backupLba), (40, leBytes 8 firstUsableLba), (48, leBytes 8 lastUsableLba),
    (56, diskGuid.toList), (72, leBytes 8 entriesLba), (80, leBytes 4 gptEntryCount),
    (84, leBytes 4 gptEntrySize), (88, leBytes 4 entriesCrc.toNat)]

/-- The header sector: the checksum is taken while its own field is still zero. -/
def gptHeader (currentLba backupLba firstUsableLba lastUsableLba : Nat) (diskGuid : Guid)
    (entriesLba : Nat) (entriesCrc : UInt32) : List UInt8 :=
  let header := writeFields (List.replicate 512 0)
    (headerFields currentLba backupLba firstUsableLba lastUsableLba diskGuid entriesLba entriesCrc)
  splice header 16 (leBytes 4 (crc32 (header.take 92)).toNat)

theorem gptHeaderCrc32_mapIdx (bytes : List UInt8) : gptHeaderCrc32 bytes =
    (crc32 (bytes.mapIdx fun i byte => if 16 ≤ i ∧ i < 20 then 0 else byte)).toNat := by
  rw [gptHeaderCrc32, crc32, mapIdx_eq_zipIdx_map, foldl_map]

theorem gptHeaderCrc32_eq {bytes : List UInt8} (h : 20 ≤ bytes.length) :
    gptHeaderCrc32 bytes = (crc32 (splice bytes 16 (replicate 4 0))).toNat := by
  rw [gptHeaderCrc32_mapIdx]
  congr 2
  apply ext_getElem?
  intro i
  rw [getElem?_splice (by simpa using h), getElem?_mapIdx, length_replicate]
  by_cases hi : 16 ≤ i ∧ i < 20
  · have hlt : i < bytes.length := by omega
    rw [getElem?_eq_getElem hlt, getElem?_replicate_of_lt (by omega)]
    simp [hi]
  · have hraw : bytes[i]?.map (fun byte => if 16 ≤ i ∧ i < 20 then 0 else byte) = bytes[i]? := by
      simp [hi]
    rw [hraw]
    by_cases hlow : i < 16
    · rw [if_pos hlow]
    · rw [if_neg hlow, if_neg (by omega)]

section
variable {current backup first last : Nat} {guid : Guid} {entries : Nat} {crc : UInt32}

theorem headerFields_range : ∀ f ∈ headerFields current backup first last guid entries crc,
    f.1 + f.2.length ≤ 16 ∨ 20 ≤ f.1 ∧ f.1 + f.2.length ≤ 92 := by
  simp [headerFields, gptSignature]

theorem headerFields_laid : Laid 512 (headerFields current backup first last guid entries crc) := by
  constructor
  · intro f hf
    have := headerFields_range f hf
    omega
  · simp [headerFields, Apart, gptSignature]

theorem length_headerBody : (writeFields (replicate 512 0)
    (headerFields current backup first last guid entries crc)).length = 512 :=
  headerFields_laid.length_zeros

@[simp] theorem length_gptHeader :
    (gptHeader current backup first last guid entries crc).length = 512 := by
  rw [gptHeader, length_splice (by rw [length_headerBody, length_leBytes]; decide), length_headerBody]

theorem slice_gptHeader (hf : f ∈ headerFields current backup first last guid entries crc) :
    slice (gptHeader current backup first last guid entries crc) f.1 f.2.length = f.2 := by
  have hrange := headerFields_range f hf
  rw [gptHeader, slice_splice_of_disjoint, headerFields_laid.slice_zeros hf]
  · rw [length_headerBody, length_leBytes]
    decide
  · rw [length_leBytes]
    omega

theorem le_gptHeader (value : Nat)
    (hf : (offset, leBytes width value) ∈ headerFields current backup first last guid entries crc)
    (hv : value < 256 ^ width) :
    le (gptHeader current backup first last guid entries crc) offset width = value := by
  have hslice := slice_gptHeader hf
  simp only [length_leBytes] at hslice
  rw [le, hslice, ofLe_leBytes_of_lt hv]

theorem checksum_gptHeader :
    gptHeaderCrc32 (slice (gptHeader current backup first last guid entries crc) 0 92) =
      le (gptHeader current backup first last guid entries crc) 16 4 := by
  have hzero : slice (writeFields (replicate 512 0)
      (headerFields current backup first last guid entries crc)) 16 4 =
      replicate 4 (0 : UInt8) := by
    apply headerFields_laid.slice_gap (by decide)
    intro f hf
    have := headerFields_range f hf
    omega
  have hlen : (writeFields (replicate 512 0)
      (headerFields current backup first last guid entries crc)).length = 512 := length_headerBody
  unfold gptHeader
  generalize writeFields (replicate 512 0)
    (headerFields current backup first last guid entries crc) = body at hzero hlen ⊢
  have htake : (body.take 92).length = 92 := by
    rw [length_take]
    omega
  have hstored : slice (splice body 16 (leBytes 4 (crc32 (body.take 92)).toNat)) 0 92 =
      splice (body.take 92) 16 (leBytes 4 (crc32 (body.take 92)).toNat) :=
    take_splice (by rw [length_leBytes]; decide) (by omega)
  rw [hstored, gptHeaderCrc32_eq, splice_splice_self, ← hzero]
  · have hself : slice body 16 4 = slice (body.take 92) 16 4 := (slice_take (by decide)).symm
    rw [hself, splice_slice_self (by omega), le_splice_self (by omega) (UInt32.toNat_lt _)]
  · rw [length_leBytes]
    omega
  · rw [length_replicate, length_leBytes]
  · rw [length_splice (by rw [length_leBytes]; omega)]
    omega

theorem headerOf_gptHeader (hcurrent : current < 2 ^ 64) (hbackup : backup < 2 ^ 64)
    (hfirst : first < 2 ^ 64) (hlast : last < 2 ^ 64) (hentries : entries < 2 ^ 64) :
    headerOf (gptHeader current backup first last guid entries crc) =
      { revision := 0x00010000, headerSize := 92, currentLba := current, backupLba := backup,
        firstUsableLba := first, lastUsableLba := last, diskGuid := guid, entriesLba := entries,
        entryCount := gptEntryCount, entrySize := gptEntrySize, entriesCrc32 := crc.toNat } := by
  have hguid : guidAt (gptHeader current backup first last guid entries crc) 56 = guid := by
    apply guidAt_eq
    have h : slice (gptHeader current backup first last guid entries crc) 56 guid.toList.length =
        guid.toList := slice_gptHeader (f := (56, guid.toList)) (by simp [headerFields])
    rwa [guid.length_toList] at h
  unfold headerOf
  rw [hguid, le_gptHeader 0x00010000 (by simp [headerFields]) (by decide),
    le_gptHeader 92 (by simp [headerFields]) (by decide),
    le_gptHeader current (by simp [headerFields]) hcurrent,
    le_gptHeader backup (by simp [headerFields]) hbackup,
    le_gptHeader first (by simp [headerFields]) hfirst,
    le_gptHeader last (by simp [headerFields]) hlast,
    le_gptHeader entries (by simp [headerFields]) hentries,
    le_gptHeader gptEntryCount (by simp [headerFields]) (by decide),
    le_gptHeader gptEntrySize (by simp [headerFields]) (by decide),
    le_gptHeader crc.toNat (by simp [headerFields]) (UInt32.toNat_lt _)]

theorem headerFine_gptHeader (hcurrent : current < 2 ^ 64) (hbackup : backup < 2 ^ 64)
    (hfirst : first < 2 ^ 64) (hlast : last < 2 ^ 64) (hentries : entries < 2 ^ 64)
    (hne : current ≠ backup) (husable : first ≤ last) :
    HeaderFine (gptHeader current backup first last guid entries crc) := by
  have hsig : slice (gptHeader current backup first last guid entries crc) 0 gptSignature.length =
      gptSignature := slice_gptHeader (f := (0, gptSignature)) (by simp [headerFields])
  have hsum : gptHeaderCrc32 (slice (gptHeader current backup first last guid entries crc) 0 92) =
      le (gptHeader current backup first last guid entries crc) 16 4 := checksum_gptHeader
  have hlen : (gptHeader current backup first last guid entries crc).length = 512 :=
    length_gptHeader
  have hof := @headerOf_gptHeader _ _ _ _ guid _ crc hcurrent hbackup hfirst hlast hentries
  generalize gptHeader current backup first last guid entries crc = sector at hsig hsum hlen hof ⊢
  have hsize : le sector 12 4 = 92 := congrArg GptHeader.headerSize hof
  have hcount : le sector 80 4 = 128 := congrArg GptHeader.entryCount hof
  have hentry : le sector 84 4 = 128 := congrArg GptHeader.entrySize hof
  have hc : le sector 24 8 = current := congrArg GptHeader.currentLba hof
  have hb : le sector 32 8 = backup := congrArg GptHeader.backupLba hof
  have hf : le sector 40 8 = first := congrArg GptHeader.firstUsableLba hof
  have hl : le sector 48 8 = last := congrArg GptHeader.lastUsableLba hof
  exact {
    signature := hsig
    size_ge := by omega
    size_le := by omega
    checksum := by rw [hsize, hsum]
    revision := congrArg GptHeader.revision hof
    backup := by rwa [hc, hb]
    usable := by rwa [hf, hl]
    count_pos := by omega
    count_le := by omega
    entry_ge := by omega
    entry_le := by omega
    entry_mod := by omega }

end

/-! ## The protective MBR -/

def protectiveFields (sectors : Nat) : List (Nat × List UInt8) :=
  [(450, [0xee]), (454, leBytes 4 1), (458, leBytes 4 sectors), (510, mbrSignature)]

def protectiveMbr (sectors : Nat) : List UInt8 :=
  writeFields (List.replicate 512 0) (protectiveFields sectors)

variable {sectors : Nat}

theorem protectiveFields_laid : Laid 512 (protectiveFields sectors) := by
  constructor <;> simp [protectiveFields, Apart, mbrSignature]

@[simp] theorem length_protectiveMbr : (protectiveMbr sectors).length = 512 :=
  protectiveFields_laid.length_zeros

theorem slice_protectiveMbr_zero {start length : Nat} (hlow : start + length ≤ 450 ∨ 462 ≤ start)
    (hhigh : start + length ≤ 510) :
    slice (protectiveMbr sectors) start length = replicate length 0 := by
  apply protectiveFields_laid.slice_gap (by omega)
  intro f hf
  have hrange : 450 ≤ f.1 ∧ f.1 + f.2.length ≤ 462 ∨ 510 ≤ f.1 := by
    revert f
    simp [protectiveFields]
  omega

theorem mbrSlot_zero_protectiveMbr (hlt : sectors < 2 ^ 32) :
    byteAt (mbrSlot (protectiveMbr sectors) 0) 0 = 0 ∧
      byteAt (mbrSlot (protectiveMbr sectors) 0) 4 = 0xee ∧
      le (mbrSlot (protectiveMbr sectors) 0) 8 4 = 1 ∧
      le (mbrSlot (protectiveMbr sectors) 0) 12 4 = sectors := by
  unfold mbrSlot
  rw [byteAt_slice (by decide), byteAt_slice (by decide), le_slice (by decide), le_slice (by decide)]
  refine ⟨byteAt_of_slice ?_, byteAt_of_slice ?_, ?_, ?_⟩
  · exact slice_protectiveMbr_zero (by decide) (by decide)
  · exact protectiveFields_laid.slice_zeros (f := (450, [0xee])) (by simp [protectiveFields])
  · exact protectiveFields_laid.le_zeros (by simp [protectiveFields]) (by decide)
  · exact protectiveFields_laid.le_zeros (by simp [protectiveFields]) hlt

theorem mbrSlot_pos_protectiveMbr (hpos : 0 < i) (hi : i < 4) :
    byteAt (mbrSlot (protectiveMbr sectors) i) 0 = 0 ∧
      byteAt (mbrSlot (protectiveMbr sectors) i) 4 = 0 ∧
      le (mbrSlot (protectiveMbr sectors) i) 12 4 = 0 := by
  unfold mbrSlot
  rw [byteAt_slice (by decide), byteAt_slice (by decide), le_slice (by decide)]
  refine ⟨byteAt_of_slice ?_, byteAt_of_slice ?_, le_of_slice_zero ?_⟩
  · exact slice_protectiveMbr_zero (by omega) (by omega)
  · exact slice_protectiveMbr_zero (by omega) (by omega)
  · exact slice_protectiveMbr_zero (by omega) (by omega)

theorem mbrFine_protectiveMbr (hpos : 0 < sectors) (hlt : sectors < 2 ^ 32) :
    MbrFine (protectiveMbr sectors) := by
  constructor
  · exact protectiveFields_laid.slice_zeros (f := (510, mbrSignature)) (by simp [protectiveFields])
  · intro i hi
    by_cases hzero : i = 0
    · subst hzero
      have ⟨hstatus, htype, _, hcount⟩ := mbrSlot_zero_protectiveMbr hlt
      refine ⟨.inl hstatus, ?_⟩
      rw [htype, hcount]
      exact ⟨fun h => absurd h (by decide), fun h => absurd h hpos.ne'⟩
    · have ⟨hstatus, htype, hcount⟩ :=
        @mbrSlot_pos_protectiveMbr sectors i (Nat.pos_of_ne_zero hzero) hi
      refine ⟨.inl hstatus, ?_⟩
      rw [htype, hcount]
      exact iff_of_true rfl rfl

theorem mbrOf_protectiveMbr (hlt : sectors < 2 ^ 32) :
    mbrOf (protectiveMbr sectors) =
      [some { bootable := false, partitionType := 0xee, firstLba := 1, sectorCount := sectors },
        none, none, none] := by
  have hunused : ∀ i, 0 < i → i < 4 → mbrEntryOf (mbrSlot (protectiveMbr sectors) i) = none := by
    intro i hpos hi
    exact if_pos (mbrSlot_pos_protectiveMbr hpos hi).2.1
  have ⟨hstatus, htype, hfirst, hcount⟩ := mbrSlot_zero_protectiveMbr hlt
  have hused : mbrEntryOf (mbrSlot (protectiveMbr sectors) 0) =
      some { bootable := false, partitionType := 0xee, firstLba := 1, sectorCount := sectors } := by
    rw [mbrEntryOf, hcount]
    rfl
  unfold mbrOf
  rw [show range 4 = [0, 1, 2, 3] from rfl, map_cons, map_cons, map_cons,
    map_cons, map_nil, hused, hunused 1 (by decide) (by decide),
    hunused 2 (by decide) (by decide), hunused 3 (by decide) (by decide)]

end NexOs.Storage
