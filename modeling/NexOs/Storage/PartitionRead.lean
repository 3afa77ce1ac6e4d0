import NexOs.Storage.Partition

/-! What the partition reader accepts. Each parser decides a property of its
input and reads a value off it; none of them panics. -/
namespace NexOs.Storage
open List hiding Vector
open Bytes Result

def guidAt (bytes : List UInt8) (offset : Nat) : Guid :=
  Vector.ofFn fun i => byteAt bytes (offset + i.val)

variable {bytes entry sector : List UInt8} {offset diskSectors i : Nat} {header : GptHeader}
  {d : Disk}

theorem guidAt_toList (h : offset + 16 ≤ bytes.length) :
    (guidAt bytes offset).toList = slice bytes offset 16 := by
  apply ext_getElem?
  intro i
  rw [getElem?_slice]
  by_cases hi : i < 16
  · simp [guidAt, byteAt, getElem?_eq_getElem (show offset + i < bytes.length by omega)]
  · rw [if_neg hi, getElem?_eq_none (by simpa using hi)]

theorem guidAt_eq {guid : Guid} (h : slice bytes offset 16 = guid.toList) :
    guidAt bytes offset = guid := by
  have hlen : offset + 16 ≤ bytes.length := by
    have := congrArg length h
    rw [guid.length_toList, slice, length_take, length_drop] at this
    omega
  apply Vector.toList_inj.mp
  rw [guidAt_toList hlen, h]

theorem ofBytes_slice (h : offset + 16 ≤ bytes.length) :
    Guid.ofBytes (slice bytes offset 16) = .ok (guidAt bytes offset) := by
  rw [← guidAt_toList h]
  exact Guid.ofBytes_toList _

/-! ## The master boot record -/

structure MbrEntryFine (entry : List UInt8) : Prop where
  status : byteAt entry 0 = 0 ∨ byteAt entry 0 = 0x80
  used : byteAt entry 4 = 0 ↔ le entry 12 4 = 0

def mbrEntryOf (entry : List UInt8) : Option MbrPartition :=
  if byteAt entry 4 = 0 then none
  else some { bootable := byteAt entry 0 = 0x80, partitionType := byteAt entry 4,
              firstLba := le entry 8 4, sectorCount := le entry 12 4 }

theorem parseMbrEntry_decides (h : entry.length = 16) :
    Decides (parseMbrEntry entry) (MbrEntryFine entry) (mbrEntryOf entry) := by
  unfold parseMbrEntry
  rw [index_byte (by omega), index_byte (show 4 < entry.length by omega),
    getLe_eq (show 8 + 4 ≤ entry.length by omega), getLe_eq (show 12 + 4 ≤ entry.length by omega)]
  refine Decides.congr (.guard fun _ => .ite (fun _ => .of_ok rfl) fun _ =>
    .guard fun _ => .of_ok rfl) ?_ ?_
  · constructor
    · intro ⟨hstatus, hcase⟩
      refine ⟨hstatus, ?_⟩
      split at hcase
      · rename_i hnone
        exact ⟨fun _ => hnone.2, fun _ => hnone.1⟩
      · have hsome := not_or.mp hcase.1
        exact ⟨fun h0 => absurd h0 hsome.1, fun h0 => absurd h0 hsome.2⟩
    · intro hfine
      refine ⟨hfine.status, ?_⟩
      split
      · trivial
      · rename_i hsome
        refine ⟨fun hor => hsome ?_, trivial⟩
        rcases hor with h0 | h0
        · exact ⟨h0, hfine.used.mp h0⟩
        · exact ⟨hfine.used.mpr h0, h0⟩
  · intro ⟨_, hcase⟩
    unfold mbrEntryOf
    split
    · rename_i hnone
      rw [if_pos hnone.1]
    · rename_i hsome
      rw [if_neg hsome] at hcase
      rw [if_neg fun h0 => hcase.1 (.inl h0)]

def mbrSlot (sector : List UInt8) (i : Nat) : List UInt8 := slice sector (446 + i * 16) 16

structure MbrFine (sector : List UInt8) : Prop where
  signature : slice sector 510 2 = mbrSignature
  entries : ∀ i < 4, MbrEntryFine (mbrSlot sector i)

def mbrOf (sector : List UInt8) : List (Option MbrPartition) :=
  (List.range 4).map fun i => mbrEntryOf (mbrSlot sector i)

theorem parseMbr_decides (h : 512 ≤ sector.length) :
    Decides (parseMbr sector) (MbrFine sector) (mbrOf sector) := by
  unfold parseMbr
  rw [ensure_pos (by omega), rangeOf_eq (by omega)]
  refine Decides.congr (.guard fun _ => .mapM (fun i => MbrEntryFine (mbrSlot sector i))
    (fun i => mbrEntryOf (mbrSlot sector i)) _ fun i hi => ?_) ?_ fun _ => rfl
  · have hi := mem_range.mp hi
    have hlen : (mbrSlot sector i).length = 16 := length_slice (by omega)
    dsimp only
    rw [rangeOf_eq (by omega), Nat.add_sub_cancel_left]
    exact parseMbrEntry_decides hlen
  · constructor
    · intro ⟨hsig, hentries⟩
      exact ⟨hsig, fun i hi => hentries i (mem_range.mpr hi)⟩
    · intro hfine
      exact ⟨hfine.signature, fun i hi => hfine.entries i (mem_range.mp hi)⟩

/-! ## Bounds and overlap -/

def Partition.Apart (p q : Partition) : Prop :=
  p.firstLba + p.sectorCount ≤ q.firstLba ∨ q.firstLba + q.sectorCount ≤ p.firstLba

/-- Partitions whose ends are addresses and none of which meets another. -/
structure NoOverlap (partitions : List Partition) : Prop where
  stop_lt : ∀ p ∈ partitions, p.firstLba + p.sectorCount < 2 ^ 64
  apart : partitions.Pairwise Partition.Apart

theorem validateNoOverlap_decides (partitions : List Partition) :
    Decides (validateNoOverlap partitions) (NoOverlap partitions) () := by
  induction partitions with
  | nil => exact .inl ⟨⟨forall_mem_nil _, .nil⟩, rfl⟩
  | cons left rest ih =>
    refine Decides.congr (.bind checkedAdd_decides fun _ => .bind (.forM
      _ fun right _ =>
      .bind checkedAdd_decides fun _ => .ensure _ _) fun _ => ih) ?_ fun _ => rfl
    have happly : ∀ right : Partition, ¬(left.firstLba < right.firstLba + right.sectorCount ∧
        right.firstLba < left.firstLba + left.sectorCount) ↔ left.Apart right := by
      intro right
      unfold Partition.Apart
      omega
    constructor
    · intro ⟨hleft, hrest, hno⟩
      refine ⟨forall_mem_cons.mpr ⟨hleft, hno.stop_lt⟩, pairwise_cons.mpr ⟨?_, hno.apart⟩⟩
      exact fun right hr => (happly right).mp (hrest right hr).2
    · intro hno
      obtain ⟨hleft, hstop⟩ := forall_mem_cons.mp hno.stop_lt
      obtain ⟨hfirst, hapart⟩ := pairwise_cons.mp hno.apart
      exact ⟨hleft, fun right hr => ⟨hstop right hr, (happly right).mpr (hfirst right hr)⟩,
        hstop, hapart⟩

/-! ## The MBR table -/

def MbrSlotFine (diskSectors : Nat) (entry : Option MbrPartition) : Prop :=
  ∀ e, entry = some e → e.partitionType ≠ 0xee ∧ e.sectorCount ≠ 0 ∧ e.firstLba ≠ 0 ∧
    e.firstLba + e.sectorCount < 2 ^ 64 ∧ e.firstLba + e.sectorCount ≤ diskSectors

def mbrPartitionOf (entry : Option MbrPartition) (i : Nat) : Option Partition :=
  entry.map fun e =>
    { index := i + 1, firstLba := e.firstLba, sectorCount := e.sectorCount, bootable := e.bootable,
      mbrType := some e.partitionType, typeGuid := none, uniqueGuid := none, attributes := 0,
      name := [] }

theorem validatePartitionBounds_decides (firstLba sectorCount : Nat) :
    Decides (validatePartitionBounds firstLba sectorCount diskSectors)
      (sectorCount ≠ 0 ∧ firstLba ≠ 0 ∧ firstLba + sectorCount < 2 ^ 64 ∧
        firstLba + sectorCount ≤ diskSectors) () := by
  refine Decides.congr (.guard fun _ => .ensure _ _) ?_ fun _ => rfl
  rw [not_or, and_assoc, isNoneOr_checkedAdd, decide_eq_false_iff_not, not_lt]

theorem mbrPartition_decides (entry : Option MbrPartition) :
    Decides (mbrPartition diskSectors entry i) (MbrSlotFine diskSectors entry)
      (mbrPartitionOf entry i) := by
  cases entry with
  | none => exact .inl ⟨fun e he => (nomatch he), rfl⟩
  | some e =>
    refine Decides.congr (.guard fun _ => .bind
      (validatePartitionBounds_decides _ _) fun _ => .of_ok rfl) ?_ fun _ => rfl
    constructor
    · intro ⟨htype, hbounds, _⟩ e' he
      cases he
      exact ⟨htype, hbounds⟩
    · intro hfine
      exact ⟨(hfine e rfl).1, (hfine e rfl).2, trivial⟩

def mbrPartitionsOf (entries : List (Option MbrPartition)) : List Partition :=
  (entries.zipIdx.map fun p => mbrPartitionOf p.1 p.2).reduceOption

theorem readMbrTable_decides (diskSectors : Nat) (entries : List (Option MbrPartition)) :
    Decides (readMbrTable diskSectors entries)
      ((∀ p ∈ entries.zipIdx, MbrSlotFine diskSectors p.1) ∧ NoOverlap (mbrPartitionsOf entries))
      { kind := .mbr, diskGuid := none, partitions := mbrPartitionsOf entries } := by
  refine Decides.congr (.bind (.mapM (fun p => MbrSlotFine diskSectors p.1)
    (fun p => mbrPartitionOf p.1 p.2) _ fun p _ => mbrPartition_decides _) fun _ =>
    .bind (validateNoOverlap_decides _) fun _ => .of_ok rfl) ?_ fun _ => rfl
  rw [and_true]
  rfl

/-! ## The GPT header -/

def headerOf (sector : List UInt8) : GptHeader where
  revision := le sector 8 4
  headerSize := le sector 12 4
  currentLba := le sector 24 8
  backupLba := le sector 32 8
  firstUsableLba := le sector 40 8
  lastUsableLba := le sector 48 8
  diskGuid := guidAt sector 56
  entriesLba := le sector 72 8
  entryCount := le sector 80 4
  entrySize := le sector 84 4
  entriesCrc32 := le sector 88 4

structure HeaderFine (sector : List UInt8) : Prop where
  signature : slice sector 0 8 = gptSignature
  size_ge : 92 ≤ le sector 12 4
  size_le : le sector 12 4 ≤ sector.length
  checksum : gptHeaderCrc32 (slice sector 0 (le sector 12 4)) = le sector 16 4
  revision : le sector 8 4 = 0x00010000
  backup : le sector 24 8 ≠ le sector 32 8
  usable : le sector 40 8 ≤ le sector 48 8
  count_pos : 0 < le sector 80 4
  count_le : le sector 80 4 ≤ 4096
  entry_ge : 128 ≤ le sector 84 4
  entry_le : le sector 84 4 ≤ 4096
  entry_mod : le sector 84 4 % 8 = 0

theorem parseGptHeader_decides (h : 92 ≤ sector.length) :
    Decides (parseGptHeader sector) (HeaderFine sector) (headerOf sector) := by
  have hrest : HeaderFine sector ↔ slice sector 0 8 = gptSignature ∧
      (92 ≤ le sector 12 4 ∧ le sector 12 4 ≤ sector.length) ∧
      gptHeaderCrc32 (slice sector 0 (le sector 12 4)) = le sector 16 4 ∧
      ¬(le sector 8 4 ≠ 0x00010000 ∨ le sector 24 8 = le sector 32 8 ∨
        le sector 40 8 > le sector 48 8 ∨ le sector 80 4 = 0 ∨ le sector 80 4 > 4096 ∨
        ¬(128 ≤ le sector 84 4 ∧ le sector 84 4 ≤ 4096) ∨ le sector 84 4 % 8 ≠ 0) := by
    constructor
    · intro hf
      refine ⟨hf.signature, ⟨hf.size_ge, hf.size_le⟩, hf.checksum, ?_⟩
      have h₁ := hf.revision
      have h₂ := hf.backup
      have h₃ := hf.usable
      have h₄ := hf.count_pos
      have h₅ := hf.count_le
      have h₆ := hf.entry_ge
      have h₇ := hf.entry_le
      have h₈ := hf.entry_mod
      omega
    · intro ⟨hsig, hsize, hcrc, hfields⟩
      refine ⟨hsig, hsize.1, hsize.2, hcrc, ?_, ?_, ?_, ?_, ?_, ?_, ?_, ?_⟩ <;> omega
  rw [hrest]
  unfold parseGptHeader
  rw [ensure_pos (by omega), rangeOf_eq (by omega)]
  refine .guard fun _ => ?_
  rw [getLe_eq (by omega)]
  refine .guard fun hsize => ?_
  rw [getLe_eq (by omega), rangeOf_eq (by omega)]
  refine .guard fun _ => ?_
  rw [getLe_eq (by omega), bind_ok, getLe_eq (by omega), bind_ok, getLe_eq (by omega),
    bind_ok, getLe_eq (by omega), bind_ok, getLe_eq (by omega), bind_ok,
    rangeOf_eq (by omega), bind_ok, ofBytes_slice (by omega), getLe_eq (by omega),
    getLe_eq (by omega), getLe_eq (by omega), getLe_eq (by omega)]
  refine Decides.congr (.guard fun _ => .of_ok (a := headerOf sector) rfl)
    (and_iff_left trivial) fun _ => rfl

/-! ## GPT entries -/

def entryLast (entry : List UInt8) : Nat := le entry 40 8

/-- A used entry has a GUID of its own and a span inside the usable sectors. -/
structure EntryFine (header : GptHeader) (entry : List UInt8) : Prop where
  unique : ¬(guidAt entry 16).isZero
  first_ge : header.firstUsableLba ≤ le entry 32 8
  last_le : entryLast entry ≤ header.lastUsableLba
  ordered : le entry 32 8 ≤ entryLast entry
  count_lt : entryLast entry - le entry 32 8 + 1 < 2 ^ 64

def entryPartition (header : GptHeader) (entry : List UInt8) (i : Nat) : Partition where
  index := i + 1
  firstLba := le entry 32 8
  sectorCount := entryLast entry - le entry 32 8 + 1
  bootable := false
  mbrType := none
  typeGuid := some (guidAt entry 0)
  uniqueGuid := some (guidAt entry 16)
  attributes := le entry 48 8
  name := decodeGptName (slice entry 56 (min header.entrySize 128 - 56))

def entryOf (header : GptHeader) (entry : List UInt8) (i : Nat) : Option Partition :=
  if (guidAt entry 0).isZero then none else some (entryPartition header entry i)

theorem entryOf_eq_some : entryOf header entry i = some p ↔
      ¬(guidAt entry 0).isZero ∧ entryPartition header entry i = p := by
  rw [entryOf, Option.ite_none_left_eq_some, Option.some.injEq]

theorem decodeGptEntry_decides (i : Nat) (hlen : entry.length = header.entrySize)
    (hsize : 128 ≤ header.entrySize) :
    Decides (decodeGptEntry header entry i)
      (¬(guidAt entry 0).isZero → EntryFine header entry) (entryOf header entry i) := by
  unfold decodeGptEntry entryOf
  rw [rangeOf_eq (by omega), bind_ok, ofBytes_slice (by omega), bind_ok]
  by_cases hzero : (guidAt entry 0).isZero
  · rw [if_pos hzero, if_pos hzero]
    exact .inl ⟨fun h => absurd hzero h, rfl⟩
  · rw [if_neg hzero, if_neg hzero, rangeOf_eq (by omega), bind_ok, ofBytes_slice (by omega),
      bind_ok, getLe_eq (by omega), bind_ok, getLe_eq (by omega), bind_ok]
    refine Decides.congr (P := ¬((guidAt entry 16).isZero ∨
      le entry 32 8 < header.firstUsableLba ∨ entryLast entry > header.lastUsableLba ∨
      le entry 32 8 > entryLast entry) ∧ (entryLast entry - le entry 32 8 + 1 < 2 ^ 64))
      (.guard fun hfine => ?_) ?_ fun _ => rfl
    · have hle : le entry 32 8 ≤ le entry 40 8 := by
        omega
      rw [checkedSub_eq hle]
      refine Decides.congr (.bind checkedAdd_decides fun _ => ?_) (and_iff_left trivial)
        fun _ => rfl
      rw [getLe_eq (by omega), rangeOf_eq (by omega)]
      exact .of_ok rfl
    · constructor
      · intro ⟨hfine, hcount⟩ _
        simp only [not_or, not_lt] at hfine
        exact ⟨hfine.1, hfine.2.1, hfine.2.2.1, hfine.2.2.2, hcount⟩
      · intro hfine
        have hf := hfine hzero
        refine ⟨?_, hf.count_lt⟩
        simp only [not_or, not_lt]
        exact ⟨hf.unique, hf.first_ge, hf.last_le, hf.ordered⟩

def entryAt (header : GptHeader) (bytes : List UInt8) (i : Nat) : List UInt8 :=
  slice bytes (i * header.entrySize) header.entrySize

def partitionsOf (header : GptHeader) (bytes : List UInt8) : List Partition :=
  ((List.range header.entryCount).map fun i => entryOf header (entryAt header bytes i) i).reduceOption

def EntriesFine (header : GptHeader) (bytes : List UInt8) : Prop :=
  ∀ i < header.entryCount, ¬(guidAt (entryAt header bytes i) 0).isZero →
    EntryFine header (entryAt header bytes i)

theorem decodeGptEntries_decides (hcount : header.entryCount ≤ 4096) (hge : 128 ≤ header.entrySize)
    (hle : header.entrySize ≤ 4096) (hlen : header.entryCount * header.entrySize ≤ bytes.length) :
    Decides (decodeGptEntries header bytes) (EntriesFine header bytes)
      (partitionsOf header bytes) := by
  refine Decides.congr (.bind (.mapM
    (fun i => ¬(guidAt (entryAt header bytes i) 0).isZero → EntryFine header (entryAt header bytes i))
    (fun i => entryOf header (entryAt header bytes i) i) _ fun i hi => ?_) fun _ => .of_ok rfl) ?_
    fun _ => rfl
  · have hi := mem_range.mp hi
    have hend := Nat.mul_le_mul_right header.entrySize (Nat.succ_le_of_lt hi)
    rw [Nat.succ_mul] at hend
    have hlimit := Nat.mul_le_mul hcount hle
    rw [checkedMul_eq (by omega), okOr_some, bind_ok, rangeOf_eq (by omega), Nat.add_sub_cancel_left]
    exact decodeGptEntry_decides i (length_slice (by omega)) hge
  · rw [and_true]
    exact ⟨fun h i hi => h i (mem_range.mpr hi), fun h i hi => h i (mem_range.mp hi)⟩

/-! ## The whole reader -/

theorem readSectors_run (lba sectors : Nat)
    (h : lba * d.sectorSize + sectors * d.sectorSize ≤ d.bytes.length) :
    Disk.readSectors lba (sectors * d.sectorSize) d =
      (.ok (slice d.bytes (lba * d.sectorSize) (sectors * d.sectorSize)), d) := by
  unfold Disk.readSectors
  rw [Exec.get_bind, Disk.range, ensure_pos (Nat.mul_mod_left _ _), ensure_pos h]
  rfl

theorem le_of_sectorCount (h : n ≤ d.sectorCount) : n * d.sectorSize ≤ d.bytes.length :=
  (Nat.mul_le_mul_right _ h).trans (Nat.div_mul_le_self _ _)

def sectorAt (d : Disk) (lba : Nat) : List UInt8 := slice d.bytes (lba * d.sectorSize) d.sectorSize

theorem readSector_decides (d : Disk) (lba : Nat) :
    Exec.Decides (Disk.readSectors lba d.sectorSize) d
      (lba * d.sectorSize + d.sectorSize ≤ d.bytes.length) (sectorAt d lba) := by
  by_cases h : lba * d.sectorSize + d.sectorSize ≤ d.bytes.length
  · have hrun := readSectors_run lba 1 (by rwa [Nat.one_mul])
    rw [Nat.one_mul] at hrun
    exact ⟨_, hrun, .inl ⟨h, rfl⟩⟩
  · refine ⟨_, ?_, .inr ⟨h, .outOfBounds, rfl⟩⟩
    unfold Disk.readSectors
    rw [Exec.get_bind, Disk.range, ensure_pos (Nat.mod_self _), ensure_neg h]
    rfl

def entrySectors (size : Nat) (header : GptHeader) : Nat :=
  (header.entryCount * header.entrySize + (size - 1)) / size

def entryArray (d : Disk) (header : GptHeader) : List UInt8 :=
  slice d.bytes (header.entriesLba * d.sectorSize) (entrySectors d.sectorSize header * d.sectorSize)

/-- The table that a header describes is on the disk and in order. -/
structure GptFine (d : Disk) (header : GptHeader) : Prop where
  current : header.currentLba = 1
  backup : header.backupLba < d.sectorCount
  last : header.lastUsableLba < d.sectorCount
  entries_ge : 2 ≤ header.entriesLba
  rounded : header.entryCount * header.entrySize + (d.sectorSize - 1) < 2 ^ 64
  stop_lt : header.entriesLba + entrySectors d.sectorSize header < 2 ^ 64
  inside : header.entriesLba + entrySectors d.sectorSize header ≤ d.sectorCount
  before : header.entriesLba + entrySectors d.sectorSize header ≤ header.firstUsableLba
  transfer : entrySectors d.sectorSize header * d.sectorSize < 2 ^ 64
  checksum : (crc32 (slice (entryArray d header) 0
    (header.entryCount * header.entrySize))).toNat = header.entriesCrc32
  entries : EntriesFine header (entryArray d header)
  apart : NoOverlap (partitionsOf header (entryArray d header))

def gptTableOf (d : Disk) (header : GptHeader) : PartitionTable where
  kind := .gpt
  diskGuid := some header.diskGuid
  partitions := partitionsOf header (entryArray d header)

theorem readGptTable_decides (hsize : 512 ≤ d.sectorSize) (hfine : HeaderFine sector) :
    Exec.Decides (readGptTable d.sectorSize (headerOf sector)) d (GptFine d (headerOf sector))
      (gptTableOf d (headerOf sector)) := by
  have hcount : (headerOf sector).entryCount ≤ 4096 := hfine.count_le
  have hge : 128 ≤ (headerOf sector).entrySize := hfine.entry_ge
  have hle : (headerOf sector).entrySize ≤ 4096 := hfine.entry_le
  generalize headerOf sector = header at hcount hge hle ⊢
  have hlimit := Nat.mul_le_mul hcount hle
  have hcover : header.entryCount * header.entrySize ≤
      entrySectors d.sectorSize header * d.sectorSize := by
    have hpos : 0 < d.sectorSize := by omega
    have hdiv := Nat.div_add_mod (header.entryCount * header.entrySize + (d.sectorSize - 1))
      d.sectorSize
    have hmod := Nat.mod_lt (header.entryCount * header.entrySize + (d.sectorSize - 1)) hpos
    rw [Nat.mul_comm] at hdiv
    unfold entrySectors
    omega
  have hiff : isNoneOr (checkedAdd header.entriesLba (entrySectors d.sectorSize header))
      (fun stop => stop > d.sectorCount ∨ stop > header.firstUsableLba) = false ↔
      header.entriesLba + entrySectors d.sectorSize header < 2 ^ 64 ∧
        ¬(header.entriesLba + entrySectors d.sectorSize header > d.sectorCount ∨
          header.entriesLba + entrySectors d.sectorSize header > header.firstUsableLba) := by
    rw [isNoneOr_checkedAdd, decide_eq_false_iff_not]
  refine Exec.Decides.congr (P := ¬(header.currentLba ≠ 1 ∨ header.backupLba ≥ d.sectorCount ∨
      header.lastUsableLba ≥ d.sectorCount ∨ header.entriesLba < 2) ∧
    header.entryCount * header.entrySize < 2 ^ 64 ∧
    header.entryCount * header.entrySize + (d.sectorSize - 1) < 2 ^ 64 ∧
    (header.entriesLba + entrySectors d.sectorSize header < 2 ^ 64 ∧
      ¬(header.entriesLba + entrySectors d.sectorSize header > d.sectorCount ∨
        header.entriesLba + entrySectors d.sectorSize header > header.firstUsableLba)) ∧
    entrySectors d.sectorSize header * d.sectorSize < 2 ^ 64 ∧
    (crc32 (slice (entryArray d header) 0 (header.entryCount * header.entrySize))).toNat =
      header.entriesCrc32 ∧
    EntriesFine header (entryArray d header) ∧
    NoOverlap (partitionsOf header (entryArray d header))) ?_ ?_ fun _ => rfl
  · refine .bind_ok rfl (.guard fun _ => .bind (.okOr checkedMul_decides) fun _ =>
      .bind (.okOr checkedAdd_decides) fun _ => ?_)
    refine Exec.Decides.congr (.guard fun hstop =>
      .bind (.okOr checkedMul_decides) fun _ => ?_)
      (and_congr_left' hiff) fun _ => rfl
    · have hinside : header.entriesLba + entrySectors d.sectorSize header ≤ d.sectorCount := by
        have := (hiff.mp hstop).2
        omega
      have hend := le_of_sectorCount hinside
      rw [Nat.add_mul] at hend
      have hlen : (entryArray d header).length = entrySectors d.sectorSize header * d.sectorSize :=
        length_slice hend
      refine .bind_ok (readSectors_run _ _ hend) ?_
      refine .bind_ok (show Exec.lift (rangeOf (entryArray d header) 0 _) d = _ by
        rw [rangeOf_eq (by omega)]
        rfl) ?_
      have hdecode := decodeGptEntries_decides hcount hge hle (hlen ▸ hcover)
      refine .guard fun _ => .bind (.lift hdecode) fun _ => ?_
      exact (Exec.Decides.bind (.lift (validateNoOverlap_decides _)) fun _ => .of_ok rfl).congr
        (and_iff_left trivial) fun _ => rfl
  · constructor
    · intro ⟨hfields, _, hrounded, ⟨hlt, hstop⟩, htransfer, hcrc, hentries, hapart⟩
      refine ⟨?_, ?_, ?_, ?_, hrounded, hlt, ?_, ?_, htransfer, hcrc, hentries, hapart⟩ <;> omega
    · intro h
      have h₁ := h.current
      have h₂ := h.backup
      have h₃ := h.last
      have h₄ := h.entries_ge
      have h₅ := h.inside
      have h₆ := h.before
      exact ⟨by omega, by omega, h.rounded, ⟨h.stop_lt, by omega⟩, h.transfer, h.checksum, h.entries,
        h.apart⟩

structure GptDisk (d : Disk) : Prop where
  header_on : 1 * d.sectorSize + d.sectorSize ≤ d.bytes.length
  header : HeaderFine (sectorAt d 1)
  table : GptFine d (headerOf (sectorAt d 1))

theorem length_sectorAt (h : lba * d.sectorSize + d.sectorSize ≤ d.bytes.length) :
    (sectorAt d lba).length = d.sectorSize :=
  length_slice h

theorem readGpt_decides (hsize : 512 ≤ d.sectorSize) :
    Exec.Decides (readGpt d.sectorSize) d (GptDisk d) (gptTableOf d (headerOf (sectorAt d 1))) := by
  refine Exec.Decides.congr (.bind (readSector_decides d 1) fun hon => .bind (.lift ?_) fun hfine =>
    readGptTable_decides hsize hfine) ?_ fun _ => rfl
  · have hlen := length_sectorAt hon
    exact parseGptHeader_decides (by omega)
  · exact ⟨fun h => ⟨h.1, h.2.1, h.2.2⟩, fun h => ⟨h.header_on, h.header, h.table⟩⟩

structure MbrDisk (d : Disk) : Prop where
  slots : ∀ p ∈ (mbrOf (sectorAt d 0)).zipIdx, MbrSlotFine d.sectorCount p.1
  apart : NoOverlap (mbrPartitionsOf (mbrOf (sectorAt d 0)))

def mbrTableOf (d : Disk) : PartitionTable where
  kind := .mbr
  diskGuid := none
  partitions := mbrPartitionsOf (mbrOf (sectorAt d 0))

def Protected (d : Disk) : Prop := (mbrOf (sectorAt d 0)).any isProtective = true

instance (d : Disk) : Decidable (Protected d) := inferInstanceAs (Decidable (_ = _))

structure TableDisk (d : Disk) : Prop where
  size_ge : 512 ≤ d.sectorSize
  mbr_on : 0 * d.sectorSize + d.sectorSize ≤ d.bytes.length
  mbr : MbrFine (sectorAt d 0)
  table : if Protected d then GptDisk d else MbrDisk d

def tableOf (d : Disk) : PartitionTable :=
  if Protected d then gptTableOf d (headerOf (sectorAt d 1)) else mbrTableOf d

/-- Reading a partition table never panics, leaves the disk alone, and succeeds on
exactly the disks whose tables are in order. -/
theorem readPartitionTable_decides :
    Exec.Decides readPartitionTable d (TableDisk d) (tableOf d) := by
  apply Exec.Decides.bind_ok rfl
  refine Exec.Decides.congr (.guard fun hsize => .bind (readSector_decides d 0) fun hon =>
    .bind (b := tableOf d) (Q := if Protected d then GptDisk d else MbrDisk d)
      (.lift (parseMbr_decides ?_)) fun _ => ?_) ?_ fun _ => rfl
  · have hlen := length_sectorAt hon
    omega
  · unfold tableOf
    by_cases hprot : Protected d
    · rw [if_pos hprot, if_pos hprot]
      exact .ite_pos hprot (readGpt_decides (by omega))
    · rw [if_neg hprot, if_neg hprot]
      refine .ite_neg hprot (.congr (.lift (readMbrTable_decides _ _)) ?_ fun _ => rfl)
      exact ⟨fun h => ⟨h.1, h.2⟩, fun h => ⟨h.slots, h.apart⟩⟩
  · rw [not_lt]
    exact ⟨fun h => ⟨h.1, h.2.1, h.2.2.1, h.2.2.2⟩, fun h => ⟨h.size_ge, h.mbr_on, h.mbr, h.table⟩⟩

end NexOs.Storage
