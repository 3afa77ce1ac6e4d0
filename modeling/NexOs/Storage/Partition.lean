import NexOs.Storage.Crc32
import NexOs.Storage.Medium

/-! The MBR and GPT partition tables and the window that a partition opens on
its device. -/
namespace NexOs.Storage
open Bytes BlockDevice

def mbrSignature : List UInt8 := [0x55, 0xaa]
def gptSignature : List UInt8 := [0x45, 0x46, 0x49, 0x20, 0x50, 0x41, 0x52, 0x54]

abbrev maxGptEntries : Nat := 4096
abbrev maxGptEntrySize : Nat := 4096

abbrev Guid := Vector UInt8 16

namespace Guid

def isZero (guid : Guid) : Prop := guid = Vector.replicate 16 0

instance (guid : Guid) : Decidable guid.isZero := inferInstanceAs (Decidable (_ = _))

/-- `bytes.try_into()` into sixteen bytes. -/
def ofBytes (bytes : List UInt8) : Result StorageError Guid :=
  if h : bytes.length = 16 then .ok ⟨bytes.toArray, h⟩ else Result.fail .invalidGpt

theorem ofBytes_toList (guid : Guid) : ofBytes guid.toList = .ok guid := by
  unfold ofBytes
  rw [dif_pos guid.length_toList]
  rfl

end Guid

structure MbrPartition where
  bootable : Bool
  partitionType : UInt8
  firstLba : Nat
  sectorCount : Nat

structure GptHeader where
  revision : Nat
  headerSize : Nat
  currentLba : Nat
  backupLba : Nat
  firstUsableLba : Nat
  lastUsableLba : Nat
  diskGuid : Guid
  entriesLba : Nat
  entryCount : Nat
  entrySize : Nat
  entriesCrc32 : Nat

inductive PartitionTableKind where
  | mbr
  | gpt
  deriving DecidableEq

structure Partition where
  index : Nat
  firstLba : Nat
  sectorCount : Nat
  bootable : Bool
  mbrType : Option UInt8
  typeGuid : Option Guid
  uniqueGuid : Option Guid
  attributes : Nat
  name : List Char

structure PartitionTable where
  kind : PartitionTableKind
  diskGuid : Option Guid
  partitions : List Partition

/-! ## Windows -/

structure PartitionDevice (D : Type) where
  inner : D
  firstLba : Nat
  sectorCount : Nat

namespace PartitionDevice
variable {D : Type} [BlockDevice D]

def new (inner : D) (firstLba sectorCount : Nat) : Result StorageError (PartitionDevice D) := do
  Result.ensure (sectorCount ≠ 0) .invalidPartition
  Result.ensure (isNoneOr (checkedAdd firstLba sectorCount)
    (fun stop => BlockDevice.sectorCount inner < stop) = false) .invalidPartition
  .ok { inner := inner, firstLba := firstLba, sectorCount := sectorCount }

def translatedLba (p : PartitionDevice D) (lba byteLength : Nat) : Result StorageError Nat := do
  let size := sectorSize p.inner
  Result.ensure (¬(byteLength = 0 ∨ byteLength % size ≠ 0)) .invalidBuffer
  Result.ensure (isNoneOr (checkedAdd lba (byteLength / size))
    (fun stop => p.sectorCount < stop) = false) .outOfBounds
  Result.okOr (checkedAdd p.firstLba lba) .outOfBounds

def onInner (x : Exec D StorageError α) : Exec (PartitionDevice D) StorageError α :=
  Exec.zoom inner (fun d p => { p with inner := d }) x

def readSectors (lba : Nat) : Exec (PartitionDevice D × List UInt8) StorageError Unit := do
  let s ← Exec.get
  let translated ← Exec.lift (s.1.translatedLba lba s.2.length)
  Exec.zoom (fun s => (s.1.inner, s.2)) (fun t s => ({ s.1 with inner := t.1 }, t.2))
    (BlockDevice.readSectors translated)

def writeSectors (lba : Nat) (input : List UInt8) : Exec (PartitionDevice D) StorageError Unit := do
  let p ← Exec.get
  let translated ← Exec.lift (p.translatedLba lba input.length)
  onInner (BlockDevice.writeSectors translated input)

instance : BlockDevice (PartitionDevice D) where
  sectorSize p := sectorSize p.inner
  sectorCount := sectorCount
  readSectors := readSectors
  writeSectors := writeSectors
  flush := onInner BlockDevice.flush

end PartitionDevice

/-! ## The master boot record -/

def parseMbrEntry (entry : List UInt8) : Result StorageError (Option MbrPartition) := do
  let status ← index entry 0
  Result.ensure (status = 0 ∨ status = 0x80) .invalidMbr
  let partitionType ← index entry 4
  let firstLba ← getLe 4 entry 8
  let sectorCount ← getLe 4 entry 12
  if partitionType = 0 ∧ sectorCount = 0 then
    .ok none
  else do
    Result.ensure (¬(partitionType = 0 ∨ sectorCount = 0)) .invalidMbr
    .ok (some { bootable := status = 0x80, partitionType := partitionType, firstLba := firstLba,
                sectorCount := sectorCount })

def parseMbr (sector : List UInt8) : Result StorageError (List (Option MbrPartition)) := do
  Result.ensure (¬sector.length < 512) .invalidMbr
  let signature ← rangeOf sector 510 512
  Result.ensure (signature = mbrSignature) .invalidMbr
  (List.range 4).mapM fun index => do
    let offset := 446 + index * 16
    let entry ← rangeOf sector offset (offset + 16)
    parseMbrEntry entry

def validatePartitionBounds (firstLba sectorCount diskSectors : Nat) : Result StorageError Unit := do
  Result.ensure (¬(sectorCount = 0 ∨ firstLba = 0)) .invalidPartition
  Result.ensure (isNoneOr (checkedAdd firstLba sectorCount)
    (fun stop => diskSectors < stop) = false) .invalidPartition

def validateNoOverlap : List Partition → Result StorageError Unit
  | [] => .ok ()
  | left :: rest => do
    let leftEnd ← Result.okOr (checkedAdd left.firstLba left.sectorCount) .invalidPartition
    rest.forM fun right => do
      let rightEnd ← Result.okOr (checkedAdd right.firstLba right.sectorCount) .invalidPartition
      Result.ensure (¬(left.firstLba < rightEnd ∧ right.firstLba < leftEnd)) .invalidPartition
    validateNoOverlap rest

def mbrPartition (diskSectors : Nat) (entry : Option MbrPartition) (index : Nat) :
    Result StorageError (Option Partition) :=
  match entry with
  | none => .ok none
  | some entry => do
    Result.ensure (entry.partitionType ≠ 0xee) .invalidGpt
    validatePartitionBounds entry.firstLba entry.sectorCount diskSectors
    .ok (some { index := index + 1, firstLba := entry.firstLba, sectorCount := entry.sectorCount,
                bootable := entry.bootable, mbrType := some entry.partitionType, typeGuid := none,
                uniqueGuid := none, attributes := 0, name := [] })

def readMbrTable (diskSectors : Nat) (entries : List (Option MbrPartition)) :
    Result StorageError PartitionTable := do
  let slots ← entries.zipIdx.mapM fun p => mbrPartition diskSectors p.1 p.2
  validateNoOverlap slots.reduceOption
  .ok { kind := .mbr, diskGuid := none, partitions := slots.reduceOption }

/-! ## The GUID partition table -/

/-- The checksum of a header, in which its own checksum field counts as zero. -/
def gptHeaderCrc32 (bytes : List UInt8) : Nat :=
  (~~~(bytes.zipIdx.foldl
    (fun crc p => crcByte crc (if 16 ≤ p.2 ∧ p.2 < 20 then 0 else p.1)) 0xffffffff)).toNat

def parseGptHeader (sector : List UInt8) : Result StorageError GptHeader := do
  Result.ensure (¬sector.length < 92) .invalidGpt
  let signature ← rangeOf sector 0 8
  Result.ensure (signature = gptSignature) .invalidGpt
  let headerSize ← getLe 4 sector 12
  Result.ensure (92 ≤ headerSize ∧ headerSize ≤ sector.length) .invalidGpt
  let expectedCrc ← getLe 4 sector 16
  let header ← rangeOf sector 0 headerSize
  Result.ensure (gptHeaderCrc32 header = expectedCrc) .checksumMismatch
  let revision ← getLe 4 sector 8
  let currentLba ← getLe 8 sector 24
  let backupLba ← getLe 8 sector 32
  let firstUsableLba ← getLe 8 sector 40
  let lastUsableLba ← getLe 8 sector 48
  let guidBytes ← rangeOf sector 56 72
  let diskGuid ← Guid.ofBytes guidBytes
  let entriesLba ← getLe 8 sector 72
  let entryCount ← getLe 4 sector 80
  let entrySize ← getLe 4 sector 84
  let entriesCrc32 ← getLe 4 sector 88
  Result.ensure (¬(revision ≠ 0x00010000 ∨ currentLba = backupLba ∨
    firstUsableLba > lastUsableLba ∨ entryCount = 0 ∨ entryCount > maxGptEntries ∨
    ¬(128 ≤ entrySize ∧ entrySize ≤ maxGptEntrySize) ∨ entrySize % 8 ≠ 0)) .invalidGpt
  .ok { revision := revision, headerSize := headerSize, currentLba := currentLba,
        backupLba := backupLba, firstUsableLba := firstUsableLba, lastUsableLba := lastUsableLba,
        diskGuid := diskGuid, entriesLba := entriesLba, entryCount := entryCount,
        entrySize := entrySize, entriesCrc32 := entriesCrc32 }

/-- `char::from_u32(value).unwrap_or('\u{fffd}')` -/
def charOfCode (value : Nat) : Char :=
  if value.isValidChar then Char.ofNat value else Char.ofNat 0xfffd

/-- The UTF-16 code units of a name, up to the first zero. A unit that is not a
character on its own becomes the replacement character. -/
def decodeGptName : List UInt8 → List Char
  | low :: high :: rest =>
    let value := ofLe [low, high]
    if value = 0 then [] else charOfCode value :: decodeGptName rest
  | _ => []

def decodeGptEntry (header : GptHeader) (entry : List UInt8) (i : Nat) :
    Result StorageError (Option Partition) := do
  let typeBytes ← rangeOf entry 0 16
  let typeGuid ← Guid.ofBytes typeBytes
  if typeGuid.isZero then
    .ok none
  else do
    let uniqueBytes ← rangeOf entry 16 32
    let uniqueGuid ← Guid.ofBytes uniqueBytes
    let firstLba ← getLe 8 entry 32
    let lastLba ← getLe 8 entry 40
    Result.ensure (¬(uniqueGuid.isZero ∨ firstLba < header.firstUsableLba ∨
      lastLba > header.lastUsableLba ∨ firstLba > lastLba)) .invalidGpt
    let sectorCount ← Result.okOr
      ((checkedSub lastLba firstLba).bind fun value => checkedAdd value 1) .invalidGpt
    let attributes ← getLe 8 entry 48
    let name ← rangeOf entry 56 (min header.entrySize 128)
    .ok (some { index := i + 1, firstLba := firstLba, sectorCount := sectorCount, bootable := false,
                mbrType := none, typeGuid := some typeGuid, uniqueGuid := some uniqueGuid,
                attributes := attributes, name := decodeGptName name })

/-- The loop of `read_gpt` over an entry array that is in memory. -/
def decodeGptEntries (header : GptHeader) (bytes : List UInt8) :
    Result StorageError (List Partition) := do
  let slots ← (List.range header.entryCount).mapM fun i => do
    let offset ← Result.okOr (checkedMul i header.entrySize) .tooLarge
    let entry ← rangeOf bytes offset (offset + header.entrySize)
    decodeGptEntry header entry i
  .ok slots.reduceOption

/-- The part of `read_gpt` behind the header. -/
def readGptTable (sectorSize : Nat) (header : GptHeader) :
    Exec Disk StorageError PartitionTable := do
  let d ← Exec.get
  let diskSectors := d.sectorCount
  Exec.ensure (¬(header.currentLba ≠ 1 ∨ header.backupLba ≥ diskSectors ∨
    header.lastUsableLba ≥ diskSectors ∨ header.entriesLba < 2)) .invalidGpt
  let entriesBytes ← Exec.okOr (checkedMul header.entryCount header.entrySize) .tooLarge
  let rounded ← Exec.okOr (checkedAdd entriesBytes (sectorSize - 1)) .tooLarge
  let entrySectors := rounded / sectorSize
  Exec.ensure (isNoneOr (checkedAdd header.entriesLba entrySectors)
    (fun stop => stop > diskSectors ∨ stop > header.firstUsableLba) = false) .invalidGpt
  let transferBytes ← Exec.okOr (checkedMul entrySectors sectorSize) .tooLarge
  let bytes ← Disk.readSectors header.entriesLba transferBytes
  let entries ← Exec.lift (rangeOf bytes 0 entriesBytes)
  Exec.ensure ((crc32 entries).toNat = header.entriesCrc32) .checksumMismatch
  let partitions ← Exec.lift (decodeGptEntries header bytes)
  Exec.lift (validateNoOverlap partitions)
  pure { kind := .gpt, diskGuid := some header.diskGuid, partitions := partitions }

def readGpt (sectorSize : Nat) : Exec Disk StorageError PartitionTable := do
  let sector ← Disk.readSectors 1 sectorSize
  let header ← Exec.lift (parseGptHeader sector)
  readGptTable sectorSize header

def isProtective (entry : Option MbrPartition) : Bool :=
  match entry with
  | some entry => entry.partitionType == 0xee
  | none => false

def readPartitionTable : Exec Disk StorageError PartitionTable := do
  let d ← Exec.get
  let size := d.sectorSize
  Exec.ensure (¬size < 512) .unsupportedSectorSize
  let sector ← Disk.readSectors 0 size
  let mbr ← Exec.lift (parseMbr sector)
  if mbr.any isProtective then
    readGpt size
  else
    Exec.lift (readMbrTable d.sectorCount mbr)

end NexOs.Storage
