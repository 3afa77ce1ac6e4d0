import NexOs.Storage.GptEncode

/-! The guided installation: the layout of the target disk, and the writer and the
verifier of its partition table. -/
namespace NexOs.Storage
open Bytes

def biosBootTypeGuid : Guid :=
  #v[0x48, 0x61, 0x68, 0x21, 0x49, 0x64, 0x6f, 0x6e, 0x74, 0x4e, 0x65, 0x65, 0x64, 0x45, 0x46, 0x49]

def espTypeGuid : Guid :=
  #v[0x28, 0x73, 0x2a, 0xc1, 0x1f, 0xf8, 0xd2, 0x11, 0xba, 0x4b, 0x00, 0xa0, 0xc9, 0x3e, 0xc9, 0x3b]

def nexfsTypeGuid : Guid :=
  #v[0x4e, 0x65, 0x78, 0x46, 0x53, 0x00, 0x10, 0x40, 0x80, 0x00, 0x4e, 0x65, 0x78, 0x4f, 0x53, 0x00]

abbrev sectorBytes : Nat := 512
abbrev alignmentSectors : Nat := 2048
abbrev biosSectors : Nat := 2048
abbrev espSectors : Nat := 64 * 1024 * 1024 / 512
abbrev minDiskSectors : Nat := 128 * 1024 * 1024 / 512

structure PartitionSpan where
  firstLba : Nat
  sectorCount : Nat
  deriving DecidableEq

structure InstallerLayout where
  diskGuid : Guid
  bios : PartitionSpan
  esp : PartitionSpan
  root : PartitionSpan

structure InstallerGuids where
  disk : Guid
  bios : Guid
  esp : Guid
  root : Guid

def alignUp (value alignment : Nat) : Nat :=
  saturatingAdd value (alignment - 1) / alignment * alignment

def guidedInstallerLayout (totalSectors : Nat) (diskGuid : Guid) :
    Result StorageError InstallerLayout := do
  Result.ensure (¬totalSectors < minDiskSectors) .noSpace
  let backupEntriesLba ← Result.okOr (checkedSub totalSectors (1 + gptEntrySectors)) .noSpace
  let lastUsableLba ← Result.okOr (checkedSub backupEntriesLba 1) .noSpace
  let bios : PartitionSpan := ⟨alignmentSectors, biosSectors⟩
  let esp : PartitionSpan := ⟨bios.firstLba + bios.sectorCount, espSectors⟩
  let espEnd ← Result.okOr (checkedAdd esp.firstLba esp.sectorCount) .tooLarge
  let rootFirst := alignUp espEnd alignmentSectors
  Result.ensure (¬rootFirst ≥ lastUsableLba) .noSpace
  .ok { diskGuid := diskGuid, bios := bios, esp := esp,
        root := ⟨rootFirst, lastUsableLba - rootFirst + 1⟩ }

/-! ## Writing -/

/-- `struct Crc32`: the checksum of a text that arrives in pieces. -/
structure Crc32 where
  state : UInt32

namespace Crc32

def new : Crc32 := ⟨0xffffffff⟩

def update (crc : Crc32) (bytes : List UInt8) : Crc32 := ⟨bytes.foldl crcByte crc.state⟩

def finish (crc : Crc32) : UInt32 := ~~~crc.state

end Crc32

def encodeEntry (typeGuid uniqueGuid : Guid) (span : PartitionSpan) (name : List Char) :
    Result StorageError (List UInt8) := do
  let stop ← addU64 span.firstLba span.sectorCount
  let lastLba ← subU64 stop 1
  .ok (GptRow.bytes { typeGuid := typeGuid, uniqueGuid := uniqueGuid, firstLba := span.firstLba,
                      lastLba := lastLba, name := name })

def encodeHeader (currentLba backupLba totalSectors : Nat) (diskGuid : Guid) (entriesLba : Nat)
    (entriesCrc : UInt32) : Result StorageError (List UInt8) := do
  let behindEntries ← subU64 totalSectors gptEntrySectors
  let lastUsableLba ← subU64 behindEntries 2
  .ok (gptHeader currentLba backupLba gptFirstUsableLba lastUsableLba diskGuid entriesLba entriesCrc)

def biosName : List Char := "NexOS BIOS".toList
def espName : List Char := "NexOS boot".toList
def rootName : List Char := "NexOS root".toList

def installerEntries (guids : InstallerGuids) (layout : InstallerLayout) :
    Result StorageError (List UInt8) := do
  let bios ← encodeEntry biosBootTypeGuid guids.bios layout.bios biosName
  let esp ← encodeEntry espTypeGuid guids.esp layout.esp espName
  let root ← encodeEntry nexfsTypeGuid guids.root layout.root rootName
  .ok (writeFields (List.replicate sectorBytes 0) [(0, bios), (128, esp), (256, root)])

def writeEntrySector (entrySector : List UInt8) (backupEntriesLba : Nat) (crc : Crc32)
    (index : Nat) : Exec Disk StorageError Crc32 := do
  let sector := if index = 0 then entrySector else List.replicate sectorBytes 0
  Disk.writeSectors (2 + index) sector
  Disk.writeSectors (backupEntriesLba + index) sector
  pure (crc.update sector)

/-- `mbr.iter().flatten().any(..)` of the verifier. -/
def coversDisk (entry : Option MbrPartition) : Bool :=
  match entry with
  | some entry => entry.partitionType == 0xee && entry.firstLba == 1
  | none => false

def verifyEntry (input : List UInt8) (typeGuid : Guid) (expected : PartitionSpan) :
    Result StorageError Unit := do
  let typeBytes ← rangeOf input 0 16
  Result.ensure (typeBytes = typeGuid.toList) .invalidPartition
  let firstLba ← getLe 8 input 32
  Result.ensure (firstLba = expected.firstLba) .invalidPartition
  let lastLba ← getLe 8 input 40
  let span ← subU64 expected.sectorCount 1
  let expectedLast ← Result.okOr (checkedAdd expected.firstLba span) .invalidPartition
  Result.ensure (lastLba = expectedLast) .invalidPartition

/-- The three entries that the verifier looks at, all in the first sector. -/
def verifyEntries (sector : List UInt8) (expected : InstallerLayout) : Result StorageError Unit := do
  let bios ← rangeOf sector 0 128
  verifyEntry bios biosBootTypeGuid expected.bios
  let esp ← rangeOf sector 128 256
  verifyEntry esp espTypeGuid expected.esp
  let root ← rangeOf sector 256 384
  verifyEntry root nexfsTypeGuid expected.root

def verifyEntrySector (entriesLba : Nat) (expected : InstallerLayout) (crc : Crc32) (index : Nat) :
    Exec Disk StorageError Crc32 := do
  let lba ← Exec.lift (addU64 entriesLba index)
  let sector ← Disk.readSectors lba sectorBytes
  Exec.lift (if index = 0 then verifyEntries sector expected else .ok ())
  pure (crc.update sector)

def verifyGuidedInstallerGpt (expected : InstallerLayout) : Exec Disk StorageError Unit := do
  let d ← Exec.get
  Exec.ensure (d.sectorSize = sectorBytes) .unsupportedSectorSize
  let sector ← Disk.readSectors 0 sectorBytes
  let mbr ← Exec.lift (parseMbr sector)
  Exec.ensure (mbr.any coversDisk = true) .invalidGpt
  let sector ← Disk.readSectors 1 sectorBytes
  let header ← Exec.lift (parseGptHeader sector)
  Exec.ensure (header.currentLba = 1) .invalidGpt
  let lastLba ← Exec.lift (subU64 d.sectorCount 1)
  Exec.ensure (¬(header.backupLba ≠ lastLba ∨ header.diskGuid ≠ expected.diskGuid ∨
    header.entryCount ≠ gptEntryCount ∨ header.entrySize ≠ gptEntrySize)) .invalidGpt
  let crc ← (List.range gptEntrySectors).foldlM (verifyEntrySector header.entriesLba expected)
    Crc32.new
  Exec.ensure (crc.finish.toNat = header.entriesCrc32) .checksumMismatch
  let sector ← Disk.readSectors header.backupLba sectorBytes
  let backup ← Exec.lift (parseGptHeader sector)
  Exec.ensure (¬(backup.currentLba ≠ header.backupLba ∨ backup.backupLba ≠ 1 ∨
    backup.diskGuid ≠ header.diskGuid ∨ backup.entriesCrc32 ≠ header.entriesCrc32)) .invalidGpt

def writeGuidedInstallerGpt (guids : InstallerGuids) : Exec Disk StorageError InstallerLayout := do
  let d ← Exec.get
  Exec.ensure (d.sectorSize = sectorBytes) .unsupportedSectorSize
  let totalSectors := d.sectorCount
  let layout ← Exec.lift (guidedInstallerLayout totalSectors guids.disk)
  Exec.ensure (¬(guids.disk.isZero ∨ guids.bios.isZero ∨ guids.esp.isZero ∨ guids.root.isZero))
    .invalidPartition
  let backupHeaderLba ← Exec.lift (subU64 totalSectors 1)
  let backupEntriesLba ← Exec.lift (subU64 backupHeaderLba gptEntrySectors)
  let entrySector ← Exec.lift (installerEntries guids layout)
  let crc ← (List.range gptEntrySectors).foldlM (writeEntrySector entrySector backupEntriesLba)
    Crc32.new
  let entriesCrc := crc.finish
  Disk.writeSectors 0 (protectiveMbr (min backupHeaderLba (2 ^ 32 - 1)))
  let primary ← Exec.lift
    (encodeHeader 1 backupHeaderLba totalSectors layout.diskGuid 2 entriesCrc)
  Disk.writeSectors 1 primary
  let backup ← Exec.lift
    (encodeHeader backupHeaderLba 1 totalSectors layout.diskGuid backupEntriesLba entriesCrc)
  Disk.writeSectors backupHeaderLba backup
  Disk.flush
  verifyGuidedInstallerGpt layout
  pure layout

end NexOs.Storage
