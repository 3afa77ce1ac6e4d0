import NexOs.Nexfs.Layout
import NexOs.Storage.Installer

/-! The disk images of the host tools: partition tables that are planned, written
into an image and reported, and the two commands of `diskutil` that edit one. -/
namespace NexOs.Host
open Bytes Storage

abbrev sectorSize : Nat := 512
abbrev mib : Nat := 1024 * 1024
abbrev minDiskMib : Nat := 64

inductive TableKind where
  | gpt
  | mbr
  deriving DecidableEq

inductive PartitionRole where
  | biosBoot
  | efiSystem
  | nexFs
  | data
  deriving DecidableEq

namespace PartitionRole

def typeGuid : PartitionRole → Guid
  | biosBoot => biosBootTypeGuid
  | efiSystem => espTypeGuid
  | nexFs => nexfsTypeGuid
  | data => #v[0xaf, 0x3d, 0xc6, 0x0f, 0x83, 0x84, 0x72, 0x47, 0x8e, 0x79, 0x3d, 0x69, 0xd8, 0x47,
      0x7d, 0xe4]

def mbrType : PartitionRole → UInt8
  | biosBoot => 0xda
  | efiSystem => 0x0c
  | nexFs => 0xa9
  | data => 0x83

end PartitionRole

structure PartitionPlan where
  role : PartitionRole
  name : List Char
  firstLba : Nat
  sectorCount : Nat
  uniqueGuid : Guid
  bootable : Bool

structure LayoutPlan where
  kind : TableKind
  totalSectors : Nat
  diskGuid : Guid
  partitions : List PartitionPlan

inductive FilesystemKind where
  | unknown
  | fat32
  | nexFs
  deriving DecidableEq

structure PartitionReport where
  index : Nat
  firstLba : Nat
  sectorCount : Nat
  name : List Char
  role : PartitionRole
  filesystem : FilesystemKind
  bootable : Bool

structure DiskReport where
  bytes : Nat
  sectors : Nat
  sectorSize : Nat
  table : TableKind
  partitions : List PartitionReport

/-- The errors of the tools, one for each text. -/
inductive DiskError where
  | layoutSize
  | layoutTooSmall
  | mbrFull
  | gptFull
  | emptyOrOverflowing
  | outsideUsable (partition : Nat)
  | endOverflow
  | overlap
  | mbrStart
  | mbrLength
  | offsetTooLarge
  | rangeTooLarge
  | outsideImage
  | unaligned
  | cannotRead (error : StorageError)
  | missingPartition (index : Nat)
  | sparseDeletion
  deriving DecidableEq

/-! ## Reading -/

/-- `MemoryBlockDevice::from_bytes` with 512-byte sectors. -/
def diskOf (bytes : List UInt8) : Disk := { sectorSize := sectorSize, bytes := bytes, log := [] }

def partitionRange (imageBytes firstLba sectorCount : Nat) : Result DiskError (Nat × Nat) := do
  let start ← Result.okOr (checkedMul firstLba sectorSize) .offsetTooLarge
  let length ← Result.okOr (checkedMul sectorCount sectorSize) .rangeTooLarge
  let stop ← Result.okOr (checkedAdd start length) .rangeTooLarge
  Result.ensure (¬(start ≥ stop ∨ stop > imageBytes)) .outsideImage
  .ok (start, stop)

def detectIn (bytes : List UInt8) : FilesystemKind :=
  if 4096 + Nexfs.magic.length ≤ bytes.length ∧ slice bytes 4096 Nexfs.magic.length = Nexfs.magic then
    .nexFs
  else if sectorSize ≤ bytes.length ∧ slice bytes 510 2 = mbrSignature ∧
      (slice bytes 82 5 = [0x46, 0x41, 0x54, 0x33, 0x32] ∨
        slice bytes 54 5 = [0x46, 0x41, 0x54, 0x31, 0x36]) then
    .fat32
  else
    .unknown

def detectFilesystem (image : List UInt8) (firstLba sectors : Nat) : FilesystemKind :=
  match partitionRange image.length firstLba sectors with
  | .ok range => detectIn (slice image range.1 (range.2 - range.1))
  | .error _ => .unknown

def roleFromGuid (guid : Guid) : PartitionRole :=
  if guid = espTypeGuid then .efiSystem
  else if guid = biosBootTypeGuid then .biosBoot
  else if guid = nexfsTypeGuid then .nexFs
  else .data

def roleFromMbr (value : UInt8) : PartitionRole :=
  if value = 0x0b ∨ value = 0x0c ∨ value = 0xef then .efiSystem
  else if value = 0xa9 then .nexFs
  else if value = 0xda then .biosBoot
  else .data

def roleOf (partition : Partition) : PartitionRole :=
  ((partition.typeGuid.map roleFromGuid).or (partition.mbrType.map roleFromMbr)).getD .data

def reportPartition (bytes : List UInt8) (partition : Partition) : PartitionReport where
  index := partition.index
  firstLba := partition.firstLba
  sectorCount := partition.sectorCount
  name := partition.name
  role := roleOf partition
  filesystem := detectFilesystem bytes partition.firstLba partition.sectorCount
  bootable := partition.bootable

def tableKind : PartitionTableKind → TableKind
  | .gpt => .gpt
  | .mbr => .mbr

def readTable (bytes : List UInt8) : Result DiskError PartitionTable :=
  (Exec.mapError .cannotRead readPartitionTable (diskOf bytes)).1

def inspectBytes (bytes : List UInt8) : Result DiskError DiskReport := do
  Result.ensure (¬(bytes = [] ∨ bytes.length % sectorSize ≠ 0)) .unaligned
  let table ← readTable bytes
  .ok { bytes := bytes.length, sectors := (diskOf bytes).sectorCount, sectorSize := sectorSize,
        table := tableKind table.kind,
        partitions := table.partitions.map (reportPartition bytes) }

/-! ## Writing -/

/-- The loop of `validate_layout`; `index` counts the partitions already passed. -/
def validatePartitions (firstUsable lastUsable : Nat) :
    List PartitionPlan → Nat → Result DiskError Unit
  | [], _ => .ok ()
  | partition :: rest, index => do
    let stop ← Result.okOr ((checkedAdd partition.firstLba partition.sectorCount).bind fun value =>
      checkedSub value 1) .emptyOrOverflowing
    Result.ensure (¬(partition.sectorCount = 0 ∨ partition.firstLba < firstUsable ∨
      stop > lastUsable)) (.outsideUsable (index + 1))
    rest.forM fun other => do
      let otherEnd ← Result.okOr (checkedAdd other.firstLba other.sectorCount) .endOverflow
      Result.ensure (¬(partition.firstLba < otherEnd ∧
        other.firstLba < partition.firstLba + partition.sectorCount)) .overlap
    validatePartitions firstUsable lastUsable rest (index + 1)

def LayoutPlan.firstUsable (plan : LayoutPlan) : Nat :=
  if plan.kind = .gpt then gptFirstUsableLba else 1

def LayoutPlan.lastUsable (plan : LayoutPlan) : Result DiskError Nat :=
  if plan.kind = .gpt then
    Result.okOr (checkedSub plan.totalSectors gptFirstUsableLba) .layoutTooSmall
  else
    subU64 plan.totalSectors 1

def validateLayout (plan : LayoutPlan) : Result DiskError Unit := do
  Result.ensure (¬plan.totalSectors < minDiskMib * mib / sectorSize) .layoutTooSmall
  Result.ensure (¬(plan.kind = .mbr ∧ plan.partitions.length > 4)) .mbrFull
  Result.ensure (¬(plan.kind = .gpt ∧ plan.partitions.length > gptEntryCount)) .gptFull
  let lastUsable ← plan.lastUsable
  validatePartitions plan.firstUsable lastUsable plan.partitions 0

def mbrEntry (partition : PartitionPlan) : Result DiskError (List UInt8) := do
  Result.ensure (partition.firstLba < 2 ^ 32) .mbrStart
  Result.ensure (partition.sectorCount < 2 ^ 32) .mbrLength
  .ok ([if partition.bootable then 0x80 else 0, 0xff, 0xff, 0xff, partition.role.mbrType,
    0xff, 0xff, 0xff] ++ leBytes 4 partition.firstLba ++ leBytes 4 partition.sectorCount)

def mbrFields (entries : List (List UInt8)) : List (Nat × List UInt8) :=
  (entries.zipIdx.map fun p => (446 + p.2 * 16, p.1)) ++ [(510, mbrSignature)]

def writeMbr (image : List UInt8) (plan : LayoutPlan) : Result DiskError (List UInt8) := do
  let entries ← plan.partitions.mapM mbrEntry
  copyFromSlice image 0 sectorSize (writeFields (List.replicate sectorSize 0) (mbrFields entries))

def planRow (partition : PartitionPlan) : Result DiskError GptRow := do
  let stop ← addU64 partition.firstLba partition.sectorCount
  let lastLba ← subU64 stop 1
  .ok { typeGuid := partition.role.typeGuid, uniqueGuid := partition.uniqueGuid,
        firstLba := partition.firstLba, lastLba := lastLba, name := partition.name }

/-- `image[partition_range(..)?].copy_from_slice(&bytes)` -/
def copySectors (image : List UInt8) (firstLba sectorCount : Nat) (bytes : List UInt8) :
    Result DiskError (List UInt8) := do
  let range ← partitionRange image.length firstLba sectorCount
  copyFromSlice image range.1 (range.2 - range.1) bytes

def writeGpt (image : List UInt8) (plan : LayoutPlan) : Result DiskError (List UInt8) := do
  let backupHeaderLba ← subU64 plan.totalSectors 1
  let backupEntriesLba ← subU64 backupHeaderLba gptEntrySectors
  let lastUsableLba ← subU64 backupEntriesLba 1
  let rows ← plan.partitions.mapM planRow
  let entries := writeFields (List.replicate (gptEntryCount * gptEntrySize) 0)
    (rows.zipIdx.map fun p => (p.2 * gptEntrySize, p.1.bytes))
  let image ← copySectors image 2 gptEntrySectors entries
  let image ← copySectors image backupEntriesLba gptEntrySectors entries
  let image ← copyFromSlice image 0 sectorSize (protectiveMbr (min backupHeaderLba (2 ^ 32 - 1)))
  let image ← copySectors image 1 1 (gptHeader 1 backupHeaderLba gptFirstUsableLba lastUsableLba
    plan.diskGuid 2 (crc32 entries))
  copySectors image backupHeaderLba 1 (gptHeader backupHeaderLba 1 gptFirstUsableLba lastUsableLba
    plan.diskGuid backupEntriesLba (crc32 entries))

def writeLayout (image : List UInt8) (plan : LayoutPlan) : Result DiskError (List UInt8) := do
  Result.ensure (image.length / sectorSize = plan.totalSectors) .layoutSize
  validateLayout plan
  let image ← copyFromSlice image 0 sectorSize (List.replicate sectorSize 0)
  match plan.kind with
  | .gpt => writeGpt image plan
  | .mbr => writeMbr image plan

/-! ## Editing -/

/-- What `generate_guid` takes from its surroundings: the clock at each of its calls,
which the static counter numbers, and the process. -/
structure GuidSource where
  clock : Nat → Nat
  processId : Nat

def mixGuidWord (value : UInt64) : UInt64 :=
  let value := value ^^^ (value >>> 30)
  let value := value * 0xbf58476d1ce4e5b9
  let value := value ^^^ (value >>> 27)
  let value := value * 0x94d049bb133111eb
  value ^^^ (value >>> 31)

def rotateLeft (value shift : UInt64) : UInt64 := (value <<< shift) ||| (value >>> (64 - shift))

def guidWords (source : GuidSource) (counter : Nat) : List UInt8 :=
  let nanos := source.clock counter
  let count := UInt64.ofNat counter
  let seed := UInt64.ofNat nanos ^^^ UInt64.ofNat (nanos / 2 ^ 64) ^^^ rotateLeft count 19 ^^^
    rotateLeft (UInt64.ofNat source.processId) 41
  leBytes 8 (mixGuidWord seed).toNat ++
    leBytes 8 (mixGuidWord (seed ^^^ count ^^^ 0xd6e8feb86659fd93)).toNat

def generateGuid (source : GuidSource) (counter : Nat) : Guid :=
  let words := guidWords source counter
  Vector.ofFn fun i =>
    if i.val = 6 then (byteAt words 6 &&& 0x0f) ||| 0x40
    else if i.val = 8 then (byteAt words 8 &&& 0x3f) ||| 0x80
    else byteAt words i.val

/-- The plan that rebuilds a reported table, from the call `counter` of `generate_guid`
on: the disk takes the first identifier and the partitions the next ones. -/
def layoutFromReport (source : GuidSource) (counter : Nat) (report : DiskReport) : LayoutPlan where
  kind := report.table
  totalSectors := report.sectors
  diskGuid := generateGuid source counter
  partitions := report.partitions.zipIdx.map fun p =>
    { role := p.1.role, name := p.1.name, firstLba := p.1.firstLba, sectorCount := p.1.sectorCount,
      uniqueGuid := generateGuid source (counter + 1 + p.2), bootable := p.1.bootable }

/-- What `write_transactional` puts in the place of the image: the new bytes, once their
table was read back. -/
def writeTransactional (bytes : List UInt8) : Result DiskError (List UInt8) := do
  let _ ← inspectBytes bytes
  .ok bytes

/-- `diskutil partition-delete` on the bytes of an image. -/
def partitionDelete (source : GuidSource) (counter : Nat) (bytes : List UInt8) (index : Nat) :
    Result DiskError (List UInt8) := do
  let report ← inspectBytes bytes
  Result.ensure (report.partitions.any (fun item => item.index == index) = true)
    (.missingPartition index)
  let layout := layoutFromReport source counter report
  let position := index - 1
  Result.ensure (¬position ≥ layout.partitions.length) .sparseDeletion
  let bytes ← writeLayout bytes { layout with partitions := layout.partitions.eraseIdx position }
  writeTransactional bytes

end NexOs.Host
