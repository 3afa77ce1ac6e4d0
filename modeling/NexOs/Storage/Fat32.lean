import NexOs.Lib.Scan
import NexOs.Lib.Text
import NexOs.Storage.Partition

/-! FAT32 as the storage crate formats, mounts and reads it. A mounted volume is its
geometry; the device that it owns is the state. -/
namespace NexOs.Storage
open Bytes Text

abbrev fat32MinClusters : Nat := 65525
abbrev fatEntryMask : Nat := 0x0fffffff
abbrev fatEoc : Nat := 0x0fffffff
abbrev fatEocMin : Nat := 0x0ffffff8
abbrev attrDirectory : UInt8 := 0x10
abbrev attrLongName : UInt8 := 0x0f
abbrev attrVolumeId : UInt8 := 0x08
abbrev fatCount : Nat := 2
abbrev reservedSectors : Nat := 32
abbrev rootCluster : Nat := 2
abbrev formatChunkSectors : Nat := 64

structure Fat32Info where
  bytesPerSector : Nat
  sectorsPerCluster : Nat
  totalSectors : Nat
  sectorsPerFat : Nat
  rootCluster : Nat
  totalClusters : Nat
  deriving DecidableEq

structure FatDirectoryEntry where
  name : List Char
  isDirectory : Bool
  size : Nat
  firstCluster : Nat
  deriving DecidableEq

structure EntryLocation where
  sector : Nat
  offset : Nat
  deriving DecidableEq

structure RawDirectoryEntry where
  location : EntryLocation
  bytes : List UInt8
  deriving DecidableEq

structure Fat32 where
  bytesPerSector : Nat
  sectorsPerCluster : Nat
  reservedSectors : Nat
  fatCount : Nat
  sectorsPerFat : Nat
  totalSectors : Nat
  rootCluster : Nat
  firstDataSector : Nat
  totalClusters : Nat
  deriving DecidableEq

/-- `a.div_ceil(b)` -/
def divCeil (a b : Nat) : Nat := (a + b - 1) / b

/-- `n.is_power_of_two()` -/
def isPowerOfTwo (n : Nat) : Bool := n != 0 && n &&& (n - 1) == 0

/-! ## Formatting -/

/-- The loop of `choose_format_geometry` over the cluster sizes. -/
def chooseGeometryFrom (totalSectors bytesPerSector : Nat) :
    List Nat → Result StorageError (Nat × Nat × Nat)
  | [] => Result.fail .unsupportedFilesystem
  | sectorsPerCluster :: rest => do
    let possibleData ← Result.okOr (checkedSub totalSectors reservedSectors) .unsupportedFilesystem
    let maximumClusters := possibleData / sectorsPerCluster
    let entries ← addU32 maximumClusters 2
    let sectorsPerFat := divCeil (entries * 4) bytesPerSector
    Result.ensure (sectorsPerFat < 2 ^ 32) .tooLarge
    let fats ← mulU32 fatCount sectorsPerFat
    let overhead ← Result.okOr (checkedAddU32 reservedSectors fats) .tooLarge
    let dataSectors ← Result.okOr (checkedSub totalSectors overhead) .unsupportedFilesystem
    let clusters := dataSectors / sectorsPerCluster
    let fatCapacity := sectorsPerFat * bytesPerSector / 4
    if (fat32MinClusters ≤ clusters ∧ clusters ≤ 0x0ffffff5) ∧ fatCapacity ≥ clusters + 2 then
      .ok (sectorsPerCluster, sectorsPerFat, clusters)
    else
      chooseGeometryFrom totalSectors bytesPerSector rest

def chooseFormatGeometry (totalSectors bytesPerSector : Nat) :
    Result StorageError (Nat × Nat × Nat) :=
  chooseGeometryFrom totalSectors bytesPerSector [1, 2, 4, 8, 16, 32, 64, 128]

/-- The boot sector that is written to sectors 0 and 6. -/
def bootFields (sectorsPerCluster totalSectors sectorsPerFat volumeId : Nat) :
    List (Nat × List UInt8) :=
  [(0, [0xeb, 0x58, 0x90]),
    (3, [0x4e, 0x45, 0x58, 0x4f, 0x53, 0x20, 0x20, 0x20]),
    (11, leBytes 2 512),
    (13, leBytes 1 sectorsPerCluster),
    (14, leBytes 2 reservedSectors),
    (16, leBytes 1 fatCount),
    (21, [0xf8]),
    (24, leBytes 2 63),
    (26, leBytes 2 255),
    (32, leBytes 4 totalSectors),
    (36, leBytes 4 sectorsPerFat),
    (44, leBytes 4 rootCluster),
    (48, leBytes 2 1),
    (50, leBytes 2 6),
    (64, [0x80]),
    (66, [0x29]),
    (67, leBytes 4 volumeId),
    (71, [0x4e, 0x45, 0x58, 0x4f, 0x53, 0x20, 0x42, 0x4f, 0x4f, 0x54, 0x20]),
    (82, [0x46, 0x41, 0x54, 0x33, 0x32, 0x20, 0x20, 0x20]),
    (510, mbrSignature)]

def bootSector (sectorsPerCluster totalSectors sectorsPerFat volumeId : Nat) : List UInt8 :=
  writeFields (List.replicate 512 0)
    (bootFields sectorsPerCluster totalSectors sectorsPerFat volumeId)

def infoSector (freeClusters : Nat) : List UInt8 :=
  writeFields (List.replicate 512 0)
    [(0, leBytes 4 0x41615252), (484, leBytes 4 0x61417272), (488, leBytes 4 freeClusters),
      (492, leBytes 4 3), (508, leBytes 4 0xaa550000)]

def fatSector : List UInt8 :=
  writeFields (List.replicate 512 0)
    [(0, leBytes 4 0x0ffffff8), (4, leBytes 4 0xffffffff), (8, leBytes 4 fatEoc)]

/-- The loop of `zero_range`; every round completes at least one sector. -/
def zeroRangeFrom (firstLba sectorCount sectorsPerChunk : Nat) (zeros : List UInt8) :
    Nat → Nat → Exec Disk StorageError Unit
  | 0, _ => Exec.diverge
  | fuel + 1, completed => do
    if completed < sectorCount then
      let d ← Exec.get
      let sectors := min (sectorCount - completed) sectorsPerChunk
      let bytes ← Exec.okOr (checkedMul sectors d.sectorSize) .tooLarge
      let chunk ← Exec.lift (rangeOf zeros 0 bytes)
      Disk.writeSectors (firstLba + completed) chunk
      zeroRangeFrom firstLba sectorCount sectorsPerChunk zeros fuel (completed + sectors)
    else
      pure ()

def zeroRange (firstLba sectorCount : Nat) (zeros : List UInt8) : Exec Disk StorageError Unit := do
  let d ← Exec.get
  zeroRangeFrom firstLba sectorCount (zeros.length / d.sectorSize) zeros (sectorCount + 1) 0

def formatFat32 (volumeId : Nat) : Exec Disk StorageError Fat32Info := do
  let d ← Exec.get
  Exec.ensure (d.sectorSize = 512) .unsupportedSectorSize
  let totalSectors := d.sectorCount
  Exec.ensure (totalSectors < 2 ^ 32) .tooLarge
  let geometry ← Exec.lift (chooseFormatGeometry totalSectors 512)
  let sectorsPerCluster := geometry.1
  let sectorsPerFat := geometry.2.1
  let totalClusters := geometry.2.2
  let boot := bootSector sectorsPerCluster totalSectors sectorsPerFat volumeId
  Disk.writeSectors 0 boot
  Disk.writeSectors 6 boot
  let freeClusters ← Exec.lift (subU64 totalClusters 1)
  let info := infoSector freeClusters
  Disk.writeSectors 1 info
  Disk.writeSectors 7 info
  zeroRange reservedSectors (fatCount * sectorsPerFat + sectorsPerCluster)
    (List.replicate (512 * formatChunkSectors) 0)
  (List.range fatCount).forM fun fat =>
    Disk.writeSectors (reservedSectors + fat * sectorsPerFat) fatSector
  Disk.flush
  pure { bytesPerSector := 512, sectorsPerCluster := sectorsPerCluster,
         totalSectors := totalSectors, sectorsPerFat := sectorsPerFat, rootCluster := rootCluster,
         totalClusters := totalClusters }

/-! ## Names and directory entries -/

def validShortCharacter (byte : UInt8) : Bool :=
  (0x30 ≤ byte && byte ≤ 0x39) || (0x41 ≤ byte && byte ≤ 0x5a) || (0x61 ≤ byte && byte ≤ 0x7a) ||
    [0x24, 0x25, 0x27, 0x2d, 0x5f, 0x40, 0x7e, 0x60, 0x21, 0x28, 0x29, 0x7b, 0x7d, 0x5e, 0x23,
      0x26].contains byte

/-- `byte.to_ascii_uppercase()` -/
def toAsciiUppercase (byte : UInt8) : UInt8 :=
  if 0x61 ≤ byte && byte ≤ 0x7a then byte - 0x20 else byte

/-- `s.is_ascii()` -/
def isAscii (s : List Char) : Bool := s.all fun c => c.toNat < 128

/-- `s.bytes()` of an ASCII string. -/
def asciiBytes (s : List Char) : List UInt8 := s.map fun c => UInt8.ofNat c.toNat

/-- The bytes in a field of the given width, filled up with spaces. -/
def padName (width : Nat) (bytes : List UInt8) : List UInt8 :=
  bytes.map toAsciiUppercase ++ List.replicate (width - bytes.length) 0x20

def shortName (name : List Char) : Result StorageError (List UInt8) := do
  Result.ensure (¬(name = [] ∨ name = ['.'] ∨ name = ['.', '.'] ∨ isAscii name = false)) .invalidName
  let parts := name.splitOn '.'
  let base ← Result.okOr parts[0]? .invalidName
  let extension := parts[1]?.getD []
  Result.ensure (¬(2 < parts.length ∨ base = [] ∨ base.length > 8 ∨ extension.length > 3 ∨
    (asciiBytes base ++ asciiBytes extension).all validShortCharacter = false)) .invalidName
  .ok (padName 8 (asciiBytes base) ++ padName 3 (asciiBytes extension))

def pathComponents (path : List Char) : Result StorageError (List (List UInt8)) :=
  let trimmed := trimMatches '/' path
  if trimmed = [] then .ok [] else (trimmed.splitOn '/').mapM shortName

def entryCluster (bytes : List UInt8) : Nat := (le bytes 20 2 <<< 16) ||| le bytes 26 2

def isDirectoryEntry (bytes : List UInt8) : Bool := byteAt bytes 11 &&& attrDirectory != 0

/-- The last character of a field that is not a space ends the name. -/
def displayShortName (bytes : List UInt8) : Result StorageError (List Char) := do
  Result.ensure (bytes.length = 11) .corruptFilesystem
  let base := (slice bytes 0 8).rdropWhile (· == 0x20)
  let extension := (slice bytes 8 3).rdropWhile (· == 0x20)
  let char := fun byte : UInt8 => Char.ofNat byte.toNat
  .ok (base.map char ++ if extension = [] then [] else '.' :: extension.map char)

def publicEntry (bytes : List UInt8) : Result StorageError FatDirectoryEntry := do
  let name ← displayShortName (slice bytes 0 11)
  .ok { name := name, isDirectory := isDirectoryEntry bytes, size := le bytes 28 4,
        firstCluster := entryCluster bytes }

namespace Fat32

/-! ## Mounting -/

/-- What `mount` makes of the boot sector. -/
def parseBoot (sectorSize sectorCount : Nat) (boot : List UInt8) : Result StorageError Fat32 := do
  Result.ensure (¬(boot.length < 512 ∨ slice boot 510 2 ≠ [0x55, 0xaa])) .unsupportedFilesystem
  let bytesPerSector ← getLe 2 boot 11
  let sectorsPerCluster ← getLe 1 boot 13
  let reservedSectors ← getLe 2 boot 14
  let fatCount ← getLe 1 boot 16
  let rootEntryCount ← getLe 2 boot 17
  let totalSectors16 ← getLe 2 boot 19
  let sectorsPerFat16 ← getLe 2 boot 22
  let totalSectors32 ← getLe 4 boot 32
  let sectorsPerFat ← getLe 4 boot 36
  let version ← getLe 2 boot 42
  let rootCluster ← getLe 4 boot 44
  let totalSectors := if totalSectors16 = 0 then totalSectors32 else totalSectors16
  Result.ensure (¬(bytesPerSector ≠ sectorSize ∨ isPowerOfTwo bytesPerSector = false ∨
    sectorsPerCluster = 0 ∨ isPowerOfTwo sectorsPerCluster = false ∨ sectorsPerCluster > 128 ∨
    reservedSectors = 0 ∨ ¬(1 ≤ fatCount ∧ fatCount ≤ 2) ∨ rootEntryCount ≠ 0 ∨
    sectorsPerFat16 ≠ 0 ∨ sectorsPerFat = 0 ∨ totalSectors = 0 ∨ version ≠ 0 ∨ rootCluster < 2 ∨
    totalSectors > sectorCount)) .unsupportedFilesystem
  let fatSectors ← Result.okOr (checkedMulU32 fatCount sectorsPerFat) .corruptFilesystem
  let firstDataSector ← Result.okOr (checkedAddU32 reservedSectors fatSectors) .corruptFilesystem
  let dataSectors ← Result.okOr (checkedSub totalSectors firstDataSector) .corruptFilesystem
  let totalClusters := dataSectors / sectorsPerCluster
  let fatBytes ← Result.okOr (checkedMul sectorsPerFat bytesPerSector) .corruptFilesystem
  let fatCapacity := fatBytes / 4
  Result.ensure (¬(totalClusters < fat32MinClusters ∨ fatCapacity < totalClusters + 2))
    .unsupportedFilesystem
  let clusterLimit ← addU32 totalClusters 2
  Result.ensure (¬rootCluster ≥ clusterLimit) .unsupportedFilesystem
  .ok { bytesPerSector := bytesPerSector, sectorsPerCluster := sectorsPerCluster,
        reservedSectors := reservedSectors, fatCount := fatCount, sectorsPerFat := sectorsPerFat,
        totalSectors := totalSectors, rootCluster := rootCluster,
        firstDataSector := firstDataSector, totalClusters := totalClusters }

def mount : Exec Disk StorageError Fat32 := do
  let d ← Exec.get
  Exec.ensure (512 ≤ d.sectorSize ∧ d.sectorSize ≤ 4096) .unsupportedSectorSize
  let boot ← Disk.readSectors 0 d.sectorSize
  Exec.lift (parseBoot d.sectorSize d.sectorCount boot)

def info (fs : Fat32) : Fat32Info where
  bytesPerSector := fs.bytesPerSector
  sectorsPerCluster := fs.sectorsPerCluster
  totalSectors := fs.totalSectors
  sectorsPerFat := fs.sectorsPerFat
  rootCluster := fs.rootCluster
  totalClusters := fs.totalClusters

/-! ## Clusters and the FAT -/

variable (fs : Fat32)

def validCluster (cluster : Nat) : Prop := 2 ≤ cluster ∧ cluster < fs.totalClusters + 2

instance (cluster : Nat) : Decidable (fs.validCluster cluster) :=
  inferInstanceAs (Decidable (_ ∧ _))

def clusterLba (cluster : Nat) : Result StorageError Nat := do
  Result.ensure (fs.validCluster cluster) .corruptFilesystem
  let relative ← Result.okOr ((checkedSub cluster 2).bind fun value =>
    checkedMulU32 value fs.sectorsPerCluster) .corruptFilesystem
  Result.okOr (checkedAdd fs.firstDataSector relative) .corruptFilesystem

def readSector (lba : Nat) : Exec Disk StorageError (List UInt8) :=
  Disk.readSectors lba fs.bytesPerSector

def readFatEntry (cluster : Nat) : Exec Disk StorageError Nat := do
  Exec.ensure (fs.validCluster cluster) .corruptFilesystem
  let byteOffset ← Exec.okOr (checkedMul cluster 4) .corruptFilesystem
  let sector ← Exec.okOr (checkedAdd fs.reservedSectors (byteOffset / fs.bytesPerSector))
    .corruptFilesystem
  let bytes ← fs.readSector sector
  let value ← Exec.lift (getLe 4 bytes (byteOffset % fs.bytesPerSector))
  pure (value &&& fatEntryMask)

/-- The loop of `write_fat_entry` over the copies of the FAT. -/
def writeFatCopy (sectorInFat offset value fatIndex : Nat) : Exec Disk StorageError Unit := do
  let base ← Exec.okOr (checkedMul fatIndex fs.sectorsPerFat) .corruptFilesystem
  let sector ← Exec.okOr ((checkedAdd fs.reservedSectors base).bind fun base =>
    checkedAdd base sectorInFat) .corruptFilesystem
  let bytes ← fs.readSector sector
  let previous ← Exec.lift (getLe 4 bytes offset)
  let updated := (previous &&& 0xf0000000) ||| (value &&& fatEntryMask)
  let bytes ← Exec.lift (copyFromSlice bytes offset 4 (leBytes 4 updated))
  Disk.writeSectors sector bytes

def writeFatEntry (cluster value : Nat) : Exec Disk StorageError Unit := do
  Exec.ensure (fs.validCluster cluster) .corruptFilesystem
  let byteOffset ← Exec.okOr (checkedMul cluster 4) .corruptFilesystem
  (List.range fs.fatCount).forM
    (fs.writeFatCopy (byteOffset / fs.bytesPerSector) (byteOffset % fs.bytesPerSector) value)

/-- The loop of `cluster_chain`, at most `fuel` clusters long. -/
def clusterChainFrom : Nat → Nat → List Nat → Exec Disk StorageError (List Nat)
  | 0, _, _ => Exec.fail .corruptFilesystem
  | fuel + 1, current, chain => do
    let next ← fs.readFatEntry current
    if next ≥ fatEocMin then
      pure (chain ++ [current])
    else do
      Exec.ensure (fs.validCluster next) .corruptFilesystem
      clusterChainFrom fuel next (chain ++ [current])

def clusterChain (firstCluster : Nat) : Exec Disk StorageError (List Nat) := do
  Exec.ensure (fs.validCluster firstCluster) .corruptFilesystem
  fs.clusterChainFrom fs.totalClusters firstCluster []

/-! ## Directories -/

/-- The loops over the clusters, sectors and slots of a directory. The body sees the
sector, where it lies and the offset of the slot. -/
def scanSlots {α : Type} (visit : α → Nat → List UInt8 → Nat → Result StorageError (ForInStep α))
    (chain : List Nat) (a : α) : Exec Disk StorageError (ForInStep α) :=
  scanM (fun a cluster => do
    let firstSector ← Exec.lift (fs.clusterLba cluster)
    scanM (fun a sectorOffset => do
      let sectorLba ← Exec.okOr (checkedAdd firstSector sectorOffset) .corruptFilesystem
      let sector ← fs.readSector sectorLba
      Exec.lift (scanM (fun a slot => visit a sectorLba sector (slot * 32))
        (List.range (divCeil sector.length 32)) a)) (List.range fs.sectorsPerCluster) a) chain a

def visitEntry (entries : List RawDirectoryEntry) (sectorLba : Nat) (sector : List UInt8)
    (offset : Nat) : Result StorageError (ForInStep (List RawDirectoryEntry)) := do
  let marker ← index sector offset
  if marker = 0 then
    .ok (.done entries)
  else if marker = 0xe5 then
    .ok (.yield entries)
  else do
    let attributes ← index sector (offset + 11)
    if attributes = attrLongName ∨ attributes &&& attrVolumeId ≠ 0 then
      .ok (.yield entries)
    else do
      let bytes ← rangeOf sector offset (offset + 32)
      .ok (.yield (entries ++ [{ location := ⟨sectorLba, offset⟩, bytes := bytes }]))

def readDirectory (cluster : Nat) : Exec Disk StorageError (List RawDirectoryEntry) := do
  let chain ← fs.clusterChain cluster
  let entries ← fs.scanSlots visitEntry chain []
  pure entries.value

def findEntry (directoryCluster : Nat) (name : List UInt8) :
    Exec Disk StorageError (Option RawDirectoryEntry) := do
  let entries ← fs.readDirectory directoryCluster
  pure (entries.find? fun entry => slice entry.bytes 0 11 == name)

def resolveFrom : Nat → List (List UInt8) → Exec Disk StorageError Nat
  | cluster, [] => pure cluster
  | cluster, component :: rest => do
    let found ← fs.findEntry cluster component
    let entry ← Exec.okOr found .notFound
    Exec.ensure (isDirectoryEntry entry.bytes = true) .notFound
    let cluster := entryCluster entry.bytes
    Exec.ensure (fs.validCluster cluster) .corruptFilesystem
    resolveFrom cluster rest

def resolveDirectory (components : List (List UInt8)) : Exec Disk StorageError Nat :=
  fs.resolveFrom fs.rootCluster components

/-! ## Operations -/

def listDir (path : List Char) : Exec Disk StorageError (List FatDirectoryEntry) := do
  let components ← Exec.lift (pathComponents path)
  let cluster ← fs.resolveDirectory components
  let entries ← fs.readDirectory cluster
  Exec.lift (entries.mapM fun raw => publicEntry raw.bytes)

end Fat32

end NexOs.Storage
