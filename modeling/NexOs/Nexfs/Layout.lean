import NexOs.Lib.Text
import NexOs.Storage.Crc32
import NexOs.Storage.Device

/-! The on-disk records of NexFS v1: superblock, inode and directory entry.
Every field is a natural number below the limit of its machine type; `Fits`
states those limits where a record is not the result of a decoder. -/
namespace NexOs.Nexfs
open Bytes Storage Text

def magic : List UInt8 := [0x4e, 0x45, 0x58, 0x46, 0x53, 0x01, 0x00, 0x00]
abbrev version : Nat := 1
abbrev blockSize : Nat := 4096
abbrev superblockBlock : Nat := 1
abbrev cleanFlag : Nat := 1
abbrev inodeSize : Nat := 256
abbrev directBlocks : Nat := 12
abbrev dirEntrySize : Nat := 256
abbrev maxNameLength : Nat := 240

abbrev minBlocks : Nat := 32
abbrev inodesPerBlock : Nat := blockSize / inodeSize
abbrev bitmapBitsPerBlock : Nat := blockSize * 8
abbrev maxInodeTableBlocks : Nat := bitmapBitsPerBlock / inodesPerBlock
abbrev indirectPointers : Nat := blockSize / 8
abbrev maxFileBlocks : Nat := directBlocks + indirectPointers

def inodeMagic : List UInt8 := [0x4e, 0x58, 0x49, 0x4e]
abbrev inodeChecksumOffset : Nat := inodeSize - 4
abbrev directoryChecksumOffset : Nat := dirEntrySize - 4
abbrev directoryNameOffset : Nat := 12

inductive FsError where
  | storage (e : StorageError)
  | tooSmall
  | unsupportedBlockSize
  | invalidMagic
  | unsupportedVersion
  | invalidLayout
  | checksumMismatch
  | dirty
  | notFound
  | alreadyExists
  | notDirectory
  | isDirectory
  | directoryNotEmpty
  | invalidName
  | invalidPath
  | noSpace
  | fileTooLarge
  | tooLarge
  | corruptInode
  | corruptDirectory
  | busy
  deriving DecidableEq, Repr

def getU16 : List UInt8 → Nat → Result FsError Nat := getLe 2
def getU32 : List UInt8 → Nat → Result FsError Nat := getLe 4
def getU64 : List UInt8 → Nat → Result FsError Nat := getLe 8

/-- `a.div_ceil(b)` -/
def divCeil (a b : Nat) : Nat := (a + b - 1) / b

def dataBlocksForSize (size : Nat) : Nat := divCeil size blockSize

/-- The checksum of a record whose checksum field starts at `offset`. -/
def checksumAt (bytes : List UInt8) (offset : Nat) : Nat :=
  (crc32 (splice bytes offset (leBytes 4 0))).toNat

inductive FileType where
  | regular
  | directory
  deriving DecidableEq, Repr

namespace FileType

/-- `kind as u8` -/
def code : FileType → UInt8
  | regular => 1
  | directory => 2

def decode (value : UInt8) : Result FsError FileType :=
  if value = 1 then .ok regular
  else if value = 2 then .ok directory
  else Result.fail .corruptInode

end FileType

structure Inode where
  kind : FileType
  permissions : Nat
  size : Nat
  created : Nat
  modified : Nat
  directBlocks : Vector Nat 12
  indirectBlock : Nat
  blockCount : Nat
  generation : Nat
  deriving DecidableEq

namespace Inode

def new (kind : FileType) (permissions timestamp : Nat) : Inode where
  kind := kind
  permissions := permissions
  size := 0
  created := timestamp
  modified := timestamp
  directBlocks := Vector.replicate 12 0
  indirectBlock := 0
  blockCount := 0
  generation := timestamp

/-- The fields in the order the encoder writes them. -/
def fields (inode : Inode) : List (Nat × List UInt8) :=
  [(0, inodeMagic), (4, [inode.kind.code]), (6, leBytes 2 inode.permissions),
    (8, leBytes 8 inode.size), (16, leBytes 8 inode.created), (24, leBytes 8 inode.modified)] ++
  inode.directBlocks.toList.zipIdx.map (fun p => (32 + p.2 * 8, leBytes 8 p.1)) ++
  [(128, leBytes 8 inode.indirectBlock), (136, leBytes 8 inode.blockCount),
    (144, leBytes 8 inode.generation)]

def encode (inode : Inode) (output : List UInt8) : Result FsError (List UInt8) := do
  Result.ensure (inodeSize ≤ output.length) .unsupportedBlockSize
  let output := splice output 0 (List.replicate inodeSize 0)
  let output := writeFields output inode.fields
  let checksum := checksumAt (output.take inodeSize) inodeChecksumOffset
  .ok (splice output inodeChecksumOffset (leBytes 4 checksum))

def decode (input : List UInt8) : Result FsError Inode := do
  Result.ensure (inodeSize ≤ input.length ∧ slice input 0 4 = inodeMagic) .corruptInode
  let expected ← getU32 input inodeChecksumOffset
  Result.ensure (checksumAt (input.take inodeSize) inodeChecksumOffset = expected)
    .checksumMismatch
  let pointers ← rangeOf input 32 (32 + 12 * 8)
  let directBlocks := Vector.ofFn fun i : Fin 12 => le pointers (i.val * 8) 8
  let kind ← FileType.decode (← index input 4)
  .ok {
    kind := kind
    permissions := ← getU16 input 6
    size := ← getU64 input 8
    created := ← getU64 input 16
    modified := ← getU64 input 24
    directBlocks := directBlocks
    indirectBlock := ← getU64 input 128
    blockCount := ← getU64 input 136
    generation := ← getU64 input 144 }

structure Fits (inode : Inode) : Prop where
  permissions : inode.permissions < 2 ^ 16
  size : inode.size < 2 ^ 64
  created : inode.created < 2 ^ 64
  modified : inode.modified < 2 ^ 64
  directBlocks : ∀ b ∈ inode.directBlocks, b < 2 ^ 64
  indirectBlock : inode.indirectBlock < 2 ^ 64
  blockCount : inode.blockCount < 2 ^ 64
  generation : inode.generation < 2 ^ 64

end Inode

abbrev ValidName (name : String) : Prop :=
  ¬(name = "" ∨ (utf8 name).length > maxNameLength ∨ name = "." ∨ name = ".." ∨
    (utf8 name).any (fun byte => byte == 0x2f || byte == 0))

def validateName (name : String) : Result FsError Unit :=
  Result.ensure (ValidName name) .invalidName

structure DirectoryEntry where
  inode : Nat
  kind : FileType
  name : String
  deriving DecidableEq

namespace DirectoryEntry

def new (inode : Nat) (kind : FileType) (name : String) : Result FsError DirectoryEntry := do
  validateName name
  .ok { inode := inode, kind := kind, name := name }

def fields (entry : DirectoryEntry) : List (Nat × List UInt8) :=
  [(0, leBytes 8 entry.inode), (8, [entry.kind.code]),
    (9, [UInt8.ofNat (utf8 entry.name).length]), (directoryNameOffset, utf8 entry.name)]

def encode (entry : DirectoryEntry) (output : List UInt8) : Result FsError (List UInt8) := do
  validateName entry.name
  Result.ensure (dirEntrySize ≤ output.length) .unsupportedBlockSize
  let output := splice output 0 (List.replicate dirEntrySize 0)
  Result.ensure ((utf8 entry.name).length < 256) .invalidName
  let output := writeFields output entry.fields
  let checksum := checksumAt (output.take dirEntrySize) directoryChecksumOffset
  .ok (splice output directoryChecksumOffset (leBytes 4 checksum))

def decode (input : List UInt8) : Result FsError DirectoryEntry := do
  Result.ensure (dirEntrySize ≤ input.length) .corruptDirectory
  let expected ← getU32 input directoryChecksumOffset
  Result.ensure (checksumAt (input.take dirEntrySize) directoryChecksumOffset = expected)
    .checksumMismatch
  let inode ← getU64 input 0
  Result.ensure (inode ≠ 0) .corruptDirectory
  let length := (← index input 9).toNat
  Result.ensure (¬(length = 0 ∨ length > maxNameLength)) .invalidName
  let nameBytes ← rangeOf input directoryNameOffset (directoryNameOffset + length)
  match fromUtf8 nameBytes with
  | none => Result.fail .invalidName
  | some name =>
    validateName name
    match FileType.decode (← index input 8) with
    | .ok kind => .ok { inode := inode, kind := kind, name := name }
    | .error _ => Result.fail .corruptDirectory

end DirectoryEntry

structure Superblock where
  version : Nat
  blockSize : Nat
  totalBlocks : Nat
  inodeBitmapBlock : Nat
  blockBitmapBlock : Nat
  inodeTableBlock : Nat
  dataStartBlock : Nat
  rootInode : Nat
  flags : Nat
  generation : Nat
  uuid : Vector UInt8 16
  deriving DecidableEq

namespace Superblock

def fields (sb : Superblock) : List (Nat × List UInt8) :=
  [(0, magic), (8, leBytes 4 sb.version), (12, leBytes 4 sb.blockSize),
    (16, leBytes 8 sb.totalBlocks), (24, leBytes 8 sb.inodeBitmapBlock),
    (32, leBytes 8 sb.blockBitmapBlock), (40, leBytes 8 sb.inodeTableBlock),
    (48, leBytes 8 sb.dataStartBlock), (56, leBytes 8 sb.rootInode), (64, leBytes 4 sb.flags),
    (72, leBytes 8 sb.generation), (80, sb.uuid.toList)]

def encode (sb : Superblock) (output : List UInt8) : Result FsError (List UInt8) := do
  Result.ensure (Nexfs.blockSize ≤ output.length) .unsupportedBlockSize
  let output := splice output 0 (List.replicate Nexfs.blockSize 0)
  let output := writeFields output sb.fields
  let checksum := checksumAt (output.take 100) 96
  .ok (splice output 96 (leBytes 4 checksum))

def blockBitmapBlocks (sb : Superblock) : Nat := divCeil sb.totalBlocks bitmapBitsPerBlock

def isClean (sb : Superblock) : Bool := sb.flags &&& cleanFlag != 0

def validate (sb : Superblock) : Result FsError Unit := do
  Result.ensure (sb.version = Nexfs.version) .unsupportedVersion
  Result.ensure (sb.blockSize = Nexfs.blockSize) .unsupportedBlockSize
  let blockBitmapBlocks := sb.blockBitmapBlocks
  match checkedSub sb.dataStartBlock sb.inodeTableBlock with
  | none => Result.fail .invalidLayout
  | some inodeTableBlocks =>
    Result.ensure (minBlocks ≤ sb.totalBlocks) .invalidLayout
    Result.ensure (sb.inodeBitmapBlock = 2) .invalidLayout
    Result.ensure (sb.blockBitmapBlock = 3) .invalidLayout
    let tableStart ← addU64 sb.blockBitmapBlock blockBitmapBlocks
    Result.ensure (sb.inodeTableBlock = tableStart) .invalidLayout
    Result.ensure (inodeTableBlocks ≠ 0) .invalidLayout
    Result.ensure (inodeTableBlocks ≤ maxInodeTableBlocks) .invalidLayout
    Result.ensure (sb.dataStartBlock < sb.totalBlocks) .invalidLayout
    Result.ensure (sb.rootInode = 1) .invalidLayout

def decode (input : List UInt8) : Result FsError Superblock := do
  Result.ensure (Nexfs.blockSize ≤ input.length) .unsupportedBlockSize
  Result.ensure (slice input 0 8 = magic) .invalidMagic
  let expected ← getU32 input 96
  Result.ensure (checksumAt (input.take 100) 96 = expected) .checksumMismatch
  let uuid ← rangeOf input 80 96
  let result : Superblock := {
    version := ← getU32 input 8
    blockSize := ← getU32 input 12
    totalBlocks := ← getU64 input 16
    inodeBitmapBlock := ← getU64 input 24
    blockBitmapBlock := ← getU64 input 32
    inodeTableBlock := ← getU64 input 40
    dataStartBlock := ← getU64 input 48
    rootInode := ← getU64 input 56
    flags := ← getU32 input 64
    generation := ← getU64 input 72
    uuid := Vector.ofFn fun i : Fin 16 => uuid[i.val]?.getD 0 }
  result.validate
  .ok result

/-- The number of inode slots, `None` mapped to an invalid layout. -/
def inodeCount (sb : Superblock) : Result FsError Nat :=
  match (checkedSub sb.dataStartBlock sb.inodeTableBlock).bind fun blocks =>
      checkedMul blocks inodesPerBlock with
  | some count =>
    if count > sb.rootInode ∧ count ≤ bitmapBitsPerBlock then .ok count
    else Result.fail .invalidLayout
  | none => Result.fail .invalidLayout

structure Fits (sb : Superblock) : Prop where
  version : sb.version < 2 ^ 32
  blockSize : sb.blockSize < 2 ^ 32
  totalBlocks : sb.totalBlocks < 2 ^ 64
  inodeBitmapBlock : sb.inodeBitmapBlock < 2 ^ 64
  blockBitmapBlock : sb.blockBitmapBlock < 2 ^ 64
  inodeTableBlock : sb.inodeTableBlock < 2 ^ 64
  dataStartBlock : sb.dataStartBlock < 2 ^ 64
  rootInode : sb.rootInode < 2 ^ 64
  flags : sb.flags < 2 ^ 32
  generation : sb.generation < 2 ^ 64

end Superblock

end NexOs.Nexfs
