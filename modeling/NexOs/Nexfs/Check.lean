import NexOs.Nexfs.Layout

/-! Formatting a device and the offline checker. `usize` is as wide as `u64`
on every target of the workspace, so the `usize::try_from` conversions of the
source are identities here. -/
namespace NexOs.Nexfs
open Bytes Storage

def storage (x : Exec Disk StorageError α) : Exec Disk FsError α := x.mapError .storage

def sectorsPerBlock : Exec Disk FsError Nat := do
  let device ← Exec.get
  Exec.ensure (¬(device.sectorSize = 0 ∨ blockSize % device.sectorSize ≠ 0))
    .unsupportedBlockSize
  pure (blockSize / device.sectorSize)

def deviceBytes : Exec Disk FsError Nat := do
  let device ← Exec.get
  Exec.okOr (checkedMul device.sectorCount device.sectorSize) .tooSmall

def bitmapBit (bitmap : List UInt8) (bit : Nat) : Result FsError Bool :=
  match bitmap[bit / 8]? with
  | some value => .ok (value &&& (1 <<< UInt8.ofNat (bit % 8)) != 0)
  | none => Result.fail .invalidLayout

def setBitmapBit (bitmap : List UInt8) (bit : Nat) (value : Bool) :
    Result FsError (List UInt8) :=
  match bitmap[bit / 8]? with
  | some target => .ok (bitmap.set (bit / 8) (setByteBit target (bit % 8) value))
  | none => Result.fail .invalidLayout

def readBlock (superblock : Superblock) (block outputLength : Nat) :
    Exec Disk FsError (List UInt8) := do
  Exec.ensure (¬(outputLength ≠ blockSize ∨ block ≥ superblock.totalBlocks)) .invalidLayout
  let sectorsPerBlock ← sectorsPerBlock
  let lba ← Exec.lift (mulU64 block sectorsPerBlock)
  storage (Disk.readSectors lba outputLength)

def readSuperblock : Exec Disk FsError Superblock := do
  let sectorsPerBlock ← sectorsPerBlock
  let lba ← Exec.lift (mulU64 superblockBlock sectorsPerBlock)
  let block ← storage (Disk.readSectors lba blockSize)
  Exec.lift (Superblock.decode block)

def writeSuperblock (superblock : Superblock) : Exec Disk FsError Unit := do
  let sectorsPerBlock ← sectorsPerBlock
  let block ← Exec.lift (superblock.encode (List.replicate blockSize 0))
  let lba ← Exec.lift (mulU64 superblockBlock sectorsPerBlock)
  storage (Disk.writeSectors lba block)

def readInode (superblock : Superblock) (inodeNumber : Nat) : Exec Disk FsError Inode := do
  let inodeCount ← Exec.lift superblock.inodeCount
  Exec.ensure (inodeNumber < inodeCount) .invalidLayout
  let byteOffset ← Exec.okOr (checkedMul inodeNumber inodeSize) .invalidLayout
  let blockNumber ← Exec.lift (addU64 superblock.inodeTableBlock (byteOffset / blockSize))
  let offset := byteOffset % blockSize
  let block ← readBlock superblock blockNumber blockSize
  Exec.lift do
    let record ← rangeOf block offset (offset + inodeSize)
    Inode.decode record

/-! ## Formatting -/

/-- The superblock `format` writes to a device of `totalBlocks` blocks. -/
def formatSuperblock (totalBlocks : Nat) (uuid : Vector UInt8 16) : Superblock :=
  let blockBitmapBlocks := divCeil totalBlocks bitmapBitsPerBlock
  let inodeTableBlocks := max 4 (min (totalBlocks / 256) maxInodeTableBlocks)
  { version := version
    blockSize := blockSize
    totalBlocks := totalBlocks
    inodeBitmapBlock := 2
    blockBitmapBlock := 3
    inodeTableBlock := 3 + blockBitmapBlocks
    dataStartBlock := 3 + blockBitmapBlocks + inodeTableBlocks
    rootInode := 1
    flags := cleanFlag
    generation := 1
    uuid := uuid }

def Superblock.dirty (sb : Superblock) : Superblock :=
  { sb with flags := sb.flags &&& (2 ^ 32 - 1 - cleanFlag) }

def writeBlockAt (sectorsPerBlock block : Nat) (data : List UInt8) : Exec Disk FsError Unit := do
  let lba ← Exec.lift (mulU64 block sectorsPerBlock)
  storage (Disk.writeSectors lba data)

def freshBitmapBlock (dataStartBlock index : Nat) : Result FsError (List UInt8) := do
  let firstBit ← Result.okOr (checkedMul index bitmapBitsPerBlock) .tooLarge
  let bitmapEnd ← Result.okOr (checkedAdd firstBit bitmapBitsPerBlock) .tooLarge
  let reservedEnd := min dataStartBlock bitmapEnd
  (List.range' firstBit (reservedEnd - firstBit)).foldlM
    (fun bitmap block => setBitmapBit bitmap (block - firstBit) true)
    (List.replicate blockSize 0)

/-- What `format` writes between the dirty and the clean superblock. -/
def writeMetadata (sectorsPerBlock : Nat) (superblock : Superblock) : Exec Disk FsError Unit := do
  let zero := List.replicate blockSize 0
  (List.range' superblock.inodeBitmapBlock
      (superblock.dataStartBlock - superblock.inodeBitmapBlock)).forM
    fun block => writeBlockAt sectorsPerBlock block zero
  let inodeBitmap ← Exec.lift (setBitmapBit zero 0 true)
  let inodeBitmap ← Exec.lift (setBitmapBit inodeBitmap superblock.rootInode true)
  writeBlockAt sectorsPerBlock superblock.inodeBitmapBlock inodeBitmap
  (List.range superblock.blockBitmapBlocks).forM fun index => do
    let blockBitmap ← Exec.lift (freshBitmapBlock superblock.dataStartBlock index)
    writeBlockAt sectorsPerBlock (superblock.blockBitmapBlock + index) blockBitmap
  let root := Inode.new .directory 0o755 superblock.generation
  let rootOffset := inodeSize
  let record ← Exec.lift (rangeOf zero rootOffset (rootOffset + inodeSize))
  let record ← Exec.lift (root.encode record)
  let inodeBlock ← Exec.lift (copyInto zero rootOffset record)
  writeBlockAt sectorsPerBlock superblock.inodeTableBlock inodeBlock

def format (uuid : Vector UInt8 16) : Exec Disk FsError Superblock := do
  let sectorsPerBlock ← sectorsPerBlock
  let totalBlocks := (← deviceBytes) / blockSize
  Exec.ensure (¬totalBlocks < minBlocks) .tooSmall
  let superblock := formatSuperblock totalBlocks uuid
  Exec.ensure (¬superblock.dataStartBlock ≥ totalBlocks) .tooSmall
  Exec.lift superblock.validate
  writeSuperblock superblock.dirty
  storage Disk.flush
  writeMetadata sectorsPerBlock superblock
  writeSuperblock superblock
  storage Disk.flush
  pure superblock

/-! ## The checker -/

structure CheckReport where
  superblock : Superblock
  allocatedInodes : Nat
  allocatedBlocks : Nat
  files : Nat
  directories : Nat
  directoryEntries : Nat
  deriving DecidableEq

def claimDataBlock (superblock : Superblock) (blockBitmap owners : List UInt8) (block : Nat) :
    Result FsError (List UInt8) := do
  Result.ensure (¬(block < superblock.dataStartBlock ∨ block ≥ superblock.totalBlocks))
    .invalidLayout
  let allocated ← bitmapBit blockBitmap block
  Result.ensure (allocated = true) .invalidLayout
  match owners[block]? with
  | none => Result.fail .invalidLayout
  | some owner =>
    Result.ensure (owner = 0) .invalidLayout
    .ok (owners.set block 2)

/-- One step of either pointer loop: a pointer in use is claimed, an unused
one has to be zero. -/
def validatePointer (superblock : Superblock) (blockBitmap : List UInt8) (used : Nat)
    (owners : List UInt8) (pointer : Nat × Nat) : Result FsError (List UInt8) :=
  if pointer.2 < used then claimDataBlock superblock blockBitmap owners pointer.1
  else if pointer.1 ≠ 0 then Result.fail .corruptInode
  else .ok owners

def validateInodeBlocks (superblock : Superblock) (blockBitmap owners : List UInt8)
    (inode : Inode) : Exec Disk FsError (List UInt8) := do
  let expected := dataBlocksForSize inode.size
  Exec.ensure (¬(expected ≠ inode.blockCount ∨ expected > maxFileBlocks)) .corruptInode
  let directCount := min expected directBlocks
  let owners ← Exec.lift (inode.directBlocks.toList.zipIdx.foldlM
    (validatePointer superblock blockBitmap directCount) owners)
  if expected ≤ directBlocks then
    Exec.ensure (inode.indirectBlock = 0) .corruptInode
    pure owners
  else
    let owners ← Exec.lift (claimDataBlock superblock blockBitmap owners inode.indirectBlock)
    let pointers ← readBlock superblock inode.indirectBlock blockSize
    let indirectCount := expected - directBlocks
    Exec.lift ((List.range indirectPointers).foldlM (fun owners index => do
      let pointer ← getU64 pointers (index * 8)
      validatePointer superblock blockBitmap indirectCount owners (pointer, index)) owners)

structure Scan where
  owners : List UInt8
  inodes : List (Option Inode)
  allocatedInodes : Nat
  files : Nat
  directories : Nat

def scanInode (superblock : Superblock) (inodeBitmap blockBitmap : List UInt8) (scan : Scan)
    (inodeNumber : Nat) : Exec Disk FsError Scan := do
  let allocated ← Exec.lift (bitmapBit inodeBitmap inodeNumber)
  if allocated = false then
    pure scan
  else
    let allocatedInodes ← Exec.lift (addU64 scan.allocatedInodes 1)
    let inode ← readInode superblock inodeNumber
    Exec.ensure (¬(inodeNumber = superblock.rootInode ∧ inode.kind ≠ .directory)) .invalidLayout
    let counts ← match inode.kind with
      | .regular => do
        let files ← Exec.lift (addU64 scan.files 1)
        pure (files, scan.directories)
      | .directory => do
        let directories ← Exec.lift (addU64 scan.directories 1)
        Exec.ensure (inode.size % dirEntrySize = 0) .corruptDirectory
        pure (scan.files, directories)
    let owners ← validateInodeBlocks superblock blockBitmap scan.owners inode
    let inodes ← Exec.lift (store scan.inodes inodeNumber (some inode))
    pure { owners := owners, inodes := inodes, allocatedInodes := allocatedInodes,
           files := counts.1, directories := counts.2 }

def blockNumberAt (inode : Inode) (indirect : Option (List UInt8)) (index : Nat) :
    Result FsError Nat :=
  if h : index < 12 then .ok inode.directBlocks[index]
  else match indirect with
    | none => Result.fail .corruptInode
    | some pointers => getU64 pointers ((index - directBlocks) * 8)

def readAllInodeData (superblock : Superblock) (inode : Inode) :
    Exec Disk FsError (List UInt8) := do
  let length := inode.size
  if length = 0 then
    pure []
  else
    let indirect ← if inode.blockCount > directBlocks then do
        let block ← readBlock superblock inode.indirectBlock blockSize
        pure (some block)
      else pure none
    (List.range (divCeil length blockSize)).foldlM (fun output index => do
      let blockNumber ← Exec.lift (blockNumberAt inode indirect index)
      let block ← readBlock superblock blockNumber blockSize
      pure (output ++ block.take (min blockSize (length - index * blockSize)))) []

/-- What the walk over the directory tree carries from entry to entry. -/
structure Walk where
  pending : List Nat
  reached : List Bool
  names : List String
  directoryEntries : Nat

def visitEntry (superblock : Superblock) (inodeCount : Nat) (inodes : List (Option Inode))
    (walk : Walk) (encoded : List UInt8) : Result FsError Walk := do
  let entry ← DirectoryEntry.decode encoded
  let directoryEntries ← addU64 walk.directoryEntries 1
  Result.ensure (entry.name ∉ walk.names) .corruptDirectory
  Result.ensure (¬(entry.inode = superblock.rootInode ∨ entry.inode ≥ inodeCount))
    .corruptDirectory
  match inodes[entry.inode]?.join with
  | none => Result.fail .corruptDirectory
  | some target =>
    Result.ensure (target.kind = entry.kind) .corruptDirectory
    let reached ← index walk.reached entry.inode
    Result.ensure (reached = false) .corruptDirectory
    .ok {
      pending := if target.kind = .directory then entry.inode :: walk.pending else walk.pending
      reached := ← store walk.reached entry.inode true
      names := entry.name :: walk.names
      directoryEntries := directoryEntries }

/-- `contents.as_chunks::<DIR_ENTRY_SIZE>().0` -/
def entryChunks (contents : List UInt8) : List (List UInt8) :=
  (List.range (contents.length / dirEntrySize)).map fun i =>
    slice contents (i * dirEntrySize) dirEntrySize

/-- The loop over pending directories. `pending` is a stack with its top
first. Every round takes one directory off the stack and a directory enters it
at most once, so `inodeCount + 1` rounds of fuel are enough. -/
def walkTree (superblock : Superblock) (inodeCount : Nat) (inodes : List (Option Inode)) :
    Nat → Walk → Exec Disk FsError Walk
  | 0, _ => Exec.diverge
  | fuel + 1, walk =>
    match walk.pending with
    | [] => pure walk
    | directoryNumber :: pending => do
      let directory ← Exec.okOr (inodes[directoryNumber]?.join) .corruptDirectory
      Exec.ensure (directory.kind = .directory) .notDirectory
      let contents ← readAllInodeData superblock directory
      Exec.ensure (contents.length % dirEntrySize = 0) .corruptDirectory
      let walk ← Exec.lift ((entryChunks contents).foldlM
        (visitEntry superblock inodeCount inodes) { walk with pending := pending, names := [] })
      walkTree superblock inodeCount inodes fuel walk

/-- `byte.count_ones()` -/
def countOnes (byte : UInt8) : Nat := (List.range 8).countP fun i => byte.toNat.testBit i

def readBlockBitmap (superblock : Superblock) : Exec Disk FsError (List UInt8) := do
  let bitmapLength ← Exec.okOr (checkedMul superblock.blockBitmapBlocks blockSize) .tooLarge
  (List.range superblock.blockBitmapBlocks).foldlM (fun bitmap index => do
    let start ← Exec.okOr (checkedMul index blockSize) .tooLarge
    let blockNumber ← Exec.lift (addU64 superblock.blockBitmapBlock index)
    let block ← readBlock superblock blockNumber blockSize
    Exec.lift (copyInto bitmap start block)) (List.replicate bitmapLength 0)

/-- `bitmap_bit(bitmap, bit)? == expected` for every bit of a range. -/
def requireBits (bitmap : List UInt8) (bits : List Nat) (expected : Nat → Result FsError Bool) :
    Result FsError Unit :=
  bits.forM fun bit => do
    let value ← bitmapBit bitmap bit
    Result.ensure (value = (← expected bit)) .invalidLayout

/-- The last part of `check_detailed`: the walk from the root, the search for
inodes it has not reached, and the report. -/
def checkTree (superblock : Superblock) (inodeCount : Nat) (inodeBitmap blockBitmap : List UInt8)
    (scan : Scan) : Exec Disk FsError CheckReport := do
  let reached ← Exec.lift (store (List.replicate inodeCount false) superblock.rootInode true)
  let walk ← walkTree superblock inodeCount scan.inodes (inodeCount + 1)
    { pending := [superblock.rootInode], reached := reached, names := [], directoryEntries := 0 }
  Exec.lift ((List.range' 1 (inodeCount - 1)).forM fun inodeNumber => do
    if (inodeBitmap[inodeNumber / 8]?).isSome then
      let allocated ← bitmapBit inodeBitmap inodeNumber
      if allocated then
        Result.ensure ((← index walk.reached inodeNumber) = true) .invalidLayout)
  pure {
    superblock := superblock
    allocatedInodes := scan.allocatedInodes
    allocatedBlocks := (blockBitmap.map countOnes).sum
    files := scan.files
    directories := scan.directories
    directoryEntries := walk.directoryEntries }

/-- The part of `check_detailed` that follows the checks on the superblock. -/
def checkVolume (superblock : Superblock) : Exec Disk FsError CheckReport := do
  let inodeCount ← Exec.lift superblock.inodeCount
  let inodeBitmap ← readBlock superblock superblock.inodeBitmapBlock blockSize
  Exec.ensure ((← Exec.lift (bitmapBit inodeBitmap 0)) = true) .invalidLayout
  Exec.ensure ((← Exec.lift (bitmapBit inodeBitmap superblock.rootInode)) = true) .invalidLayout
  let blockBitmap ← readBlockBitmap superblock
  let owners ← Exec.lift ((List.range superblock.dataStartBlock).foldlM (fun owners block => do
    Result.ensure ((← bitmapBit blockBitmap block) = true) .invalidLayout
    Result.ensure ((← index owners block) = 0) .invalidLayout
    store owners block 1) (List.replicate superblock.totalBlocks 0))
  let scan ← (List.range' 1 (inodeCount - 1)).foldlM
    (scanInode superblock inodeBitmap blockBitmap)
    { owners := owners, inodes := List.replicate inodeCount none, allocatedInodes := 0,
      files := 0, directories := 0 }
  Exec.lift (requireBits blockBitmap
    (List.range' superblock.dataStartBlock (superblock.totalBlocks - superblock.dataStartBlock))
    fun block => do .ok ((← index scan.owners block) == 2))
  let bitmapBits ← Exec.lift (mulU64 blockBitmap.length 8)
  Exec.lift (requireBits blockBitmap
    (List.range' superblock.totalBlocks (bitmapBits - superblock.totalBlocks))
    fun _ => .ok false)
  Exec.lift (requireBits inodeBitmap
    (List.range' inodeCount (bitmapBitsPerBlock - inodeCount)) fun _ => .ok false)
  checkTree superblock inodeCount inodeBitmap blockBitmap scan

def checkDetailed : Exec Disk FsError CheckReport := do
  let superblock ← readSuperblock
  Exec.ensure (superblock.isClean = true) .dirty
  let availableBlocks := (← deviceBytes) / blockSize
  Exec.ensure (¬superblock.totalBlocks > availableBlocks) .invalidLayout
  checkVolume superblock

def check : Exec Disk FsError Superblock := do
  let report ← checkDetailed
  pure report.superblock

end NexOs.Nexfs
