import NexOs.Nexfs.Check

/-! The mounted filesystem. Every method runs on the device and on the copy of
the superblock that a mount keeps in memory. -/
namespace NexOs.Nexfs
open Bytes Storage Text

structure FileStat where
  inode : Nat
  kind : FileType
  permissions : Nat
  size : Nat
  created : Nat
  modified : Nat
  blocks : Nat
  deriving DecidableEq

structure NexFs where
  device : Disk
  superblock : Superblock

/-- A method of `NexFs`. -/
abbrev Method := Exec NexFs FsError

namespace NexFs

def onDevice (x : Exec Disk FsError α) : Method α :=
  x.zoom NexFs.device fun device fs => { fs with device := device }

def defaultFilePermissions : Nat := 0o644
def defaultDirectoryPermissions : Nat := 0o755

/-! ## Blocks, bitmaps and inodes -/

def readBlock (block outputLength : Nat) : Method (List UInt8) := do
  let self ← Exec.get
  onDevice (Nexfs.readBlock self.superblock block outputLength)

def writeBlock (block : Nat) (input : List UInt8) : Method Unit := do
  let self ← Exec.get
  Exec.ensure (¬(input.length ≠ blockSize ∨ block ≥ self.superblock.totalBlocks)) .invalidLayout
  let sectorsPerBlock ← onDevice sectorsPerBlock
  let lba ← Exec.lift (mulU64 block sectorsPerBlock)
  onDevice (storage (Disk.writeSectors lba input))

def inodeLocation (inodeNumber : Nat) : Method (Nat × Nat) := do
  let self ← Exec.get
  let inodeCount ← Exec.lift self.superblock.inodeCount
  Exec.ensure (inodeNumber < inodeCount) .invalidLayout
  let byteOffset ← Exec.okOr (checkedMul inodeNumber inodeSize) .invalidLayout
  let block ← Exec.lift (addU64 self.superblock.inodeTableBlock (byteOffset / blockSize))
  pure (block, byteOffset % blockSize)

def inodeAllocated (inode : Nat) : Method Bool := do
  let self ← Exec.get
  let inodeCount ← Exec.lift self.superblock.inodeCount
  Exec.ensure (inode < inodeCount) .invalidLayout
  let bitmap ← readBlock self.superblock.inodeBitmapBlock blockSize
  Exec.lift (bitmapBit bitmap inode)

def setInodeAllocated (inode : Nat) (allocated : Bool) : Method Unit := do
  let self ← Exec.get
  let inodeCount ← Exec.lift self.superblock.inodeCount
  Exec.ensure (inode < inodeCount) .invalidLayout
  let bitmap ← readBlock self.superblock.inodeBitmapBlock blockSize
  let bitmap ← Exec.lift (setBitmapBit bitmap inode allocated)
  writeBlock self.superblock.inodeBitmapBlock bitmap

def blockAllocated (block : Nat) : Method Bool := do
  let self ← Exec.get
  Exec.ensure (block < self.superblock.totalBlocks) .invalidLayout
  let bitmapBlock ← Exec.lift
    (addU64 self.superblock.blockBitmapBlock (block / bitmapBitsPerBlock))
  let bitmap ← readBlock bitmapBlock blockSize
  Exec.lift (bitmapBit bitmap (block % bitmapBitsPerBlock))

def setBlockAllocated (block : Nat) (allocated : Bool) : Method Unit := do
  let self ← Exec.get
  Exec.ensure (¬(block < self.superblock.dataStartBlock ∨ block ≥ self.superblock.totalBlocks))
    .invalidLayout
  let bitmapBlock ← Exec.lift
    (addU64 self.superblock.blockBitmapBlock (block / bitmapBitsPerBlock))
  let bitmap ← readBlock bitmapBlock blockSize
  let bitmap ← Exec.lift (setBitmapBit bitmap (block % bitmapBitsPerBlock) allocated)
  writeBlock bitmapBlock bitmap

def readInode (inodeNumber : Nat) : Method Inode := do
  let allocated ← inodeAllocated inodeNumber
  Exec.ensure (allocated = true) .notFound
  let location ← inodeLocation inodeNumber
  let block ← readBlock location.1 blockSize
  Exec.lift do
    let record ← rangeOf block location.2 (location.2 + inodeSize)
    Inode.decode record

def writeInode (inodeNumber : Nat) (inode : Inode) : Method Unit := do
  let location ← inodeLocation inodeNumber
  let block ← readBlock location.1 blockSize
  let record ← Exec.lift (rangeOf block location.2 (location.2 + inodeSize))
  let record ← Exec.lift (inode.encode record)
  let block ← Exec.lift (copyInto block location.2 record)
  writeBlock location.1 block

def clearInode (inodeNumber : Nat) : Method Unit := do
  let location ← inodeLocation inodeNumber
  let block ← readBlock location.1 blockSize
  let block ← Exec.lift (copyInto block location.2 (List.replicate inodeSize 0))
  writeBlock location.1 block

/-- The first free inode of the range, now marked allocated. -/
def allocateInodeFrom : List Nat → Method Nat
  | [] => Exec.fail .noSpace
  | inode :: rest => do
    if (← inodeAllocated inode) = false then
      setInodeAllocated inode true
      pure inode
    else
      allocateInodeFrom rest

def allocateInode : Method Nat := do
  let self ← Exec.get
  let inodeCount ← Exec.lift self.superblock.inodeCount
  allocateInodeFrom (List.range' 2 (inodeCount - 2))

/-- The first free block of the range, now marked allocated and zeroed. -/
def allocateBlockFrom : List Nat → Method Nat
  | [] => Exec.fail .noSpace
  | block :: rest => do
    if (← blockAllocated block) = false then
      setBlockAllocated block true
      writeBlock block (List.replicate blockSize 0)
      pure block
    else
      allocateBlockFrom rest

def allocateBlock : Method Nat := do
  let self ← Exec.get
  allocateBlockFrom (List.range' self.superblock.dataStartBlock
    (self.superblock.totalBlocks - self.superblock.dataStartBlock))

def nextTimestamp : Method Nat := do
  Exec.modify fun self =>
    { self with superblock :=
      { self.superblock with generation := saturatingAdd self.superblock.generation 1 } }
  let self ← Exec.get
  pure self.superblock.generation

def finishMutation : Method Unit := do
  let self ← Exec.get
  onDevice (writeSuperblock self.superblock)
  onDevice (storage Disk.flush)

/-! ## Inode data -/

def dataBlock (inode : Inode) (index : Nat) : Method (Option Nat) := do
  if index ≥ inode.blockCount then
    pure none
  else if h : index < 12 then
    let block := inode.directBlocks[index]
    Exec.ensure (block ≠ 0) .corruptInode
    pure (some block)
  else
    Exec.ensure (inode.indirectBlock ≠ 0) .corruptInode
    let pointerIndex := index - directBlocks
    Exec.ensure (pointerIndex < indirectPointers) .fileTooLarge
    let pointers ← readBlock inode.indirectBlock blockSize
    let block ← Exec.lift (getU64 pointers (pointerIndex * 8))
    Exec.ensure (block ≠ 0) .corruptInode
    pure (some block)

def ensureFileSizeSupported (size : Nat) : Method Unit :=
  Exec.ensure (¬dataBlocksForSize size > maxFileBlocks) .fileTooLarge

def appendBlock (inode : Inode) : Method Inode := do
  let index := inode.blockCount
  let block ← allocateBlock
  if h : index < 12 then
    pure { inode with
      directBlocks := inode.directBlocks.set index block
      blockCount := inode.blockCount + 1 }
  else
    let indirectBlock ← if inode.indirectBlock = 0 then allocateBlock
      else pure inode.indirectBlock
    let pointers ← readBlock indirectBlock blockSize
    let pointerIndex := index - directBlocks
    Exec.ensure (pointerIndex < indirectPointers) .fileTooLarge
    let pointers ← Exec.lift (copyInto pointers (pointerIndex * 8) (leBytes 8 block))
    writeBlock indirectBlock pointers
    pure { inode with indirectBlock := indirectBlock, blockCount := inode.blockCount + 1 }

/-- `rounds` appends, the loop `while inode.block_count < count`. -/
def appendBlocks : Nat → Inode → Method Inode
  | 0, inode => pure inode
  | rounds + 1, inode => do
    let inode ← appendBlock inode
    appendBlocks rounds inode

def ensureDataBlocks (inode : Inode) (count : Nat) : Method Inode := do
  Exec.ensure (¬count > maxFileBlocks) .fileTooLarge
  appendBlocks (count - inode.blockCount) inode

def dropBlock (inode : Inode) : Method Inode := do
  let index := inode.blockCount - 1
  let block ← Exec.okOr (← dataBlock inode index) .corruptInode
  setBlockAllocated block false
  if h : index < 12 then
    pure { inode with
      directBlocks := inode.directBlocks.set index 0
      blockCount := inode.blockCount - 1 }
  else
    let pointers ← readBlock inode.indirectBlock blockSize
    let pointerIndex := index - directBlocks
    let pointers ← Exec.lift (copyInto pointers (pointerIndex * 8) (List.replicate 8 0))
    writeBlock inode.indirectBlock pointers
    pure { inode with blockCount := inode.blockCount - 1 }

/-- `rounds` releases, the loop `while inode.block_count > keep`. -/
def dropBlocks : Nat → Inode → Method Inode
  | 0, inode => pure inode
  | rounds + 1, inode => do
    let inode ← dropBlock inode
    dropBlocks rounds inode

def truncateInodeBlocks (inode : Inode) (keep : Nat) : Method Inode := do
  if keep > inode.blockCount then
    ensureDataBlocks inode keep
  else
    let inode ← dropBlocks (inode.blockCount - keep) inode
    if inode.blockCount ≤ directBlocks ∧ inode.indirectBlock ≠ 0 then
      setBlockAllocated inode.indirectBlock false
      pure { inode with indirectBlock := 0 }
    else
      pure inode

/-- The loop of `read_inode_data`: `output` is filled from `completed` on. -/
def readInodeDataFrom (inode : Inode) (offset length completed : Nat) (output : List UInt8) :
    Method (List UInt8) := do
  if completed < length then
    let absolute ← Exec.lift (addU64 offset completed)
    let blockIndex := absolute / blockSize
    let within := absolute % blockSize
    let blockNumber ← Exec.okOr (← dataBlock inode blockIndex) .corruptInode
    let block ← readBlock blockNumber blockSize
    let amount := min (blockSize - within) (length - completed)
    let chunk ← Exec.lift (rangeOf block within (within + amount))
    let output ← Exec.lift (copyInto output completed chunk)
    readInodeDataFrom inode offset length (completed + amount) output
  else
    pure output
termination_by length - completed
decreasing_by
  have := Nat.mod_lt absolute (show blockSize > 0 by decide)
  omega

/-- How many bytes were read, and the caller's buffer afterwards. -/
def readInodeData (inode : Inode) (offset : Nat) (output : List UInt8) :
    Method (Nat × List UInt8) := do
  if offset ≥ inode.size ∨ output = [] then
    pure (0, output)
  else
    let available := inode.size - offset
    let length := min output.length available
    let output ← readInodeDataFrom inode offset length 0 output
    pure (length, output)

/-- The loop of `write_inode_data`. -/
def writeInodeDataFrom (inode : Inode) (offset : Nat) (input : List UInt8) (completed : Nat) :
    Method Unit := do
  if completed < input.length then
    let absolute ← Exec.lift (addU64 offset completed)
    let blockIndex := absolute / blockSize
    let within := absolute % blockSize
    let blockNumber ← Exec.okOr (← dataBlock inode blockIndex) .corruptInode
    let amount := min (blockSize - within) (input.length - completed)
    let block ← if within ≠ 0 ∨ amount ≠ blockSize then readBlock blockNumber blockSize
      else pure (List.replicate blockSize 0)
    let chunk ← Exec.lift (rangeOf input completed (completed + amount))
    let block ← Exec.lift (copyInto block within chunk)
    writeBlock blockNumber block
    writeInodeDataFrom inode offset input (completed + amount)
  else
    pure ()
termination_by input.length - completed
decreasing_by
  have := Nat.mod_lt absolute (show blockSize > 0 by decide)
  omega

def writeInodeData (inode : Inode) (offset : Nat) (input : List UInt8) : Method Inode := do
  if input = [] then
    pure inode
  else
    let stop ← Exec.okOr (checkedAdd offset input.length) .fileTooLarge
    ensureFileSizeSupported stop
    let inode ← ensureDataBlocks inode (dataBlocksForSize stop)
    writeInodeDataFrom inode offset input 0
    pure inode

/-- The loop of `zero_range`. -/
def zeroRangeFrom (inode : Inode) (offset length completed : Nat) : Method Inode := do
  if completed < length then
    let amount := min (length - completed) blockSize
    let start ← Exec.lift (addU64 offset completed)
    let inode ← writeInodeData inode start (List.replicate amount 0)
    zeroRangeFrom inode offset length (completed + amount)
  else
    pure inode
termination_by length - completed
decreasing_by
  have : blockSize > 0 := by decide
  omega

def zeroRange (inode : Inode) (offset length : Nat) : Method Inode := do
  if length = 0 then
    pure inode
  else
    let stop ← Exec.okOr (checkedAdd offset length) .fileTooLarge
    ensureFileSizeSupported stop
    let inode ← ensureDataBlocks inode (dataBlocksForSize stop)
    zeroRangeFrom inode offset length 0

/-! ## Directories and paths -/

/-- The loop of `read_directory`. -/
def readEntriesFrom (inode : Inode) : List Nat → Method (List DirectoryEntry)
  | [] => pure []
  | index :: rest => do
    let encoded ← readInodeData inode (index * dirEntrySize) (List.replicate dirEntrySize 0)
    Exec.ensure (encoded.1 = dirEntrySize) .corruptDirectory
    let entry ← Exec.lift (DirectoryEntry.decode encoded.2)
    let entries ← readEntriesFrom inode rest
    pure (entry :: entries)

def readDirectory (inode : Inode) : Method (List DirectoryEntry) := do
  Exec.ensure (inode.kind = .directory) .notDirectory
  Exec.ensure (inode.size % dirEntrySize = 0) .corruptDirectory
  readEntriesFrom inode (List.range (inode.size / dirEntrySize))

/-- The loop of `replace_directory`. -/
def writeEntries : List DirectoryEntry → Inode → Method Inode
  | [], inode => pure inode
  | entry :: rest, inode => do
    let encoded ← Exec.lift (entry.encode (List.replicate dirEntrySize 0))
    let inode ← writeInodeData inode inode.size encoded
    writeEntries rest { inode with size := inode.size + dirEntrySize }

def replaceDirectory (inode : Inode) (entries : List DirectoryEntry) : Method Inode := do
  Exec.ensure (inode.kind = .directory) .notDirectory
  let newSize ← Exec.okOr (checkedMul entries.length dirEntrySize) .tooLarge
  ensureFileSizeSupported newSize
  let inode ← truncateInodeBlocks inode 0
  writeEntries entries { inode with size := 0 }

def splitParent (path : String) : Result FsError (String × String) := do
  let trimmed := trimEndMatches '/' path.toList
  Result.ensure (¬(trimmed = [] ∨ trimmed = ['/'])) .busy
  let parts := match rsplitOnce '/' trimmed with
    | none => (['/'], trimmed)
    | some (parent, name) => (if parent = [] then ['/'] else parent, name)
  let name := String.ofList parts.2
  validateName name
  .ok (String.ofList parts.1, name)

/-- The loop of `resolve` over the components of a path. -/
def resolveFrom (current : Nat) : List String → Method Nat
  | [] => pure current
  | component :: rest => do
    if component = "" ∨ component = "." then
      resolveFrom current rest
    else
      Exec.ensure (component ≠ "..") .invalidPath
      Exec.lift (validateName component)
      let inode ← readInode current
      let entries ← readDirectory inode
      let entry ← Exec.okOr (entries.find? fun entry => entry.name == component) .notFound
      resolveFrom entry.inode rest

/-- The `/`-separated pieces of a path, empty ones included. -/
def pieces (path : String) : List String :=
  ((trimMatches '/' path.toList).splitOn '/').map String.ofList

def resolve (path : String) : Method Nat := do
  let self ← Exec.get
  if trimMatches '/' path.toList = [] then
    pure self.superblock.rootInode
  else
    resolveFrom self.superblock.rootInode (pieces path)

/-- The loop over the entries of one directory in `directory_contains`: `none`
when one of them is the target. -/
def pushEntries (target : Nat) : List DirectoryEntry → List Nat → Option (List Nat)
  | [], pending => some pending
  | entry :: rest, pending =>
    if entry.inode = target then none
    else pushEntries target rest
      (if entry.kind = .directory then entry.inode :: pending else pending)

/-- The loop of `directory_contains`, with its stack's top first. -/
def searchTree (target : Nat) : Nat → List Nat → List Bool → Method Bool
  | 0, _, _ => Exec.diverge
  | _ + 1, [], _ => pure false
  | fuel + 1, current :: pending, visited =>
    if visited[current]?.getD true then
      searchTree target fuel pending visited
    else do
      let inode ← readInode current
      let entries ← readDirectory inode
      match pushEntries target entries pending with
      | none => pure true
      | some pending => searchTree target fuel pending (visited.set current true)

/-- A directory that can be read has at most `maxFileBlocks * 16` entries and
is expanded at most once, which bounds the rounds of the search. -/
def searchFuel (inodeCount : Nat) : Nat :=
  inodeCount * (maxFileBlocks * (blockSize / dirEntrySize)) + 2

def directoryContains (directory target : Nat) : Method Bool := do
  if directory = target then
    pure true
  else
    let self ← Exec.get
    let inodeCount ← Exec.lift self.superblock.inodeCount
    searchTree target (searchFuel inodeCount) [directory] (List.replicate inodeCount false)

/-! ## Operations -/

def mount : Exec Disk FsError NexFs := do
  let report ← checkDetailed
  let superblock := { report.superblock.dirty with
    generation := saturatingAdd report.superblock.generation 1 }
  writeSuperblock superblock
  storage Disk.flush
  let device ← Exec.get
  pure { device := device, superblock := superblock }

def unmount : Method Superblock := do
  onDevice (storage Disk.flush)
  Exec.modify fun self =>
    { self with superblock := { self.superblock with
      flags := self.superblock.flags ||| cleanFlag
      generation := saturatingAdd self.superblock.generation 1 } }
  let self ← Exec.get
  onDevice (writeSuperblock self.superblock)
  onDevice (storage Disk.flush)
  pure self.superblock

def stat (path : String) : Method FileStat := do
  let inodeNumber ← resolve path
  let inode ← readInode inodeNumber
  pure {
    inode := inodeNumber
    kind := inode.kind
    permissions := inode.permissions
    size := inode.size
    created := inode.created
    modified := inode.modified
    blocks := inode.blockCount }

def readDir (path : String) : Method (List DirectoryEntry) := do
  let inodeNumber ← resolve path
  let inode ← readInode inodeNumber
  readDirectory inode

def readFile (path : String) (offset : Nat) (output : List UInt8) :
    Method (Nat × List UInt8) := do
  let inodeNumber ← resolve path
  let inode ← readInode inodeNumber
  Exec.ensure (inode.kind = .regular) .isDirectory
  readInodeData inode offset output

def create (path : String) (kind : FileType) (permissions : Nat) : Method Nat := do
  let parts ← Exec.lift (splitParent path)
  Exec.lift (validateName parts.2)
  let parentNumber ← resolve parts.1
  let parent ← readInode parentNumber
  Exec.ensure (parent.kind = .directory) .notDirectory
  let entries ← readDirectory parent
  Exec.ensure (¬entries.any fun entry => entry.name == parts.2) .alreadyExists
  let inodeNumber ← allocateInode
  let timestamp ← nextTimestamp
  writeInode inodeNumber (Inode.new kind permissions timestamp)
  let entry ← Exec.lift (DirectoryEntry.new inodeNumber kind parts.2)
  let parent ← replaceDirectory parent (entries ++ [entry])
  writeInode parentNumber { parent with modified := timestamp, generation := timestamp }
  finishMutation
  pure inodeNumber

def createFile (path : String) : Method Nat := create path .regular defaultFilePermissions

def createDir (path : String) : Method Nat := create path .directory defaultDirectoryPermissions

/-- The data part of `write_file`: the gap behind the old end reads as zeros. -/
def writeContents (inode : Inode) (offset : Nat) (input : List UInt8) : Method Inode := do
  let inode ← if offset > inode.size then zeroRange inode inode.size (offset - inode.size)
    else pure inode
  writeInodeData inode offset input

def writeFile (path : String) (offset : Nat) (input : List UInt8) : Method Nat := do
  let inodeNumber ← resolve path
  let inode ← readInode inodeNumber
  Exec.ensure (inode.kind = .regular) .isDirectory
  let stop ← Exec.okOr (checkedAdd offset input.length) .fileTooLarge
  ensureFileSizeSupported stop
  let inode ← writeContents inode offset input
  let timestamp ← nextTimestamp
  writeInode inodeNumber { inode with
    size := max inode.size stop
    modified := timestamp
    generation := timestamp }
  finishMutation
  pure input.length

/-- Clear what lies past `newSize` in the last block that a shorter file keeps. -/
def clearTail (inode : Inode) (newSize : Nat) : Method Unit := do
  if newSize ≠ 0 ∧ newSize % blockSize ≠ 0 then
    let blockNumber ← Exec.okOr (← dataBlock inode (newSize / blockSize)) .corruptInode
    let block ← readBlock blockNumber blockSize
    let start := newSize % blockSize
    let block ← Exec.lift (copyInto block start (List.replicate (block.length - start) 0))
    writeBlock blockNumber block
  else
    pure ()

def resizeContents (inode : Inode) (newSize : Nat) : Method Inode := do
  if newSize > inode.size then
    zeroRange inode inode.size (newSize - inode.size)
  else if newSize < inode.size then
    let inode ← truncateInodeBlocks inode (dataBlocksForSize newSize)
    clearTail inode newSize
    pure inode
  else
    pure inode

def truncate (path : String) (newSize : Nat) : Method Unit := do
  let inodeNumber ← resolve path
  let inode ← readInode inodeNumber
  Exec.ensure (inode.kind = .regular) .isDirectory
  ensureFileSizeSupported newSize
  let inode ← resizeContents inode newSize
  let timestamp ← nextTimestamp
  writeInode inodeNumber { inode with
    size := newSize
    modified := timestamp
    generation := timestamp }
  finishMutation

/-- `entries.swap_remove(position)` -/
def swapRemove (entries : List DirectoryEntry) (position : Nat) : List DirectoryEntry :=
  match entries.getLast? with
  | none => entries
  | some last => (entries.set position last).dropLast

def findEntry (entries : List DirectoryEntry) (name : String) : Option (Nat × DirectoryEntry) :=
  (entries.findIdx? fun entry => entry.name == name).bind fun position =>
    entries[position]?.map fun entry => (position, entry)

def remove (path : String) : Method Unit := do
  let parts ← Exec.lift (splitParent path)
  let parentNumber ← resolve parts.1
  let self ← Exec.get
  Exec.ensure (¬(parentNumber = self.superblock.rootInode ∧ parts.2 = "")) .busy
  let parent ← readInode parentNumber
  let entries ← readDirectory parent
  let found ← Exec.okOr (findEntry entries parts.2) .notFound
  let targetNumber := found.2.inode
  Exec.ensure (targetNumber ≠ self.superblock.rootInode) .busy
  let target ← readInode targetNumber
  let targetEntries ← if target.kind = .directory then readDirectory target else pure []
  Exec.ensure (targetEntries = []) .directoryNotEmpty
  let parent ← replaceDirectory parent (swapRemove entries found.1)
  let timestamp ← nextTimestamp
  writeInode parentNumber { parent with modified := timestamp, generation := timestamp }
  let _ ← truncateInodeBlocks target 0
  clearInode targetNumber
  setInodeAllocated targetNumber false
  finishMutation

/-- The writes of a `rename` inside one directory. -/
def renameWithin (parentNumber : Nat) (parent : Inode) (entries : List DirectoryEntry) :
    Method Unit := do
  let parent ← replaceDirectory parent entries
  let timestamp ← nextTimestamp
  writeInode parentNumber { parent with modified := timestamp, generation := timestamp }
  finishMutation

/-- The writes of a `rename` to another directory, the destination first. -/
def renameAcross (destinationParentNumber : Nat) (destinationParent : Inode)
    (destinationEntries : List DirectoryEntry) (sourceParentNumber : Nat) (sourceParent : Inode)
    (sourceEntries : List DirectoryEntry) : Method Unit := do
  let destinationParent ← replaceDirectory destinationParent destinationEntries
  let timestamp ← nextTimestamp
  writeInode destinationParentNumber
    { destinationParent with modified := timestamp, generation := timestamp }
  let sourceParent ← replaceDirectory sourceParent sourceEntries
  writeInode sourceParentNumber
    { sourceParent with modified := timestamp, generation := timestamp }
  finishMutation

/-- The part of `rename` after both parents have been resolved. -/
def renameEntry (sourceParentNumber : Nat) (sourceName : String)
    (destinationParentNumber : Nat) (destinationName : String) : Method Unit := do
  let sourceParent ← readInode sourceParentNumber
  let sourceEntries ← readDirectory sourceParent
  let found ← Exec.okOr (findEntry sourceEntries sourceName) .notFound
  let sourceEntry := found.2
  let self ← Exec.get
  Exec.ensure (sourceEntry.inode ≠ self.superblock.rootInode) .busy
  let destinationParent ← if destinationParentNumber = sourceParentNumber then pure sourceParent
    else readInode destinationParentNumber
  let destinationEntries ← if destinationParentNumber = sourceParentNumber
    then pure sourceEntries else readDirectory destinationParent
  Exec.ensure (¬destinationEntries.any fun entry => entry.name == destinationName) .alreadyExists
  let inside ← if sourceEntry.kind = .directory
    then directoryContains sourceEntry.inode destinationParentNumber else pure false
  Exec.ensure (inside = false) .invalidPath
  if sourceParentNumber = destinationParentNumber then
    renameWithin sourceParentNumber sourceParent
      (sourceEntries.set found.1 { sourceEntry with name := destinationName })
  else
    let entry ← Exec.lift
      (DirectoryEntry.new sourceEntry.inode sourceEntry.kind destinationName)
    renameAcross destinationParentNumber destinationParent (destinationEntries ++ [entry])
      sourceParentNumber sourceParent (swapRemove sourceEntries found.1)

def rename (source destination : String) : Method Unit := do
  let sourceParts ← Exec.lift (splitParent source)
  let destinationParts ← Exec.lift (splitParent destination)
  Exec.lift (validateName destinationParts.2)
  let sourceParentNumber ← resolve sourceParts.1
  let destinationParentNumber ← resolve destinationParts.1
  renameEntry sourceParentNumber sourceParts.2 destinationParentNumber destinationParts.2

end NexFs

end NexOs.Nexfs
