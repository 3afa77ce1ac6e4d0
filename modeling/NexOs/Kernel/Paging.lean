import NexOs.Kernel.Memory

/-! The page tables of the kernel. -/
namespace NexOs.Kernel
open Bytes Align

abbrev entryAddressMask : Nat := 0x000ffffffffff000
abbrev present : Nat := 1
abbrev writable : Nat := 1 <<< 1
abbrev userAccessible : Nat := 1 <<< 2
abbrev cacheDisable : Nat := 1 <<< 4
abbrev hugePage : Nat := 1 <<< 7
abbrev noExecute : Nat := 1 <<< 63

structure Mapping where
  physicalAddress : Nat
  pageSize : Nat
  flags : Nat
  deriving DecidableEq

structure PagingInfo where
  hhdmOffset : Nat
  level4Frame : Nat
  deriving DecidableEq

inductive PageMapError where
  | unaligned
  | invalidIndex
  | addressOverflow
  | outOfFrames
  | hugePageConflict
  | alreadyMapped
  | notMapped
  deriving DecidableEq

/-- `memory` gives the 64-bit word at each address that a table entry may have. -/
structure PageState where
  memory : Nat → Nat
  allocator : FrameAllocator

def writeWord (memory : Nat → Nat) (address value : Nat) : Nat → Nat :=
  fun a => if a = address then value else memory a

def clearPage (memory : Nat → Nat) (address : Nat) : Nat → Nat :=
  fun a => if address ≤ a ∧ a < address + pageSize then 0 else memory a

/-- The indices of an address in the tables, from the fourth level to the first. -/
def indices (virtualAddress : Nat) : List Nat :=
  [virtualAddress >>> 39 &&& 0x1ff, virtualAddress >>> 30 &&& 0x1ff,
    virtualAddress >>> 21 &&& 0x1ff, virtualAddress >>> 12 &&& 0x1ff]

namespace PagingInfo

def entryPointer (info : PagingInfo) (tableFrame index : Nat) : Result PageMapError Nat := do
  Result.ensure (¬index ≥ 512) .invalidIndex
  Result.okOr ((checkedAdd info.hhdmOffset tableFrame).bind (checkedAdd · (index * 8)))
    .addressOverflow

def readEntry (info : PagingInfo) (memory : Nat → Nat) (tableFrame index : Nat) : Option Nat :=
  match info.entryPointer tableFrame index with
  | .ok address => some (memory address)
  | .error _ => none

/-! ## Translation -/

/-- The loop of `translate`, from a level on. -/
def translateFrom (info : PagingInfo) (memory : Nat → Nat) (virtualAddress : Nat) :
    Nat → Nat → List Nat → Option Mapping
  | _, _, [] => none
  | level, table, index :: rest => do
    let entry ← info.readEntry memory table index
    if entry &&& present = 0 then
      none
    else
      let frame := entry &&& entryAddressMask
      if level = 1 ∧ entry &&& hugePage ≠ 0 then
        some ⟨frame + (virtualAddress &&& (1024 * 1024 * 1024 - 1)), 1024 * 1024 * 1024, entry⟩
      else if level = 2 ∧ entry &&& hugePage ≠ 0 then
        some ⟨frame + (virtualAddress &&& (2 * 1024 * 1024 - 1)), 2 * 1024 * 1024, entry⟩
      else if level = 3 then
        some ⟨frame + (virtualAddress &&& 0xfff), 4096, entry⟩
      else
        info.translateFrom memory virtualAddress (level + 1) frame rest

def translate (info : PagingInfo) (memory : Nat → Nat) (virtualAddress : Nat) : Option Mapping :=
  info.translateFrom memory virtualAddress 0 info.level4Frame (indices virtualAddress)

/-! ## Mapping -/

def allocateFrame : Exec PageState PageMapError (Option Nat) :=
  Exec.zoom PageState.allocator (fun allocator s => { s with allocator := allocator })
    (Exec.mapError nofun (FrameAllocator.allocate (ε := Empty)))

def writeEntry (address entry : Nat) : Exec PageState PageMapError Unit :=
  Exec.modify fun s => { s with memory := writeWord s.memory address entry }

/-- The branch of `map_page` for an entry that is not present. -/
def createTable (info : PagingInfo) (entryPointer flags : Nat) :
    Exec PageState PageMapError Nat := do
  let frame ← allocateFrame
  let newTable ← Exec.okOr frame .outOfFrames
  let virtualTable ← Exec.okOr (checkedAdd info.hhdmOffset newTable) .addressOverflow
  Exec.modify fun s => { s with memory := clearPage s.memory virtualTable }
  let entry := newTable ||| present ||| writable
  let entry := if flags &&& userAccessible ≠ 0 then entry ||| userAccessible else entry
  writeEntry entryPointer entry
  pure entry

/-- The branches of `map_page` for one table entry above the last level. -/
def prepareEntry (info : PagingInfo) (entryPointer flags entry : Nat) :
    Exec PageState PageMapError Nat :=
  if entry &&& present = 0 then
    info.createTable entryPointer flags
  else if entry &&& hugePage ≠ 0 then
    Exec.fail .hugePageConflict
  else if flags &&& userAccessible ≠ 0 ∧ entry &&& userAccessible = 0 then do
    writeEntry entryPointer (entry ||| userAccessible)
    pure (entry ||| userAccessible)
  else
    pure entry

/-- The loop of `map_page` over the upper levels. -/
def mapTables (info : PagingInfo) (flags : Nat) : List Nat → Nat → Exec PageState PageMapError Nat
  | [], table => pure table
  | index :: rest, table => do
    let entryPointer ← Exec.lift (info.entryPointer table index)
    let s ← Exec.get
    let entry ← info.prepareEntry entryPointer flags (s.memory entryPointer)
    info.mapTables flags rest (entry &&& entryAddressMask)

def mapPage (info : PagingInfo) (virtualAddress physicalAddress flags : Nat) :
    Exec PageState PageMapError Unit := do
  Exec.ensure (¬(virtualAddress &&& (pageSize - 1) ≠ 0 ∨ physicalAddress &&& (pageSize - 1) ≠ 0))
    .unaligned
  let table ← info.mapTables flags ((indices virtualAddress).take 3) info.level4Frame
  let leafIndex ← Exec.lift (index (indices virtualAddress) 3)
  let leaf ← Exec.lift (info.entryPointer table leafIndex)
  let s ← Exec.get
  Exec.ensure (¬s.memory leaf &&& present ≠ 0) .alreadyMapped
  writeEntry leaf (physicalAddress ||| flags ||| present)

def mapMmioPage (info : PagingInfo) (virtualAddress physicalAddress : Nat) :
    Exec PageState PageMapError Unit :=
  info.mapPage virtualAddress physicalAddress (writable ||| cacheDisable ||| noExecute)

def mapWritablePage (info : PagingInfo) (virtualAddress physicalAddress : Nat) :
    Exec PageState PageMapError Unit :=
  info.mapPage virtualAddress physicalAddress (writable ||| noExecute)

def userFlags (canWrite canExecute : Bool) : Nat :=
  let flags := userAccessible
  let flags := if canWrite then flags ||| writable else flags
  if !canExecute then flags ||| noExecute else flags

def mapUserPage (info : PagingInfo) (virtualAddress physicalAddress : Nat)
    (canWrite canExecute : Bool) : Exec PageState PageMapError Unit :=
  info.mapPage virtualAddress physicalAddress (userFlags canWrite canExecute)

/-! ## Unmapping -/

/-- The loop of `unmap_page` over the upper levels. -/
def findTable (info : PagingInfo) : List Nat → Nat → Exec PageState PageMapError Nat
  | [], table => pure table
  | index :: rest, table => do
    let s ← Exec.get
    let entry ← Exec.okOr (info.readEntry s.memory table index) .notMapped
    Exec.ensure (¬entry &&& present = 0) .notMapped
    Exec.ensure (¬entry &&& hugePage ≠ 0) .hugePageConflict
    info.findTable rest (entry &&& entryAddressMask)

def unmapPage (info : PagingInfo) (virtualAddress : Nat) : Exec PageState PageMapError Nat := do
  Exec.ensure (¬virtualAddress &&& (pageSize - 1) ≠ 0) .unaligned
  let table ← info.findTable ((indices virtualAddress).take 3) info.level4Frame
  let leafIndex ← Exec.lift (index (indices virtualAddress) 3)
  let leaf ← Exec.lift (info.entryPointer table leafIndex)
  let s ← Exec.get
  let entry := s.memory leaf
  Exec.ensure (¬entry &&& present = 0) .notMapped
  writeEntry leaf 0
  pure (entry &&& entryAddressMask)

/-! ## Calls -/

inductive Call where
  | mapPage (virtualAddress physicalAddress flags : Nat)
  | mapMmioPage (virtualAddress physicalAddress : Nat)
  | mapWritablePage (virtualAddress physicalAddress : Nat)
  | mapUserPage (virtualAddress physicalAddress : Nat) (canWrite canExecute : Bool)
  | unmapPage (virtualAddress : Nat)
  deriving DecidableEq

def perform (info : PagingInfo) : Call → Exec PageState PageMapError Unit
  | .mapPage virtualAddress physicalAddress flags =>
    info.mapPage virtualAddress physicalAddress flags
  | .mapMmioPage virtualAddress physicalAddress => info.mapMmioPage virtualAddress physicalAddress
  | .mapWritablePage virtualAddress physicalAddress =>
    info.mapWritablePage virtualAddress physicalAddress
  | .mapUserPage virtualAddress physicalAddress canWrite canExecute =>
    info.mapUserPage virtualAddress physicalAddress canWrite canExecute
  | .unmapPage virtualAddress => do
    let _ ← info.unmapPage virtualAddress
    pure ()

end PagingInfo

end NexOs.Kernel
