import NexOs.Kernel.Memory

/-! The heap of the kernel: a table of segments that covers one range of memory. -/
namespace NexOs.Kernel
open Bytes Align

abbrev heapPages : Nat := 4096
abbrev maxSegments : Nat := 128

structure Segment where
  offset : Nat
  size : Nat
  free : Bool
  deriving DecidableEq

def Segment.empty : Segment := ⟨0, 0, false⟩

/-- `segments` is the whole table; the first `segmentCount` are in use. -/
structure KernelHeap where
  physicalStart : Nat
  virtualStart : Nat
  size : Nat
  segments : List Segment
  segmentCount : Nat
  used : Nat
  peakUsed : Nat
  activeAllocations : Nat
  totalAllocations : Nat
  deallocations : Nat
  deriving DecidableEq

namespace KernelHeap
variable {ε : Type}

def fresh (physicalStart virtualStart size : Nat) : KernelHeap where
  physicalStart := physicalStart
  virtualStart := virtualStart
  size := size
  segments := ⟨0, size, true⟩ :: List.replicate (maxSegments - 1) .empty
  segmentCount := 1
  used := 0
  peakUsed := 0
  activeAllocations := 0
  totalAllocations := 0
  deallocations := 0

/-- `KernelHeap::initialize`; the bytes of the range are not part of the model. -/
def initializeHeap (hhdmOffset : Nat) : Exec FrameAllocator ε (Option KernelHeap) := do
  match ← FrameAllocator.allocateContiguous heapPages with
  | none => pure none
  | some physicalStart =>
    match checkedAdd hhdmOffset physicalStart with
    | none => pure none
    | some virtualStart => pure (some (fresh physicalStart virtualStart (heapPages * pageSize)))

/-! ## The table of segments -/

/-- `for position in (low..low + count).rev()`: copy each entry `additional` places up. -/
def shiftUp (segments : List Segment) (additional low : Nat) : Nat → Result ε (List Segment)
  | 0 => .ok segments
  | count + 1 => do
    let segment ← index segments (low + count)
    let segments ← store segments (low + count + additional) segment
    shiftUp segments additional low count

/-- `for position in low..low + count`: copy the next entry over each one. -/
def shiftDown (segments : List Segment) (low : Nat) : Nat → Result ε (List Segment)
  | 0 => .ok segments
  | count + 1 => do
    let segment ← index segments (low + 1)
    let segments ← store segments low segment
    shiftDown segments (low + 1) count

def replaceSegment (position : Nat) (replacement : List Segment) : Exec KernelHeap ε Bool := do
  let self ← Exec.get
  let additional ← Exec.lift (subU64 replacement.length 1)
  if self.segmentCount + additional > maxSegments then
    pure false
  else do
    let segments ← Exec.lift
      (shiftUp self.segments additional (position + 1) (self.segmentCount - (position + 1)))
    let segments ← Exec.lift (copyFromSlice segments position replacement.length replacement)
    Exec.modify fun self => { self with
      segments := segments
      segmentCount := self.segmentCount + additional }
    pure true

def removeSegment (position : Nat) : Exec KernelHeap ε Unit := do
  let self ← Exec.get
  let last ← Exec.lift (subU64 self.segmentCount 1)
  let segments ← Exec.lift (shiftDown self.segments position (last - position))
  let segments ← Exec.lift (store segments last .empty)
  Exec.modify fun self => { self with segments := segments, segmentCount := last }

/-! ## Allocation -/

structure Placement where
  alignedAddress : Nat
  alignedOffset : Nat
  allocationEnd : Nat
  segmentEnd : Nat

/-- The checked arithmetic of `allocate`; an overflow ends the whole call. -/
def place (virtualStart : Nat) (segment : Segment) (size align : Nat) : Option Placement := do
  let segmentAddress ← checkedAdd virtualStart segment.offset
  let unaligned ← checkedAdd segmentAddress (align - 1)
  let alignedAddress := unaligned &&& notU64 (align - 1)
  let alignedOffset ← checkedSub alignedAddress virtualStart
  let allocationEnd ← checkedAdd alignedOffset size
  let segmentEnd ← checkedAdd segment.offset segment.size
  some ⟨alignedAddress, alignedOffset, allocationEnd, segmentEnd⟩

def replacementFor (segment : Segment) (size : Nat) (placement : Placement) : List Segment :=
  let prefixSize := placement.alignedOffset - segment.offset
  let suffixSize := placement.segmentEnd - placement.allocationEnd
  (if prefixSize ≠ 0 then [⟨segment.offset, prefixSize, true⟩] else []) ++
    [⟨placement.alignedOffset, size, false⟩] ++
    (if suffixSize ≠ 0 then [⟨placement.allocationEnd, suffixSize, true⟩] else [])

def allocateAt (position : Nat) (segment : Segment) (size : Nat) (placement : Placement) :
    Exec KernelHeap ε (Option Nat) := do
  if ← replaceSegment position (replacementFor segment size placement) then do
    let self ← Exec.get
    let used ← Exec.lift (addU64 self.used size)
    let activeAllocations ← Exec.lift (addU64 self.activeAllocations 1)
    let totalAllocations ← Exec.lift (addU64 self.totalAllocations 1)
    Exec.modify fun self => { self with
      used := used
      peakUsed := max self.peakUsed used
      activeAllocations := activeAllocations
      totalAllocations := totalAllocations }
    pure (if placement.alignedAddress = 0 then none else some placement.alignedAddress)
  else
    pure none

/-- The loop of `allocate` over the positions of segments. -/
def allocateIn (size align : Nat) : List Nat → Exec KernelHeap ε (Option Nat)
  | [] => pure none
  | position :: rest => do
    let self ← Exec.get
    let segment ← Exec.lift (index self.segments position)
    if segment.free = false then
      allocateIn size align rest
    else
      match place self.virtualStart segment size align with
      | none => pure none
      | some placement =>
        if placement.allocationEnd > placement.segmentEnd then
          allocateIn size align rest
        else
          allocateAt position segment size placement

def allocate (size align : Nat) : Exec KernelHeap ε (Option Nat) := do
  if size = 0 ∨ ¬align.isPowerOfTwo then
    pure none
  else do
    let self ← Exec.get
    allocateIn size align (List.range self.segmentCount)

/-! ## Deallocation -/

def freeSegment (position : Nat) : Exec KernelHeap ε Unit := do
  let self ← Exec.get
  let segment ← Exec.lift (index self.segments position)
  let segments ← Exec.lift (store self.segments position { segment with free := true })
  let used ← Exec.lift (subU64 self.used segment.size)
  let activeAllocations ← Exec.lift (subU64 self.activeAllocations 1)
  let deallocations ← Exec.lift (addU64 self.deallocations 1)
  Exec.modify fun self => { self with
    segments := segments
    used := used
    activeAllocations := activeAllocations
    deallocations := deallocations }

/-- Add the size of the segment at `position + 1` to the one at `position` and drop it. -/
def mergeAt (position : Nat) : Exec KernelHeap ε Unit := do
  let self ← Exec.get
  let left ← Exec.lift (index self.segments position)
  let right ← Exec.lift (index self.segments (position + 1))
  let size ← Exec.lift (addU64 left.size right.size)
  let segments ← Exec.lift (store self.segments position { left with size := size })
  Exec.modify fun self => { self with segments := segments }
  removeSegment (position + 1)

/-- Merge a segment with a free one before it; returns where it is then. -/
def mergePrevious (position : Nat) : Exec KernelHeap ε Nat := do
  let self ← Exec.get
  if position > 0 then do
    let previous ← Exec.lift (index self.segments (position - 1))
    if previous.free then do
      mergeAt (position - 1)
      pure (position - 1)
    else
      pure position
  else
    pure position

def mergeNext (position : Nat) : Exec KernelHeap ε Unit := do
  let self ← Exec.get
  if position + 1 < self.segmentCount then do
    let next ← Exec.lift (index self.segments (position + 1))
    if next.free then mergeAt position else pure ()
  else
    pure ()

/-- The second half of `deallocate`: free a segment and merge it with its neighbours. -/
def releaseSegment (position : Nat) : Exec KernelHeap ε Bool := do
  freeSegment position
  let position ← mergePrevious position
  mergeNext position
  pure true

def deallocate (address : Nat) : Exec KernelHeap ε Bool := do
  let self ← Exec.get
  match checkedSub address self.virtualStart with
  | none => pure false
  | some offset =>
    match (self.segments.take self.segmentCount).findIdx?
        (fun segment => !segment.free && segment.offset == offset) with
    | none => pure false
    | some position => releaseSegment position

end KernelHeap

end NexOs.Kernel
