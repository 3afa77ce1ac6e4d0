import NexOs.Lib.Align

/-! The allocator of physical frames. -/
namespace NexOs.Kernel
open Bytes Align

abbrev pageSize : Nat := 4096
abbrev lowMemoryEnd : Nat := 0x100000
abbrev maxRanges : Nat := 64
abbrev memmapUsable : Nat := 0

structure MemmapEntry where
  base : Nat
  length : Nat
  kind : Nat
  deriving DecidableEq

structure FrameRange where
  next : Nat
  stop : Nat
  deriving DecidableEq

/-- `ranges` are the ranges in use, the first `range_count` of the table. -/
structure FrameAllocator where
  ranges : List FrameRange
  currentRange : Nat
  totalFrames : Nat
  allocatedFrames : Nat
  deriving DecidableEq

def alignUp (value alignment : Nat) : Nat :=
  saturatingAdd value (alignment - 1) &&& notU64 (alignment - 1)

def alignDown (value alignment : Nat) : Nat := value &&& notU64 (alignment - 1)

namespace FrameAllocator
variable {ε : Type}

/-- The body of the loop of `from_memory_map`. -/
def addEntry (allocator : FrameAllocator) (entry : MemmapEntry) : Result ε FrameAllocator :=
  if entry.kind ≠ memmapUsable ∨ allocator.ranges.length = maxRanges then
    .ok allocator
  else
    let start := alignUp (max entry.base lowMemoryEnd) pageSize
    let stop := alignDown (saturatingAdd entry.base entry.length) pageSize
    if start ≥ stop then
      .ok allocator
    else do
      let totalFrames ← addU64 allocator.totalFrames ((stop - start) / pageSize)
      .ok { allocator with ranges := allocator.ranges ++ [⟨start, stop⟩], totalFrames := totalFrames }

def fromMemoryMap (memoryMap : List MemmapEntry) : Result ε FrameAllocator :=
  memoryMap.foldlM addEntry ⟨[], 0, 0, 0⟩

/-- The loop of `allocate`, over at most `fuel` ranges. -/
def allocateFrom : Nat → Exec FrameAllocator ε (Option Nat)
  | 0 => Exec.diverge
  | fuel + 1 => do
    let self ← Exec.get
    if self.currentRange < self.ranges.length then do
      let range ← Exec.lift (index self.ranges self.currentRange)
      if range.next < range.stop then do
        let next ← Exec.lift (addU64 range.next pageSize)
        let allocatedFrames ← Exec.lift (addU64 self.allocatedFrames 1)
        Exec.modify fun self => { self with
          ranges := self.ranges.set self.currentRange { range with next := next }
          allocatedFrames := allocatedFrames }
        pure (some range.next)
      else do
        Exec.modify fun self => { self with currentRange := self.currentRange + 1 }
        allocateFrom fuel
    else
      pure none

def allocate : Exec FrameAllocator ε (Option Nat) := do
  let self ← Exec.get
  allocateFrom (self.ranges.length - self.currentRange + 1)

/-- The loop of `allocate_contiguous`; an overflow ends it without a frame. -/
def allocateContiguousFrom (frameCount : Nat) : Nat → Exec FrameAllocator ε (Option Nat)
  | 0 => Exec.diverge
  | fuel + 1 => do
    let self ← Exec.get
    if self.currentRange < self.ranges.length then do
      let range ← Exec.lift (index self.ranges self.currentRange)
      match (checkedMul frameCount pageSize).bind (checkedAdd range.next) with
      | none => pure none
      | some allocationEnd =>
        if allocationEnd ≤ range.stop then do
          let allocatedFrames ← Exec.lift (addU64 self.allocatedFrames frameCount)
          Exec.modify fun self => { self with
            ranges := self.ranges.set self.currentRange { range with next := allocationEnd }
            allocatedFrames := allocatedFrames }
          pure (some range.next)
        else do
          Exec.modify fun self => { self with currentRange := self.currentRange + 1 }
          allocateContiguousFrom frameCount fuel
    else
      pure none

def allocateContiguous (frameCount : Nat) : Exec FrameAllocator ε (Option Nat) := do
  if frameCount = 0 then
    pure none
  else do
    let self ← Exec.get
    allocateContiguousFrom frameCount (self.ranges.length - self.currentRange + 1)

/-! ## Calls -/

inductive Call where
  | allocate
  | allocateContiguous (frameCount : Nat)
  deriving DecidableEq

def Call.frames : Call → Nat
  | .allocate => 1
  | .allocateContiguous frameCount => frameCount

def perform : Call → Exec FrameAllocator ε (Option Nat)
  | .allocate => allocate
  | .allocateContiguous frameCount => allocateContiguous frameCount

end FrameAllocator

end NexOs.Kernel
