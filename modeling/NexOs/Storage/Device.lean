import NexOs.Lib.Bytes

/-! A block device whose in-range requests never fail, with the log of the
calls that change it. The log is what a crash is about: a write is durable
once a later flush has completed, and before that it may be lost. -/
namespace NexOs.Storage
open Bytes

inductive StorageError where
  | outOfBounds
  | invalidBuffer
  | readOnly
  | invalidMbr
  | invalidGpt
  | invalidPartition
  | checksumMismatch
  | unsupportedSectorSize
  | unsupportedFilesystem
  | corruptFilesystem
  | notFound
  | alreadyExists
  | invalidName
  | noSpace
  | tooLarge
  | timeout
  | busy
  | device
  deriving DecidableEq, Repr

/-- A call that reaches the medium. -/
inductive Event where
  | write (lba : Nat) (data : List UInt8)
  | flush
  deriving DecidableEq

/-- The behaviour of `MemoryBlockDevice`, which every device without I/O errors
shows to its callers. `log` records the calls issued so far. -/
structure Disk where
  sectorSize : Nat
  bytes : List UInt8
  log : List Event

namespace Disk

def zeroed (sectors sectorSize : Nat) : Disk where
  sectorSize := sectorSize
  bytes := List.replicate (sectors * sectorSize) 0
  log := []

def sectorCount (d : Disk) : Nat := d.bytes.length / d.sectorSize

/-- The byte offset of a request, if it is aligned and inside the device. -/
def range (d : Disk) (lba length : Nat) : Result StorageError Nat := do
  Result.ensure (length % d.sectorSize = 0) .invalidBuffer
  Result.ensure (lba * d.sectorSize + length ≤ d.bytes.length) .outOfBounds
  .ok (lba * d.sectorSize)

def readSectors (lba length : Nat) : Exec Disk StorageError (List UInt8) := do
  let d ← Exec.get
  let start ← Exec.lift (d.range lba length)
  pure (slice d.bytes start length)

def writeSectors (lba : Nat) (input : List UInt8) : Exec Disk StorageError Unit := do
  let d ← Exec.get
  let start ← Exec.lift (d.range lba input.length)
  Exec.modify fun d =>
    { d with bytes := splice d.bytes start input, log := d.log ++ [.write lba input] }

def flush : Exec Disk StorageError Unit :=
  Exec.modify fun d => { d with log := d.log ++ [.flush] }

end Disk

/-- What one call leaves on the medium. -/
def Event.apply (sectorSize : Nat) (bytes : List UInt8) : Event → List UInt8
  | .write lba data => splice bytes (lba * sectorSize) data
  | .flush => bytes

def replay (sectorSize : Nat) (bytes : List UInt8) (events : List Event) : List UInt8 :=
  events.foldl (Event.apply sectorSize) bytes

/-- `image` can be left by a crash after the calls `events` on a device that
held `start`: everything up to the last completed flush survives, and of the
later writes any part, each of them whole. -/
def Survives (sectorSize : Nat) (start : List UInt8) (events : List Event)
    (image : List UInt8) : Prop :=
  ∃ durable pending kept, events = durable ++ pending ∧
    (durable = [] ∨ durable.getLast? = some .flush) ∧ .flush ∉ pending ∧
    kept.Sublist pending ∧
    image = replay sectorSize (replay sectorSize start durable) kept

end NexOs.Storage
