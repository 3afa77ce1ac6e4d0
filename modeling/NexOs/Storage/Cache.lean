import NexOs.Lib.Chunks
import NexOs.Lib.Hoare
import NexOs.Storage.Medium

/-! The write-back cache in front of a block device. It keeps a bounded number
of sectors, replaces the one used longest ago, and writes a changed sector back
when it is replaced or flushed. -/
namespace NexOs.Storage
open Bytes BlockDevice

structure CacheStats where
  hits : Nat
  misses : Nat
  evictions : Nat
  writebacks : Nat

structure CacheEntry where
  lba : Nat
  bytes : List UInt8
  dirty : Bool
  stamp : Nat

structure CachedBlockDevice (D : Type) where
  inner : D
  entries : List CacheEntry
  capacity : Nat
  stamp : Nat
  stats : CacheStats

namespace CachedBlockDevice
variable {D : Type}

def new (inner : D) (capacitySectors : Nat) : Result StorageError (CachedBlockDevice D) := do
  Result.ensure (capacitySectors ≠ 0) .invalidBuffer
  .ok { inner := inner, entries := [], capacity := capacitySectors, stamp := 0,
        stats := { hits := 0, misses := 0, evictions := 0, writebacks := 0 } }

def onInner (x : Exec D StorageError α) : Exec (CachedBlockDevice D) StorageError α :=
  Exec.zoom inner (fun d c => { c with inner := d }) x

def setEntry (i : Nat) (entry : CacheEntry) : Exec (CachedBlockDevice D) StorageError Unit :=
  Exec.modify fun c => { c with entries := c.entries.set i entry }

def touch (i : Nat) : Exec (CachedBlockDevice D) StorageError Unit := do
  Exec.modify fun c => { c with stamp := (c.stamp + 1) % u64Limit }
  let c ← Exec.get
  let entry ← Exec.lift (index c.entries i)
  setEntry i { entry with stamp := c.stamp }

variable [BlockDevice D]

def writeBack (i : Nat) : Exec (CachedBlockDevice D) StorageError Unit := do
  let c ← Exec.get
  let entry ← Exec.lift (index c.entries i)
  if entry.dirty then
    onInner (writeSectors entry.lba entry.bytes)
    setEntry i { entry with dirty := false }
    Exec.modify fun c =>
      { c with stats := { c.stats with writebacks := saturatingAdd c.stats.writebacks 1 } }
  else
    pure ()

/-- The first entry with the smallest stamp. -/
def oldest (entries : List CacheEntry) : Option Nat :=
  entries.findIdx? fun entry => entries.all fun other => entry.stamp ≤ other.stamp

/-- A place for a sector that is not cached: a new entry while there is room,
else that of the entry used longest ago. -/
def placeFor (lba : Nat) : Exec (CachedBlockDevice D) StorageError Nat := do
  let c ← Exec.get
  if c.entries.length < c.capacity then
    Exec.modify fun c => { c with entries := c.entries ++
      [{ lba := lba, bytes := List.replicate (sectorSize c.inner) 0, dirty := false, stamp := 0 }] }
    pure c.entries.length
  else
    let i ← Exec.okOr (oldest c.entries) .device
    writeBack i
    Exec.modify fun c =>
      { c with stats := { c.stats with evictions := saturatingAdd c.stats.evictions 1 } }
    let c ← Exec.get
    let entry ← Exec.lift (index c.entries i)
    setEntry i { entry with lba := lba }
    pure i

def fill (i lba : Nat) : Exec (CachedBlockDevice D) StorageError Unit := do
  let c ← Exec.get
  let entry ← Exec.lift (index c.entries i)
  let r := BlockDevice.readSectors lba (c.inner, entry.bytes)
  Exec.modify fun c => { c with inner := r.2.1 }
  setEntry i { entry with bytes := r.2.2 }
  Exec.lift r.1
  setEntry i { entry with bytes := r.2.2, dirty := false }

def entryFor (lba : Nat) : Exec (CachedBlockDevice D) StorageError Nat := do
  let c ← Exec.get
  match c.entries.findIdx? fun entry => entry.lba == lba with
  | some i =>
    Exec.modify fun c => { c with stats := { c.stats with hits := saturatingAdd c.stats.hits 1 } }
    touch i
    pure i
  | none =>
    Exec.modify fun c =>
      { c with stats := { c.stats with misses := saturatingAdd c.stats.misses 1 } }
    let i ← placeFor lba
    fill i lba
    touch i
    pure i

def validateTransfer (lba length : Nat) : Exec (CachedBlockDevice D) StorageError Nat := do
  let c ← Exec.get
  let size := sectorSize c.inner
  Exec.ensure (¬(length = 0 ∨ length % size ≠ 0)) .invalidBuffer
  Exec.ensure (isNoneOr (checkedAdd lba (length / size))
    (fun stop => sectorCount c.inner < stop) = false) .outOfBounds
  pure size

/-- The cache's part of a call that also has a buffer. -/
def onCache (x : Exec (CachedBlockDevice D) StorageError α) :
    Exec (CachedBlockDevice D × List UInt8) StorageError α :=
  Exec.zoom Prod.fst (fun c s => (c, s.2)) x

/-- One turn of the loop of `read_sectors`. -/
def loadSector (size lba offset : Nat) :
    Exec (CachedBlockDevice D × List UInt8) StorageError Unit := do
  let sectorLba ← Exec.okOr (checkedAdd lba offset) .outOfBounds
  let i ← onCache (entryFor sectorLba)
  let s ← Exec.get
  let entry ← Exec.lift (index s.1.entries i)
  let output ← Exec.lift (copyFromSlice s.2 (offset * size) size entry.bytes)
  Exec.modify fun s => (s.1, output)

def readSectors (lba : Nat) : Exec (CachedBlockDevice D × List UInt8) StorageError Unit := do
  let s ← Exec.get
  let size ← onCache (validateTransfer lba s.2.length)
  (List.range (s.2.length / size)).forM (loadSector size lba)

/-- One turn of the loop of `write_sectors`. -/
def storeSector (lba offset : Nat) (source : List UInt8) :
    Exec (CachedBlockDevice D) StorageError Unit := do
  let sectorLba ← Exec.okOr (checkedAdd lba offset) .outOfBounds
  let i ← entryFor sectorLba
  let c ← Exec.get
  let entry ← Exec.lift (index c.entries i)
  let bytes ← Exec.lift (copyFromSlice entry.bytes 0 entry.bytes.length source)
  setEntry i { entry with bytes := bytes, dirty := true }
  touch i

def writeSectors (lba : Nat) (input : List UInt8) :
    Exec (CachedBlockDevice D) StorageError Unit := do
  let size ← validateTransfer lba input.length
  (List.range (input.length / size)).forM fun offset =>
    storeSector lba offset (slice input (offset * size) size)

def flush : Exec (CachedBlockDevice D) StorageError Unit := do
  let c ← Exec.get
  (List.range c.entries.length).forM writeBack
  onInner BlockDevice.flush

instance : BlockDevice (CachedBlockDevice D) where
  sectorSize c := sectorSize c.inner
  sectorCount c := sectorCount c.inner
  readSectors := readSectors
  writeSectors := writeSectors
  flush := flush

def intoInner (c : CachedBlockDevice D) : Result StorageError D :=
  match flush c with
  | (.ok _, c) => .ok c.inner
  | (.error e, _) => .error e

end CachedBlockDevice

end NexOs.Storage
