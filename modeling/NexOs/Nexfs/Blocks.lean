import NexOs.Nexfs.Codec
import NexOs.Nexfs.Volume

/-! A device as an array of 4096-byte blocks. Reading and writing a block
through the sector interface is indexing and updating that array. -/
namespace NexOs.Nexfs
open Bytes Storage Exec

def blockAt (d : Disk) (b : Nat) : List UInt8 := slice d.bytes (4096 * b) 4096

def putBlock (d : Disk) (b : Nat) (data : List UInt8) : Disk :=
  { d with
    bytes := splice d.bytes (4096 * b) data
    log := d.log ++ [.write (b * (4096 / d.sectorSize)) data] }

def flushed (d : Disk) : Disk := { d with log := d.log ++ [.flush] }

structure Aligned (d : Disk) : Prop where
  sector_pos : 0 < d.sectorSize
  sector_dvd : d.sectorSize ∣ 4096

variable {d : Disk} {data : List UInt8}

section
variable {b c : Nat}

theorem length_blockAt (h : 4096 * (b + 1) ≤ d.bytes.length) : (blockAt d b).length = 4096 :=
  length_slice (by omega)

@[simp] theorem sectorSize_putBlock : (putBlock d b data).sectorSize = d.sectorSize := rfl

section
variable (h : 4096 * (b + 1) ≤ d.bytes.length) (hd : data.length = 4096)
include h hd

theorem length_putBlock : (putBlock d b data).bytes.length = d.bytes.length :=
  length_splice (by omega)

theorem blockAt_putBlock_self : blockAt (putBlock d b data) b = data := by
  have hself : slice (splice d.bytes (4096 * b) data) (4096 * b) data.length = data :=
    slice_splice_self (by omega)
  rwa [hd] at hself

theorem blockAt_putBlock_of_ne (hne : c ≠ b) : blockAt (putBlock d b data) c = blockAt d c :=
  slice_splice_of_disjoint (by omega) (by omega)

end

theorem Aligned.putBlock (ha : Aligned d) : Aligned (putBlock d b data) :=
  ⟨ha.sector_pos, ha.sector_dvd⟩

theorem Aligned.per_block_mul (ha : Aligned d) :
    b * (4096 / d.sectorSize) * d.sectorSize = 4096 * b := by
  rw [Nat.mul_assoc, Nat.div_mul_cancel ha.sector_dvd, Nat.mul_comm]

theorem Aligned.per_block_le : b * (4096 / d.sectorSize) ≤ 4096 * b := by
  rw [Nat.mul_comm 4096]
  exact Nat.mul_le_mul_left _ (Nat.div_le_self _ _)

theorem storage_of_ok {x : Exec Disk StorageError α} {a : α} {e : Disk} (h : x d = (.ok a, e)) :
    storage x d = (.ok a, e) :=
  mapError_of_ok h

variable (ha : Aligned d)
include ha

theorem sectorsPerBlock_run : sectorsPerBlock d = (.ok (4096 / d.sectorSize), d) := by
  have hp := ha.sector_pos
  have hm := Nat.mod_eq_zero_of_dvd ha.sector_dvd
  unfold sectorsPerBlock
  rw [get_bind, ensure_bind_pos]
  · rfl
  · rintro (h | h)
    · omega
    · exact h hm

theorem readSectors_run (h : 4096 * (b + 1) ≤ d.bytes.length) :
    Disk.readSectors (b * (4096 / d.sectorSize)) 4096 d = (.ok (blockAt d b), d) := by
  have hr : d.range (b * (4096 / d.sectorSize)) 4096 = .ok (4096 * b) := by
    unfold Disk.range
    rw [ha.per_block_mul, Result.ensure_pos (Nat.mod_eq_zero_of_dvd ha.sector_dvd),
      Result.bind_ok, Result.ensure_pos (by omega), Result.bind_ok]
  unfold Disk.readSectors
  rw [get_bind, hr]
  rfl

theorem readSectors_short (h : d.bytes.length < 4096 * (b + 1)) :
    Disk.readSectors (b * (4096 / d.sectorSize)) 4096 d =
      (.error (.error .outOfBounds), d) := by
  have hr : d.range (b * (4096 / d.sectorSize)) 4096 = Result.fail .outOfBounds := by
    unfold Disk.range
    rw [ha.per_block_mul, Result.ensure_pos (Nat.mod_eq_zero_of_dvd ha.sector_dvd), Result.ensure_neg (by omega)]
    rfl
  unfold Disk.readSectors
  rw [get_bind, hr]
  rfl

theorem writeSectors_run (h : 4096 * (b + 1) ≤ d.bytes.length) (hd : data.length = 4096) :
    Disk.writeSectors (b * (4096 / d.sectorSize)) data d = (.ok (), putBlock d b data) := by
  have hr : d.range (b * (4096 / d.sectorSize)) data.length = .ok (4096 * b) := by
    unfold Disk.range
    rw [ha.per_block_mul, hd, Result.ensure_pos (Nat.mod_eq_zero_of_dvd ha.sector_dvd),
      Result.bind_ok, Result.ensure_pos (by omega), Result.bind_ok]
  unfold Disk.writeSectors
  rw [get_bind, hr]
  rfl

end

/-- The device holds the volume that `sb` describes. -/
structure Ready (d : Disk) (sb : Superblock) : Prop extends Aligned d where
  valid : sb.Valid
  room : 4096 * sb.totalBlocks ≤ d.bytes.length
  total_lt : 4096 * sb.totalBlocks < 2 ^ 64

variable {sb : Superblock} {b : Nat}

variable (h : Ready d sb)
include h

theorem Ready.inside (hb : b < sb.totalBlocks) : 4096 * (b + 1) ≤ d.bytes.length := by
  have := h.room
  omega

theorem Ready.lba_eq (hb : b < sb.totalBlocks) :
    (mulU64 b (4096 / d.sectorSize) : Result FsError Nat) = .ok (b * (4096 / d.sectorSize)) := by
  have hlba := Aligned.per_block_le (d := d) (b := b)
  have htotal := h.total_lt
  rw [mulU64_eq (by omega)]

theorem Ready.putBlock (hb : b < sb.totalBlocks) (hd : data.length = 4096) :
    Ready (putBlock d b data) sb where
  toAligned := h.toAligned.putBlock
  valid := h.valid
  room := by
    rw [length_putBlock (h.inside hb) hd]
    exact h.room
  total_lt := h.total_lt

theorem Ready.one_lt : 1 < sb.totalBlocks := by
  have := h.valid.total_ge
  omega

theorem Ready.flushed : Ready (flushed d) sb :=
  ⟨⟨h.sector_pos, h.sector_dvd⟩, h.valid, h.room, h.total_lt⟩

theorem Ready.length_blockAt (hb : b < sb.totalBlocks) : (blockAt d b).length = 4096 :=
  Nexfs.length_blockAt (h.inside hb)

theorem readBlock_run (hb : b < sb.totalBlocks) :
    readBlock sb b blockSize d = (.ok (blockAt d b), d) := by
  unfold readBlock
  rw [ensure_bind_pos (by simp only [ne_eq, not_true_eq_false, false_or]; omega),
    bind_of_ok (sectorsPerBlock_run h.toAligned), h.lba_eq hb]
  exact storage_of_ok (readSectors_run h.toAligned (h.inside hb))

theorem writeBlockAt_run (hb : b < sb.totalBlocks) (hd : data.length = 4096) :
    writeBlockAt (4096 / d.sectorSize) b data d = (.ok (), putBlock d b data) := by
  unfold writeBlockAt
  rw [h.lba_eq hb]
  exact storage_of_ok (writeSectors_run h.toAligned (h.inside hb) hd)

theorem writeSuperblock_run (sb' : Superblock) :
    writeSuperblock sb' d = (.ok (), putBlock d 1 sb'.record) := by
  have hb : 1 < sb.totalBlocks := by
    have := h.valid.total_ge
    omega
  unfold writeSuperblock
  rw [bind_of_ok (sectorsPerBlock_run h.toAligned),
    sb'.encode_eq (List.length_replicate ..), h.lba_eq hb]
  exact storage_of_ok
    (writeSectors_run h.toAligned (h.inside hb) sb'.length_record)

end NexOs.Nexfs
