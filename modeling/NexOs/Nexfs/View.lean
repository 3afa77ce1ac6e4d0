import NexOs.Nexfs.Blocks

/-! A volume as four maps: the two bitmaps, the inode slots and the data
blocks. The regions that hold them share no block, so a write to one region
changes one of the maps and leaves the other three alone. -/
namespace NexOs.Nexfs
open List Bytes Storage Function

@[ext] structure View where
  inodeBit : Nat → Bool
  blockBit : Nat → Bool
  slot : Nat → Result FsError Inode
  data : Nat → List UInt8

/-- The number of inode slots of a valid layout. -/
def Superblock.slots (sb : Superblock) : Nat := 16 * (sb.dataStartBlock - sb.inodeTableBlock)

def viewOf (sb : Superblock) (d : Disk) : View where
  inodeBit := bit (blockAt d 2)
  blockBit b :=
    if b < 32768 * (sb.inodeTableBlock - 3) then bit (blockAt d (3 + b / 32768)) (b % 32768)
    else false
  slot n :=
    if n < sb.slots then
      Inode.decode (slice (blockAt d (sb.inodeTableBlock + n / 16)) (256 * (n % 16)) 256)
    else Result.fail .invalidLayout
  data b := if sb.dataStartBlock ≤ b ∧ b < sb.totalBlocks then blockAt d b else []

section
variable {sb : Superblock} (h : sb.Valid)
include h

theorem Superblock.Valid.inodeCount : sb.inodeCount = .ok sb.slots := by
  rw [Superblock.inodeCount_eq h, Superblock.slots, Nat.mul_comm]

theorem Superblock.Valid.slots_le : sb.slots ≤ 32768 := by
  have := h.table_le
  simp only [slots]
  omega

theorem Superblock.Valid.slots_ge : 16 ≤ sb.slots := by
  have := h.table_lt
  simp only [slots]
  omega

theorem Superblock.Valid.table_ge : 4 ≤ sb.inodeTableBlock := by
  have := h.table_eq
  have := h.total_ge
  omega

theorem Superblock.Valid.total_le : sb.totalBlocks ≤ 32768 * (sb.inodeTableBlock - 3) := by
  have := h.table_eq
  omega

def Superblock.dataRange (sb : Superblock) : List Nat :=
  List.range' sb.dataStartBlock (sb.totalBlocks - sb.dataStartBlock)

end

variable {b : Nat}

theorem Superblock.mem_dataRange {sb : Superblock} :
    b ∈ sb.dataRange ↔ sb.dataStartBlock ≤ b ∧ b < sb.totalBlocks := by
  rw [dataRange, mem_range'_1]
  omega

def zeroBlock : List UInt8 := List.replicate 4096 0

@[simp] theorem length_zeroBlock : zeroBlock.length = 4096 := length_replicate

namespace View

def freeBlock (sb : Superblock) (V : View) : Option Nat :=
  sb.dataRange.find? fun c => !V.blockBit c

def withBlock (V : View) (b : Nat) : View :=
  { V with
    blockBit := update V.blockBit b true
    data := update V.data b zeroBlock }

@[simp] theorem withBlock_blockBit (V : View) :
    (V.withBlock b).blockBit = update V.blockBit b true := rfl

@[simp] theorem withBlock_data (V : View) :
    (V.withBlock b).data = update V.data b zeroBlock := rfl

end View

section
variable {bytes : List UInt8} {i : Nat}

theorem bitmapBit_eq (h : i / 8 < bytes.length) : bitmapBit bytes i = .ok (bit bytes i) := by
  have hi := getElem?_eq_getElem h
  have hm : i % 8 < 8 := Nat.mod_lt _ (by decide)
  simp only [bitmapBit, bit, hi]
  congr 1
  rw [Bool.eq_iff_iff, bne_iff_ne]
  exact byte_and_shift_ne_zero hm

theorem setBitmapBit_eq (h : i / 8 < bytes.length) (v : Bool) :
    setBitmapBit bytes i v = .ok (setBit bytes i v) := by
  have hi := getElem?_eq_getElem h
  simp only [setBitmapBit, setBit, hi, Option.getD_some]

end

variable {d : Disk} {sb : Superblock} {x : List UInt8}

variable (h : Ready d sb)
include h

theorem viewOf_eq (hsame : ∀ c, 2 < c → blockAt d' c = blockAt d c) :
    viewOf sb d' = { viewOf sb d with inodeBit := (viewOf sb d').inodeBit } := by
  have ht := h.valid.table_ge
  have hd := h.valid.table_lt
  ext1
  · rfl
  · funext b
    simp only [viewOf, hsame (3 + b / 32768) (by omega)]
  · funext n
    simp only [viewOf, hsame (sb.inodeTableBlock + n / 16) (by omega)]
  · funext b
    simp only [viewOf]
    split
    · rw [hsame b (by omega)]
    · rfl

theorem viewOf_put_superblock (hx : x.length = 4096) :
    viewOf sb (putBlock d 1 x) = viewOf sb d := by
  have hi := h.inside (b := 1) (by have := h.valid.total_ge; omega)
  have hput : ∀ c, c ≠ 1 → blockAt (putBlock d 1 x) c = blockAt d c :=
    fun c hc => blockAt_putBlock_of_ne hi hx hc
  rw [viewOf_eq h fun c hc => hput c (by omega)]
  simp only [viewOf, hput 2 (by decide)]

theorem viewOf_put_inodeBitmap (hx : x.length = 4096) :
    viewOf sb (putBlock d 2 x) = { viewOf sb d with inodeBit := bit x } := by
  have hi := h.inside (b := 2) (by have := h.valid.total_ge; omega)
  rw [viewOf_eq h fun c hc => blockAt_putBlock_of_ne hi hx (by omega)]
  simp only [viewOf, blockAt_putBlock_self hi hx]

theorem viewOf_put_blockBitmap (hb : b < sb.totalBlocks) (v : Bool) :
    viewOf sb (putBlock d (3 + b / 32768)
      (setBit (blockAt d (3 + b / 32768)) (b % 32768) v)) =
      { viewOf sb d with blockBit := update (viewOf sb d).blockBit b v } := by
  have ht := h.valid.table_eq
  have htd := h.valid.table_lt
  have hdt := h.valid.data_lt
  have hi := h.inside (b := 3 + b / 32768) (by omega)
  have hlen := length_blockAt hi
  have hx : (setBit (blockAt d (3 + b / 32768)) (b % 32768) v).length = 4096 := by
    rw [length_setBit, hlen]
  have hput : ∀ c, c ≠ 3 + b / 32768 → blockAt (putBlock d (3 + b / 32768)
      (setBit (blockAt d (3 + b / 32768)) (b % 32768) v)) c = blockAt d c :=
    fun c hc => blockAt_putBlock_of_ne hi hx hc
  ext1
  · simp only [viewOf, hput 2 (by omega)]
  · funext c
    simp only [viewOf, update_apply]
    by_cases hc : c / 32768 = b / 32768
    · rw [hc, blockAt_putBlock_self hi hx, bit_setBit (by omega)]
      by_cases hcb : c = b
      · rw [if_pos hcb, if_pos (by omega), if_pos (by omega)]
      · rw [if_neg hcb, if_neg (show ¬b % 32768 = c % 32768 by omega)]
    · rw [hput (3 + c / 32768) (by omega), if_neg (show ¬c = b by rintro rfl; exact hc rfl)]
  · funext n
    simp only [viewOf, hput (sb.inodeTableBlock + n / 16) (by omega)]
  · funext c
    simp only [viewOf]
    split
    · rw [hput c (by omega)]
    · rfl

theorem viewOf_put_slot (hn : n < sb.slots) (hx : x.length = 256) :
    viewOf sb (putBlock d (sb.inodeTableBlock + n / 16)
      (splice (blockAt d (sb.inodeTableBlock + n / 16)) (256 * (n % 16)) x)) =
      { viewOf sb d with slot := update (viewOf sb d).slot n (Inode.decode x) } := by
  have ht := h.valid.table_ge
  have hdt := h.valid.data_lt
  have hin : sb.inodeTableBlock + n / 16 < sb.dataStartBlock := by
    simp only [Superblock.slots] at hn
    omega
  have hi := h.inside (b := sb.inodeTableBlock + n / 16) (by omega)
  have hlen := length_blockAt hi
  have hfit : 256 * (n % 16) + x.length ≤
      (blockAt d (sb.inodeTableBlock + n / 16)).length := by omega
  have hy := length_splice hfit
  rw [hlen] at hy
  have hput : ∀ c, c ≠ sb.inodeTableBlock + n / 16 →
      blockAt (putBlock d (sb.inodeTableBlock + n / 16)
        (splice (blockAt d (sb.inodeTableBlock + n / 16)) (256 * (n % 16)) x)) c = blockAt d c :=
    fun c hc => blockAt_putBlock_of_ne hi hy hc
  ext1
  · simp only [viewOf, hput 2 (by omega)]
  · funext c
    simp only [viewOf]
    split
    · rw [hput (3 + c / 32768) (by omega)]
    · rfl
  · funext m
    simp only [viewOf, update_apply]
    by_cases hm : m / 16 = n / 16
    · rw [hm, blockAt_putBlock_self hi hy]
      by_cases hmn : m = n
      · have hself := slice_splice_self hfit
        rw [hx] at hself
        rw [if_pos hmn, if_pos (by omega), hmn, hself]
      · rw [if_neg hmn, slice_splice_of_disjoint hfit (by omega)]
    · rw [hput (sb.inodeTableBlock + m / 16) (by omega),
        if_neg (show ¬m = n by rintro rfl; exact hm rfl)]
  · funext c
    simp only [viewOf]
    split
    · rw [hput c (by omega)]
    · rfl

theorem viewOf_put_data (hlo : sb.dataStartBlock ≤ b) (hhi : b < sb.totalBlocks)
    (hx : x.length = 4096) :
    viewOf sb (putBlock d b x) = { viewOf sb d with data := update (viewOf sb d).data b x } := by
  have ht := h.valid.table_ge
  have htd := h.valid.table_lt
  have hi := h.inside hhi
  have hput : ∀ c, c ≠ b → blockAt (putBlock d b x) c = blockAt d c :=
    fun c hc => blockAt_putBlock_of_ne hi hx hc
  ext1
  · simp only [viewOf, hput 2 (by omega)]
  · funext c
    simp only [viewOf]
    split
    · rw [hput (3 + c / 32768) (by omega)]
    · rfl
  · funext n
    simp only [viewOf]
    split
    · rename_i hn
      simp only [Superblock.slots] at hn
      rw [hput (sb.inodeTableBlock + n / 16) (by omega)]
    · rfl
  · funext c
    simp only [viewOf, update_apply]
    by_cases hc : c = b
    · rw [if_pos hc, hc, if_pos ⟨hlo, hhi⟩, blockAt_putBlock_self hi hx]
    · rw [if_neg hc, hput c hc]

end NexOs.Nexfs
