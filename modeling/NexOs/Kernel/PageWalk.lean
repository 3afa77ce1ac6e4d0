import NexOs.Kernel.PageTree

/-! The page walk of the processor, and when `translate` agrees with it. Levels are counted from
the tables of 4 KiB pages upwards, and tables are given by the number of their frame. -/
namespace NexOs.Kernel.PageWalk
open Bytes Align

/-- The address bits below this one are the offset in a page of the level. -/
def shift (level : Nat) : Nat := 12 + 9 * level

/-- A present entry is a leaf at the lowest level, and with the page size bit at the next two. -/
def IsLeaf (level entry : Nat) : Prop :=
  level = 0 ∨ (level = 1 ∨ level = 2) ∧ entry / 2 ^ 7 % 2 = 1

instance (level entry : Nat) : Decidable (IsLeaf level entry) := inferInstanceAs (Decidable (_ ∨ _))

/-- Bits 51 to 12. -/
def frameOf (entry : Nat) : Nat := entry / 2 ^ 12 % 2 ^ 40

/-- The bits of the leaf from the offset up to bit 51, and the offset in the page. -/
def physicalAddress (virtualAddress : Nat) (leaf : Nat × Nat) : Nat :=
  leaf.2 / 2 ^ shift leaf.1 % 2 ^ (52 - shift leaf.1) * 2 ^ shift leaf.1 +
    virtualAddress % 2 ^ shift leaf.1

/-- The tables below a root, with their levels. -/
inductive Table (word : Nat → Nat) (root : Nat) : Nat → Nat → Prop where
  | root : Table word root 3 root
  | child {level table index : Nat} (above : Table word root (level + 1) table) (hindex : index < 512)
      (hpresent : word (table * 4096 + index * 8) % 2 = 1)
      (hleaf : ¬IsLeaf (level + 1) (word (table * 4096 + index * 8))) :
      Table word root level (frameOf (word (table * 4096 + index * 8)))

/-- The reserved bits of an entry are clear: those above the physical memory, and in a large page
those between its offset and bit 12, which selects its memory type. -/
structure Clear (frames level entry : Nat) : Prop where
  frame : frameOf entry < frames
  large : IsLeaf level entry → entry / 2 ^ 13 % 2 ^ (shift level - 13) = 0

def physical (info : PagingInfo) (memory : Nat → Nat) (address : Nat) : Nat :=
  memory (info.hhdmOffset + address)

/-- Page tables in physical memory that the direct map reaches. -/
structure Tables (info : PagingInfo) (memory : Nat → Nat) (frames root : Nat) : Prop where
  mapped : info.hhdmOffset + frames * 4096 ≤ 2 ^ 64
  level4 : info.level4Frame = root * 4096
  root_lt : root < frames
  clear : ∀ level table index, Table (physical info memory) root level table →
    index < 512 → physical info memory (table * 4096 + index * 8) % 2 = 1 →
    Clear frames level (physical info memory (table * 4096 + index * 8))

variable {info : PagingInfo} {memory : Nat → Nat}
  {frames root level table entry virtualAddress : Nat}

theorem index_eq (level : Nat) :
    virtualAddress >>> shift level &&& 0x1ff = virtualAddress / 2 ^ shift level % 512 := by
  rw [Nat.shiftRight_eq_div_pow]
  exact Nat.and_two_pow_sub_one_eq_mod _ 9

theorem Tables.readEntry_eq (h : Tables info memory frames root) (htable : table < frames)
    {index : Nat} (hindex : index < 512) : info.readEntry memory (table * 4096) index =
      some (physical info memory (table * 4096 + index * 8)) := by
  have hmapped := h.mapped
  rw [PagingInfo.readEntry_eq, if_pos (by omega), Nat.add_assoc, physical]

end NexOs.Kernel.PageWalk
