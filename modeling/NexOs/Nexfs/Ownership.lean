import Mathlib.Order.Interval.Finset.Nat
import NexOs.Lib.Chunks
import NexOs.Nexfs.Mounted

/-! The blocks an inode owns, and what an operation on the data of one inode
may do to the volume: it takes free blocks, gives some back, and changes no
block that belongs to anyone else. -/
namespace NexOs.Nexfs
open List Bytes Storage Function

namespace View

/-- The `i`-th of the 524 block pointers of an inode. -/
def pointer (V : View) (I : Inode) (i : Nat) : Nat :=
  if h : i < 12 then I.directBlocks[i] else le (V.data I.indirectBlock) (8 * (i - 12)) 8

def blocks (V : View) (I : Inode) : List Nat := (List.range I.blockCount).map (V.pointer I)

def owned (V : View) (I : Inode) : List Nat :=
  V.blocks I ++ if I.blockCount ≤ 12 ∧ I.indirectBlock = 0 then [] else [I.indirectBlock]

def fileBytes (V : View) (I : Inode) : List UInt8 := (V.blocks I).flatMap V.data

def content (V : View) (I : Inode) : List UInt8 := (V.fileBytes I).take I.size

def freeBlocks (sb : Superblock) (V : View) : Finset Nat :=
  (Finset.Ico sb.dataStartBlock sb.totalBlocks).filter fun b => V.blockBit b = false

end View

def Superblock.InData (sb : Superblock) (b : Nat) : Prop :=
  sb.dataStartBlock ≤ b ∧ b < sb.totalBlocks

variable {sb : Superblock}

section
variable {V V' : View} {I I' : Inode} {b i : Nat}

theorem View.mem_freeBlocks : b ∈ V.freeBlocks sb ↔ sb.InData b ∧ V.blockBit b = false := by
  rw [View.freeBlocks, Finset.mem_filter, Finset.mem_Ico]
  rfl

theorem View.pointer_congr (hd : I'.directBlocks = I.directBlocks)
    (hi : V'.data I'.indirectBlock = V.data I.indirectBlock) : V'.pointer I' = V.pointer I := by
  funext i
  simp only [View.pointer, hd, hi]

theorem View.mem_blocks : b ∈ V.blocks I ↔ ∃ i < I.blockCount, V.pointer I i = b := by
  simp only [View.blocks, mem_map, mem_range]

@[simp] theorem View.length_blocks : (V.blocks I).length = I.blockCount := by
  simp [View.blocks]

theorem View.getElem?_blocks (h : i < I.blockCount) : (V.blocks I)[i]? = some (V.pointer I i) := by
  simp [View.blocks, h]

theorem View.mem_owned : b ∈ V.owned I ↔ (∃ i < I.blockCount, V.pointer I i = b) ∨
    (¬(I.blockCount ≤ 12 ∧ I.indirectBlock = 0) ∧ b = I.indirectBlock) := by
  rw [View.owned, mem_append, View.mem_blocks]
  split <;> simp_all

theorem View.pointer_mem_owned (h : i < I.blockCount) : V.pointer I i ∈ V.owned I :=
  View.mem_owned.mpr (.inl ⟨i, h, rfl⟩)

theorem View.nodup_owned : (V.owned I).Nodup ↔
    (∀ i < I.blockCount, ∀ j < I.blockCount, V.pointer I i = V.pointer I j → i = j) ∧
    (¬(I.blockCount ≤ 12 ∧ I.indirectBlock = 0) →
      ∀ i < I.blockCount, V.pointer I i ≠ I.indirectBlock) := by
  have hblocks : (V.blocks I).Nodup ↔
      ∀ i < I.blockCount, ∀ j < I.blockCount, V.pointer I i = V.pointer I j → i = j := by
    rw [View.blocks, nodup_map_iff_inj_on nodup_range]
    simp only [mem_range]
  rw [View.owned, nodup_append, hblocks]
  split
  · rename_i h
    simp [h]
  · rename_i h
    simp only [h, not_false_eq_true, forall_const, nodup_singleton, true_and,
      mem_singleton, View.mem_blocks]
    constructor
    · rintro ⟨hinj, hne⟩
      exact ⟨hinj, fun i hi => hne _ ⟨i, hi, rfl⟩ _ rfl⟩
    · rintro ⟨hinj, hne⟩
      refine ⟨hinj, ?_⟩
      rintro _ ⟨i, hi, rfl⟩ _ rfl
      exact hne i hi

end

/-- How many blocks `n` data blocks take, the indirect block included. -/
def footprint (n : Nat) : Nat := n + if 12 < n then 1 else 0

theorem footprint_mono (h : n ≤ m) : footprint n ≤ footprint m := by
  unfold footprint
  split <;> split <;> omega

/-- An indirect block is kept only while it is needed. -/
def Tight (I : Inode) : Prop := I.blockCount ≤ 12 → I.indirectBlock = 0

theorem View.length_owned {V : View} {I : Inode} (h : Tight I) :
    (V.owned I).length = footprint I.blockCount := by
  rw [View.owned, length_append, View.length_blocks, footprint]
  by_cases hc : I.blockCount ≤ 12
  · rw [if_pos ⟨hc, h hc⟩, if_neg (by omega)]
    rfl
  · rw [if_neg (fun hn => hc hn.1), if_pos (by omega)]
    rfl

/-- An inode whose pointers are in order: its blocks are data blocks, each
marked in the bitmap and used once, and the pointers it does not use are zero. -/
structure Intact (sb : Superblock) (V : View) (I : Inode) : Prop where
  fits : I.Fits
  count_le : I.blockCount ≤ 524
  unused : ∀ i, I.blockCount ≤ i → i < 524 → V.pointer I i = 0
  range : ∀ b ∈ V.owned I, sb.InData b
  nodup : (V.owned I).Nodup
  bits : ∀ b ∈ V.owned I, V.blockBit b = true

/-- Data blocks are whole, and nothing else counts as data. -/
structure Sized (sb : Superblock) (V : View) : Prop where
  data_pos : 0 < sb.dataStartBlock
  total_lt : sb.totalBlocks < 2 ^ 64
  inside : ∀ b, sb.InData b → (V.data b).length = 4096
  outside : ∀ b, ¬sb.InData b → V.data b = []

theorem Ready.sized (h : Ready d sb) : Sized sb (viewOf sb d) where
  data_pos := by
    have := h.valid.table_lt
    omega
  total_lt := by
    have := h.total_lt
    omega
  inside b hb := by
    simp only [viewOf]
    rw [if_pos (show _ ∧ _ from hb)]
    exact h.length_blockAt hb.2
  outside b hb := by
    exact if_neg hb

theorem Mounted.sized (h : Mounted fs) : Sized fs.superblock fs.view :=
  h.toReady.sized

section
variable {V : View} {I : Inode} {i : Nat}

theorem Intact.pointer_range (h : Intact sb V I) (hi : i < I.blockCount) :
    sb.InData (V.pointer I i) :=
  h.range _ (View.pointer_mem_owned hi)

theorem Intact.indirect_mem (hc : 12 < I.blockCount ∨ I.indirectBlock ≠ 0) :
    I.indirectBlock ∈ V.owned I := by
  refine View.mem_owned.mpr (.inr ⟨?_, rfl⟩)
  rintro ⟨h1, h2⟩
  omega

variable (h : Intact sb V I)
include h

theorem Intact.pointer_ne_indirect (hi : i < I.blockCount)
    (hc : 12 < I.blockCount ∨ I.indirectBlock ≠ 0) : V.pointer I i ≠ I.indirectBlock := by
  refine (View.nodup_owned.mp h.nodup).2 ?_ i hi
  rintro ⟨h1, h2⟩
  omega

variable (hs : Sized sb V)
include hs

theorem Intact.indirect_ne_zero (hc : 12 < I.blockCount) : I.indirectBlock ≠ 0 := by
  have hr := (h.range _ (Intact.indirect_mem (.inl hc))).1
  have hp := hs.data_pos
  omega

theorem Intact.pointer_ne_zero (hi : i < I.blockCount) : V.pointer I i ≠ 0 := by
  have hr := (h.pointer_range hi).1
  have hp := hs.data_pos
  omega

theorem Intact.data_length : ∀ b ∈ V.blocks I, (V.data b).length = 4096 := by
  intro b hb
  exact hs.inside b (h.range b (mem_append_left _ hb))

theorem Intact.length_fileBytes : (V.fileBytes I).length = 4096 * I.blockCount := by
  rw [View.fileBytes, length_flatMap_chunks (h.data_length hs), View.length_blocks]

theorem Intact.slice_fileBytes (hi : i < I.blockCount) :
    slice (V.fileBytes I) (4096 * i) 4096 = V.data (V.pointer I i) :=
  slice_flatMap_chunks (h.data_length hs) (View.getElem?_blocks hi)

end

/-- What an operation on the data of `I` may do: the volume `V` becomes `V'`
and the inode, in memory, becomes `I'`. -/
structure Edit (sb : Superblock) (V : View) (I : Inode) (V' : View) (I' : Inode) : Prop where
  before : Intact sb V I
  after : Intact sb V' I'
  slot : V'.slot = V.slot
  inodeBit : V'.inodeBit = V.inodeBit
  fresh : ∀ b ∈ V'.owned I', b ∈ V.owned I ∨ V.blockBit b = false
  lost : ∀ b ∈ V.owned I, b ∉ V'.owned I' → V'.blockBit b = false
  bits : ∀ b, b ∉ V.owned I → b ∉ V'.owned I' → V'.blockBit b = V.blockBit b
  data : ∀ b, b ∉ V.owned I → (sb.InData b → V.blockBit b = true) → V'.data b = V.data b

namespace Edit
variable {V V' V'' : View} {I I' I'' J : Inode}

theorem refl (h : Intact sb V I) : Edit sb V I V I where
  before := h
  after := h
  slot := rfl
  inodeBit := rfl
  fresh _ hb := .inl hb
  lost _ hb hn := absurd hb hn
  bits _ _ _ := rfl
  data _ _ _ := rfl

variable (h : Edit sb V I V' I')
include h

theorem trans (h' : Edit sb V' I' V'' I'') : Edit sb V I V'' I'' where
  before := h.before
  after := h'.after
  slot := h'.slot.trans h.slot
  inodeBit := h'.inodeBit.trans h.inodeBit
  fresh b hb := by
    by_cases hI : b ∈ V.owned I
    · exact .inl hI
    rcases h'.fresh b hb with hb' | hb'
    · exact h.fresh b hb'
    · have hn : b ∉ V'.owned I' := fun hm => by simp [h.after.bits b hm] at hb'
      exact .inr ((h.bits b hI hn).symm.trans hb')
  lost b hb hn := by
    by_cases hm : b ∈ V'.owned I'
    · exact h'.lost b hm hn
    · rw [h'.bits b hm hn]
      exact h.lost b hb hm
  bits b hb hn := by
    by_cases hm : b ∈ V'.owned I'
    · rw [h'.lost b hm hn, (h.fresh b hm).resolve_left hb]
    · rw [h'.bits b hm hn, h.bits b hb hm]
  data b hb ha := by
    have hm : b ∉ V'.owned I' := by
      intro hm
      have hf := (h.fresh b hm).resolve_left hb
      rw [ha (h.after.range b hm)] at hf
      cases hf
    rw [h'.data b hm fun hr => (h.bits b hb hm).trans (ha hr), h.data b hb ha]

theorem pointer_other (hs : Sized sb V) (hJ : Intact sb V J) (hd : ∀ b ∈ V.owned J, b ∉ V.owned I) :
    V'.pointer J = V.pointer J := by
  refine View.pointer_congr rfl (h.data _ ?_ ?_)
  · intro hI
    by_cases hc : 12 < J.blockCount ∨ J.indirectBlock ≠ 0
    · exact hd _ (Intact.indirect_mem hc) hI
    · have hr := (h.before.range _ hI).1
      have hp := hs.data_pos
      omega
  · intro hr
    refine hJ.bits _ (Intact.indirect_mem (.inr ?_))
    have hp := hs.data_pos
    have := hr.1
    omega

theorem owned_other (hs : Sized sb V) (hJ : Intact sb V J) (hd : ∀ b ∈ V.owned J, b ∉ V.owned I) :
    V'.owned J = V.owned J := by
  simp only [View.owned, View.blocks, h.pointer_other hs hJ hd]

theorem fileBytes_other (hs : Sized sb V) (hJ : Intact sb V J) (hd : ∀ b ∈ V.owned J, b ∉ V.owned I) :
    V'.fileBytes J = V.fileBytes J := by
  simp only [View.fileBytes, View.blocks, h.pointer_other hs hJ hd]
  refine flatMap_congr fun b hb => h.data b ?_ ?_
  · exact hd b (mem_append_left _ hb)
  · exact fun _ => hJ.bits b (mem_append_left _ hb)

theorem intact_other (hs : Sized sb V) (hJ : Intact sb V J) (hd : ∀ b ∈ V.owned J, b ∉ V.owned I) :
    Intact sb V' J := by
  have howned := h.owned_other hs hJ hd
  refine ⟨hJ.fits, hJ.count_le, ?_, ?_, ?_, ?_⟩
  · rw [h.pointer_other hs hJ hd]
    exact hJ.unused
  · rw [howned]
    exact hJ.range
  · rw [howned]
    exact hJ.nodup
  · intro b hb
    rw [howned] at hb
    have hn : b ∉ V'.owned I' := by
      intro hm
      have hf := (h.fresh b hm).resolve_left (hd b hb)
      rw [hJ.bits b hb] at hf
      cases hf
    rw [h.bits b (hd b hb) hn]
    exact hJ.bits b hb

/-- Blocks are neither made nor lost: what the inode gains comes from the free
blocks, and what it gives up goes back to them. -/
theorem free_add :
    (V'.freeBlocks sb).card + (V'.owned I').length =
      (V.freeBlocks sb).card + (V.owned I).length := by
  have hunion : ∀ {W : View} {K : Inode}, Intact sb W K →
      (W.freeBlocks sb).card + (W.owned K).length =
        (W.freeBlocks sb ∪ (W.owned K).toFinset).card := by
    intro W K hK
    rw [Finset.card_union_of_disjoint, toFinset_card_of_nodup hK.nodup]
    rw [Finset.disjoint_left]
    intro b hf hb
    have hbit := hK.bits b (mem_toFinset.mp hb)
    rw [(View.mem_freeBlocks.mp hf).2] at hbit
    cases hbit
  rw [hunion h.after, hunion h.before]
  congr 1
  ext b
  simp only [Finset.mem_union, View.mem_freeBlocks]
  by_cases hI : b ∈ V.owned I
  · have hr := h.before.range b hI
    by_cases hI' : b ∈ V'.owned I'
    · simp [hI, hI']
    · simp [hI, hr, h.lost b hI hI']
  · by_cases hI' : b ∈ V'.owned I'
    · have hr := h.after.range b hI'
      simp [hI', hr, (h.fresh b hI').resolve_left hI]
    · simp [hI, hI', h.bits b hI hI']

end Edit

end NexOs.Nexfs
