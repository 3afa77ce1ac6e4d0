import NexOs.Nexfs.Grow

/-! Looking up and releasing the data blocks of an inode. -/
namespace NexOs.Nexfs
open List hiding Vector
open Bytes Storage Function Exec

/-- What releasing the last block does to the pointers and to the bitmap. -/
structure Removes (sb : Superblock) (V : View) (I : Inode) (V' : View) (I' : Inode) : Prop where
  slot : V'.slot = V.slot
  inodeBit : V'.inodeBit = V.inodeBit
  fits : I'.Fits
  count : I.blockCount = I'.blockCount + 1
  indirect : I'.indirectBlock = I.indirectBlock
  pointer : ∀ i < 524, V'.pointer I' i = if i = I'.blockCount then 0 else V.pointer I i
  bits : V'.blockBit = update V.blockBit (V.pointer I I'.blockCount) false
  data : ∀ c, c ≠ I.indirectBlock → V'.data c = V.data c

section
variable {sb : Superblock} {V V' : View} {I I' : Inode}

variable (h : Removes sb V I V' I') (hI : Intact sb V I) (hs : Sized sb V)
include h hI hs

theorem Removes.mem_owned : c ∈ V'.owned I' ↔ c ∈ V.owned I ∧ c ≠ V.pointer I I'.blockCount := by
  have hcount := h.count
  have hle := hI.count_le
  have hlast : I'.blockCount < I.blockCount := by omega
  have hz : I.indirectBlock = 0 → I.blockCount ≤ 12 := by
    intro hz
    by_contra hgt
    exact hI.indirect_ne_zero hs (by omega) hz
  have hind : (I'.blockCount ≤ 12 ∧ I'.indirectBlock = 0) ↔
      (I.blockCount ≤ 12 ∧ I.indirectBlock = 0) := by
    rw [h.indirect]
    exact ⟨fun hc => ⟨hz hc.2, hc.2⟩, fun hc => ⟨by omega, hc.2⟩⟩
  have hp : ∀ i < I'.blockCount, V'.pointer I' i = V.pointer I i := by
    intro i hi
    rw [h.pointer i (by omega), if_neg (by omega)]
  rw [View.mem_owned, View.mem_owned, hind, h.indirect]
  constructor
  · rintro (⟨i, hi, rfl⟩ | ⟨hc, rfl⟩)
    · refine ⟨.inl ⟨i, by omega, (hp i hi).symm⟩, fun he => ?_⟩
      rw [hp i hi] at he
      have := (View.nodup_owned.mp hI.nodup).1 i (by omega) _ hlast he
      omega
    · exact ⟨.inr ⟨hc, rfl⟩, ((View.nodup_owned.mp hI.nodup).2 hc _ hlast).symm⟩
  · rintro ⟨⟨i, hi, rfl⟩ | hc, hne⟩
    · have hi' : i < I'.blockCount := by
        by_contra hge
        exact hne (by rw [show i = I'.blockCount by omega])
      exact .inl ⟨i, hi', hp i hi'⟩
    · exact .inr hc

theorem Removes.intact : Intact sb V' I' := by
  have hcount := h.count
  have hle := hI.count_le
  refine ⟨h.fits, by omega, ?_, ?_, ?_, ?_⟩
  · intro i hi hlt
    rw [h.pointer i hlt]
    split
    · rfl
    · exact hI.unused i (by omega) hlt
  · intro c hc
    exact hI.range c ((h.mem_owned hI hs).mp hc).1
  · rw [View.nodup_owned]
    have hnd := View.nodup_owned.mp hI.nodup
    constructor
    · intro i hi j hj hp
      rw [h.pointer i (by omega), h.pointer j (by omega), if_neg (by omega),
        if_neg (by omega)] at hp
      exact hnd.1 i (by omega) j (by omega) hp
    · intro hc i hi
      rw [h.pointer i (by omega), if_neg (by omega), h.indirect]
      refine hnd.2 ?_ i (by omega)
      rw [h.indirect] at hc
      omega
  · intro c hc
    obtain ⟨hc, hne⟩ := (h.mem_owned hI hs).mp hc
    rw [h.bits, update_of_ne hne]
    exact hI.bits c hc

theorem Removes.edit (hs' : Sized sb V') : Edit sb V I V' I' where
  before := hI
  after := h.intact hI hs
  slot := h.slot
  inodeBit := h.inodeBit
  fresh c hc := .inl ((h.mem_owned hI hs).mp hc).1
  lost c hc hn := by
    have he : c = V.pointer I I'.blockCount := by
      by_contra hne
      exact hn ((h.mem_owned hI hs).mpr ⟨hc, hne⟩)
    rw [h.bits, he, update_self]
  bits c hc _ := by
    rw [h.bits, update_of_ne]
    rintro rfl
    exact hc (View.pointer_mem_owned (by rw [h.count]; omega))
  data c hc _ := by
    by_cases hr : sb.InData c
    · refine h.data c ?_
      rintro rfl
      exact hc (Intact.indirect_mem (.inr (hs.ne_zero hr)))
    · rw [hs.outside c hr, hs'.outside c hr]

theorem Removes.fileBytes : V'.fileBytes I' = (V.fileBytes I).take (4096 * I'.blockCount) := by
  have hcount := h.count
  have hle := hI.count_le
  have hblocks : V'.blocks I' = (range I'.blockCount).map (V.pointer I) := by
    refine map_congr_left fun i hi => ?_
    have hi := mem_range.mp hi
    rw [h.pointer i (by omega), if_neg (by omega)]
  have hsplit : V.blocks I = V'.blocks I' ++ [V.pointer I I'.blockCount] := by
    rw [hblocks, View.blocks, hcount, range_succ, map_append]
    rfl
  have hdata : (V'.blocks I').flatMap V'.data = (V'.blocks I').flatMap V.data := by
    refine flatMap_congr fun c hc => h.data c ?_
    rw [hblocks] at hc
    obtain ⟨i, hi, rfl⟩ := mem_map.mp hc
    have hi := mem_range.mp hi
    intro he
    have hz := hI.pointer_ne_zero hs (show i < I.blockCount by omega)
    exact hI.pointer_ne_indirect (by omega) (.inr (by omega)) he
  have hlen : ((V'.blocks I').flatMap V.data).length = 4096 * I'.blockCount := by
    rw [length_flatMap_chunks, View.length_blocks]
    intro c hc
    refine hI.data_length hs c ?_
    rw [hsplit]
    exact mem_append_left _ hc
  rw [View.fileBytes, hdata, View.fileBytes, hsplit, flatMap_append, take_left' hlen]

end

/-- The inode keeps its first data blocks, and nothing else changed. -/
structure Cuts (fs : NexFs) (I : Inode) (fs' : NexFs) (I' : Inode) : Prop where
  writes : Writes fs fs' fs'.view
  edit : Edit fs.superblock fs.view I fs'.view I'
  record : SameRecord I I'
  count : I'.blockCount ≤ I.blockCount
  bytes : fs'.view.fileBytes I' = (fs.view.fileBytes I).take (4096 * I'.blockCount)

section
variable {fs fs' fs'' : NexFs} {I I' I'' : Inode}

theorem Cuts.refl (h : Mounted fs) (hI : Intact fs.superblock fs.view I) : Cuts fs I fs I where
  writes := .refl h
  edit := .refl hI
  record := .refl I
  count := le_rfl
  bytes := by rw [take_of_length_le (hI.length_fileBytes h.sized).le]

theorem Cuts.trans (h : Cuts fs I fs' I') (h' : Cuts fs' I' fs'' I'') : Cuts fs I fs'' I'' where
  writes := h.writes.trans h'.writes
  edit := h.edit.trans (h.writes.superblock ▸ h'.edit)
  record := h.record.trans h'.record
  count := h'.count.trans h.count
  bytes := by
    have := h'.count
    rw [h'.bytes, h.bytes, take_take, Nat.min_eq_left (by omega)]

end

namespace NexFs
variable {fs : NexFs} {I : Inode} {i : Nat}

variable (h : Mounted fs) (hI : Intact fs.superblock fs.view I)
include h hI

theorem dataBlock_run (hi : i < I.blockCount) :
    dataBlock I i fs = (.ok (some (fs.view.pointer I i)), fs) := by
  have hs := h.sized
  have hle := hI.count_le
  have hne := hI.pointer_ne_zero hs hi
  unfold dataBlock
  rw [if_neg (by omega)]
  by_cases h12 : i < 12
  · rw [View.pointer_direct h12] at hne ⊢
    simp only [h12, ↓reduceDIte]
    rw [ensure_bind_pos hne]
    rfl
  · have hmem : I.indirectBlock ∈ fs.view.owned I := Intact.indirect_mem (.inl (by omega))
    have hr := hI.range _ hmem
    have hlen := hs.inside _ hr
    rw [View.pointer_indirect (by omega)] at hne ⊢
    simp only [h12, ↓reduceDIte, directBlocks, indirectPointers, blockSize]
    rw [ensure_bind_pos (hs.ne_zero hr), ensure_bind_pos (by omega),
      bind_of_ok (readData_run h hr.1 hr.2), Nat.mul_comm, getU64, getLe_eq (by omega),
      lift_ok_bind, ensure_bind_pos hne]
    rfl

theorem Removes.cuts (hw : Writes fs fs' fs'.view)
    (hr : Removes fs.superblock fs.view I fs'.view I') (hrec : SameRecord I I') :
    Cuts fs I fs' I' := by
  have hs' : Sized fs.superblock fs'.view := hw.superblock ▸ (hw.steps.mounted h).sized
  exact ⟨hw, hr.edit hI h.sized hs', hrec, by have := hr.count; omega, hr.fileBytes hI h.sized⟩

theorem dropBlock_direct (hpos : 0 < I.blockCount) (h12 : I.blockCount - 1 < 12) :
    ∃ I' fs', dropBlock I fs = (.ok I', fs') ∧ Cuts fs I fs' I' ∧
      I.blockCount = I'.blockCount + 1 := by
  have hr := hI.pointer_range (show I.blockCount - 1 < I.blockCount by omega)
  obtain ⟨fs₁, hrun₁, hw₁⟩ := setBlockAllocated_run h hr.1 hr.2
  have hrem : Removes fs.superblock fs.view I fs₁.view
      { I with directBlocks := I.directBlocks.set (I.blockCount - 1) 0,
               blockCount := I.blockCount - 1 } := by
    refine ⟨by rw [hw₁.view], by rw [hw₁.view], ?_, (Nat.sub_add_cancel hpos).symm, rfl, ?_,
      by rw [hw₁.view], fun c _ => by rw [hw₁.view]⟩
    · refine { hI.fits with directBlocks := ?_, blockCount := ?_ }
      · intro c hc
        have hset : c ∈ I.directBlocks.set (I.blockCount - 1) 0 h12 := hc
        rcases Vector.mem_or_eq_of_mem_set hset with hc | rfl
        · exact hI.fits.directBlocks c hc
        · decide
      · simp only
        omega
    · intro i _
      by_cases hi : i < 12
      · rw [View.pointer_direct hi, View.pointer_direct hi, Vector.getElem_set]
        simp only [eq_comm]
      · rw [View.pointer_indirect (by omega), View.pointer_indirect (by omega),
          if_neg (by simp only; omega), hw₁.view]
  refine ⟨_, fs₁, ?_, Removes.cuts h hI ⟨hw₁.steps, hw₁.superblock, rfl⟩ hrem
    ⟨rfl, rfl, rfl, rfl, rfl, rfl⟩, hrem.count⟩
  unfold dropBlock
  rw [bind_of_ok (dataBlock_run h hI (by omega)), okOr_some, pure_bind_run, bind_of_ok hrun₁]
  simp only [h12]
  rfl

theorem dropBlock_indirect (h12 : ¬I.blockCount - 1 < 12) :
    ∃ I' fs', dropBlock I fs = (.ok I', fs') ∧ Cuts fs I fs' I' ∧
      I.blockCount = I'.blockCount + 1 := by
  have hle := hI.count_le
  have hr := hI.pointer_range (show I.blockCount - 1 < I.blockCount by omega)
  have hrk := hI.range _ (Intact.indirect_mem (.inl (show 12 < I.blockCount by omega)))
  have hlen := h.sized.inside _ hrk
  obtain ⟨fs₁, hrun₁, hw₁⟩ := setBlockAllocated_run h hr.1 hr.2
  have hm₁ := hw₁.steps.mounted h
  have hrk₁ : fs₁.superblock.InData I.indirectBlock := by rwa [hw₁.superblock]
  have hlen₁ : (fs₁.view.data I.indirectBlock).length = 4096 := by rw [hw₁.view, hlen]
  have hfit : 8 * (I.blockCount - 1 - 12) + (leBytes 8 0).length ≤
      (fs₁.view.data I.indirectBlock).length := by
    rw [length_leBytes]
    omega
  obtain ⟨fs₂, hrun₂, hw₂⟩ := writeData_run hm₁ hrk₁.1 hrk₁.2 ((length_splice hfit).trans hlen₁)
  have hdata : fs₂.view.data = update fs.view.data I.indirectBlock
      (splice (fs.view.data I.indirectBlock) (8 * (I.blockCount - 1 - 12)) (leBytes 8 0)) := by
    rw [hw₂.view, hw₁.view]
  have hrem : Removes fs.superblock fs.view I fs₂.view
      { I with blockCount := I.blockCount - 1 } := by
    refine ⟨by rw [hw₂.view, hw₁.view], by rw [hw₂.view, hw₁.view], ?_,
      (Nat.sub_add_cancel (by omega)).symm, rfl, ?_, by rw [hw₂.view, hw₁.view], ?_⟩
    · refine { hI.fits with blockCount := ?_ }
      simp only
      omega
    · intro i _
      by_cases hi : i < 12
      · rw [View.pointer_direct hi, View.pointer_direct hi, if_neg (by simp only; omega)]
      · rw [View.pointer_indirect (by omega), View.pointer_indirect (by omega), hdata,
          update_self, le_splice_pointer hlen (by omega) (by omega) (by decide) (by omega)]
    · intro c hc
      rw [hdata, update_of_ne hc]
  refine ⟨_, fs₂, ?_, Removes.cuts h hI ⟨(hw₁.trans hw₂).steps, (hw₁.trans hw₂).superblock, rfl⟩
    hrem ⟨rfl, rfl, rfl, rfl, rfl, rfl⟩, hrem.count⟩
  unfold dropBlock
  rw [bind_of_ok (dataBlock_run h hI (by omega)), okOr_some, pure_bind_run, bind_of_ok hrun₁]
  simp only [h12, ↓reduceDIte]
  rw [bind_of_ok (readData_run hm₁ hrk₁.1 hrk₁.2), Nat.mul_comm,
    show replicate 8 (0 : UInt8) = leBytes 8 0 from rfl, copyInto_eq hfit, lift_ok_bind,
    bind_of_ok hrun₂]
  rfl

theorem dropBlocks_run (hle : rounds ≤ I.blockCount) :
    ∃ I' fs', dropBlocks rounds I fs = (.ok I', fs') ∧ Cuts fs I fs' I' ∧
      I.blockCount = I'.blockCount + rounds := by
  induction rounds generalizing fs I with
  | zero => exact ⟨I, fs, rfl, .refl h hI, rfl⟩
  | succ rounds ih =>
    have hdrop : ∃ I' fs', dropBlock I fs = (.ok I', fs') ∧ Cuts fs I fs' I' ∧
        I.blockCount = I'.blockCount + 1 := by
      by_cases h12 : I.blockCount - 1 < 12
      · exact dropBlock_direct h hI (by omega) h12
      · exact dropBlock_indirect h hI h12
    obtain ⟨I₁, fs₁, hrun₁, hcut₁, hcount₁⟩ := hdrop
    obtain ⟨I₂, fs₂, hrun₂, hcut₂, hcount₂⟩ := ih (hcut₁.writes.steps.mounted h)
      (by rw [hcut₁.writes.superblock]; exact hcut₁.edit.after) (by omega)
    refine ⟨I₂, fs₂, ?_, hcut₁.trans hcut₂, by omega⟩
    rw [dropBlocks, bind_of_ok hrun₁, hrun₂]

theorem dropIndirect_run (hc : I.blockCount ≤ 12) (hz : I.indirectBlock ≠ 0) :
    ∃ fs', setBlockAllocated I.indirectBlock false fs = (.ok (), fs') ∧
      Cuts fs I fs' { I with indirectBlock := 0 } := by
  have hs := h.sized
  have hmem : I.indirectBlock ∈ fs.view.owned I := Intact.indirect_mem (.inr hz)
  have hr := hI.range _ hmem
  obtain ⟨fs', hrun, hw⟩ := setBlockAllocated_run h hr.1 hr.2
  have hp : ∀ i < I.blockCount,
      fs'.view.pointer { I with indirectBlock := 0 } i = fs.view.pointer I i := by
    intro i hi
    rw [View.pointer_direct (by omega), View.pointer_direct (by omega)]
  have hblocks : fs'.view.blocks { I with indirectBlock := 0 } = fs.view.blocks I :=
    map_congr_left fun i hi => hp i (mem_range.mp hi)
  have howned : fs'.view.owned { I with indirectBlock := 0 } = fs.view.blocks I := by
    rw [View.owned, if_pos ⟨hc, rfl⟩, append_nil, hblocks]
  have hsplit : fs.view.owned I = fs.view.blocks I ++ [I.indirectBlock] := by
    rw [View.owned, if_neg fun hn => hz hn.2]
  have hnd := hI.nodup
  rw [hsplit, nodup_append] at hnd
  have hne : ∀ b ∈ fs.view.blocks I, b ≠ I.indirectBlock :=
    fun b hb => hnd.2.2 b hb _ (mem_singleton.mpr rfl)
  have hafter : Intact fs.superblock fs'.view { I with indirectBlock := 0 } := by
    refine ⟨{ hI.fits with indirectBlock := Nat.two_pow_pos 64 }, hI.count_le, ?_, ?_, ?_, ?_⟩
    · intro i hi hlt
      by_cases h12 : i < 12
      · have := hI.unused i hi hlt
        rwa [View.pointer_direct h12] at this ⊢
      · have hout : ¬fs.superblock.InData 0 := fun h0 => hs.ne_zero h0 rfl
        rw [View.pointer_indirect (by omega), hw.view]
        simp only [hs.outside 0 hout, le_nil]
    · rw [howned]
      exact fun b hb => hI.range b (mem_append_left _ hb)
    · rw [howned]
      exact hnd.1
    · rw [howned, hw.view]
      intro b hb
      simp only [update_of_ne (hne b hb)]
      exact hI.bits b (mem_append_left _ hb)
  refine ⟨fs', hrun, ⟨hw.steps, hw.superblock, rfl⟩, ⟨hI, hafter, by rw [hw.view],
    by rw [hw.view], ?_, ?_, ?_, ?_⟩, ⟨rfl, rfl, rfl, rfl, rfl, rfl⟩, le_rfl, ?_⟩
  · rw [howned]
    exact fun b hb => .inl (mem_append_left _ hb)
  · intro b hb hn
    rw [howned] at hn
    rw [hsplit, mem_append, mem_singleton] at hb
    rw [hw.view, hb.resolve_left hn]
    exact update_self ..
  · intro b hb _
    rw [hw.view]
    exact update_of_ne (by rintro rfl; exact hb hmem) ..
  · intro b _ _
    rw [hw.view]
  · rw [View.fileBytes, hblocks, hw.view]
    exact (take_of_length_le (hI.length_fileBytes hs).le).symm

theorem truncateInodeBlocks_run (hk : keep ≤ I.blockCount) :
    ∃ I' fs', truncateInodeBlocks I keep fs = (.ok I', fs') ∧ Cuts fs I fs' I' ∧
      Tight I' ∧ I'.blockCount = keep := by
  obtain ⟨I₁, fs₁, hrun₁, hcut₁, hcount₁⟩ :=
    dropBlocks_run h hI (show I.blockCount - keep ≤ I.blockCount by omega)
  have hcount : I₁.blockCount = keep := by omega
  unfold truncateInodeBlocks
  rw [if_neg (by omega), bind_of_ok hrun₁]
  by_cases hind : I₁.blockCount ≤ 12 ∧ I₁.indirectBlock ≠ 0
  · have hsb := hcut₁.writes.superblock
    obtain ⟨fs₂, hrun₂, hcut₂⟩ := dropIndirect_run (hcut₁.writes.steps.mounted h)
      (by rw [hsb]; exact hcut₁.edit.after) hind.1 hind.2
    rw [if_pos hind, bind_of_ok hrun₂]
    exact ⟨_, fs₂, rfl, hcut₁.trans hcut₂, fun _ => rfl, hcount⟩
  · rw [if_neg hind]
    refine ⟨I₁, fs₁, rfl, hcut₁, ?_, hcount⟩
    intro hc
    by_contra hz
    exact hind ⟨hc, hz⟩

end NexFs

end NexOs.Nexfs
