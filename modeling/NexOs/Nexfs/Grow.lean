import NexOs.Nexfs.Ownership

/-! Growing the block list of an inode. Allocation takes the lowest free block
and zeroes it, so a new block reads as zeros. -/
namespace NexOs.Nexfs
open List hiding Vector
open Bytes Storage Function Exec

variable {sb : Superblock} {b : Nat} {V : View} {I I' I'' : Inode} {fs fs' fs'' : NexFs}

section
variable {V V' : View}

/-- What appending a block does to the pointers and to the bitmap. The indirect
block, if it changes, is new as well. -/
structure Appends (sb : Superblock) (V : View) (I : Inode) (V' : View) (I' : Inode) (b : Nat) :
    Prop where
  slot : V'.slot = V.slot
  inodeBit : V'.inodeBit = V.inodeBit
  fits : I'.Fits
  count : I'.blockCount = I.blockCount + 1
  pointer : ∀ i < 524, V'.pointer I' i = if i = I.blockCount then b else V.pointer I i
  inData : sb.InData b
  free : V.blockBit b = false
  kept : I'.indirectBlock = I.indirectBlock → I.blockCount < 12 ∨ I.indirectBlock ≠ 0
  grown : I'.indirectBlock ≠ I.indirectBlock → I.blockCount = 12 ∧ I.indirectBlock = 0 ∧
    sb.InData I'.indirectBlock ∧ V.blockBit I'.indirectBlock = false ∧ I'.indirectBlock ≠ b
  bits : ∀ c, V'.blockBit c =
    if c = b ∨ (c = I'.indirectBlock ∧ I'.indirectBlock ≠ I.indirectBlock) then true
    else V.blockBit c
  data : ∀ c, c ≠ b → c ≠ I'.indirectBlock → V'.data c = V.data c
  zeroed : V'.data b = zeroBlock

variable (h : Appends sb V I V' I' b)
include h

theorem Appends.mem_owned (hlt : I.blockCount < 524) : c ∈ V'.owned I' ↔ c ∈ V.owned I ∨ c = b ∨
      (c = I'.indirectBlock ∧ I'.indirectBlock ≠ I.indirectBlock) := by
  have hold : (∃ i < I'.blockCount, V'.pointer I' i = c) ↔
      (∃ i < I.blockCount, V.pointer I i = c) ∨ c = b := by
    rw [h.count]
    constructor
    · rintro ⟨i, hi, hp⟩
      rw [h.pointer i (by omega)] at hp
      split at hp
      · exact .inr hp.symm
      · exact .inl ⟨i, by omega, hp⟩
    · rintro (⟨i, hi, hp⟩ | rfl)
      · refine ⟨i, by omega, ?_⟩
        rw [h.pointer i (by omega), if_neg (by omega), hp]
      · refine ⟨I.blockCount, by omega, ?_⟩
        rw [h.pointer _ hlt, if_pos rfl]
  rw [View.mem_owned, View.mem_owned, hold, h.count]
  by_cases hind : I'.indirectBlock = I.indirectBlock
  · have hk := h.kept hind
    have hcond : (I.blockCount + 1 ≤ 12 ∧ I.indirectBlock = 0) ↔
        (I.blockCount ≤ 12 ∧ I.indirectBlock = 0) := by omega
    simp only [hind, hcond, ne_eq, not_true_eq_false, and_false, or_false]
    exact or_right_comm
  · obtain ⟨hc, hz, -, -, -⟩ := h.grown hind
    have hcond' : I.blockCount ≤ 12 ∧ I.indirectBlock = 0 := by omega
    rw [hz] at hind
    simp only [hcond', hind, ne_eq, not_false_eq_true, and_true, and_false, not_true_eq_false,
      true_and, false_and, or_false]
    exact or_assoc

variable (hI : Intact sb V I)
include hI

theorem Appends.not_owned (hc : c ∈ V.owned I) :
    ¬(c = b ∨ (c = I'.indirectBlock ∧ I'.indirectBlock ≠ I.indirectBlock)) := by
  have hbit := hI.bits c hc
  rintro (rfl | ⟨rfl, hne⟩)
  · rw [h.free] at hbit
    cases hbit
  · rw [(h.grown hne).2.2.2.1] at hbit
    cases hbit

theorem Appends.intact (hlt : I.blockCount < 524) : Intact sb V' I' := by
  have hinj := (View.nodup_owned.mp hI.nodup).1
  have hnew : ∀ i < I.blockCount, V.pointer I i ≠ b := fun i hi he =>
    h.not_owned hI (View.pointer_mem_owned hi) (.inl he)
  refine ⟨h.fits, by rw [h.count]; omega, ?_, ?_, ?_, ?_⟩
  · intro i hi hlt'
    rw [h.count] at hi
    rw [h.pointer i hlt', if_neg (by omega)]
    exact hI.unused i (by omega) hlt'
  · intro c hc
    rcases (h.mem_owned hlt).mp hc with hc | rfl | ⟨rfl, hne⟩
    · exact hI.range c hc
    · exact h.inData
    · exact (h.grown hne).2.2.1
  · rw [View.nodup_owned, h.count]
    constructor
    · intro i hi j hj hp
      rw [h.pointer i (by omega), h.pointer j (by omega)] at hp
      split at hp <;> split at hp
      · omega
      · exact absurd hp.symm (hnew j (by omega))
      · exact absurd hp (hnew i (by omega))
      · exact hinj i (by omega) j (by omega) hp
    · intro hcond i hi
      rw [h.pointer i (by omega)]
      by_cases hind : I'.indirectBlock = I.indirectBlock
      · rw [hind] at hcond ⊢
        have hne : I.indirectBlock ≠ 0 := by
          have := h.kept hind
          omega
        split
        · rintro rfl
          exact h.not_owned hI (Intact.indirect_mem (.inr hne)) (.inl rfl)
        · exact hI.pointer_ne_indirect (by omega) (.inr hne)
      · split
        · exact (h.grown hind).2.2.2.2.symm
        · intro he
          exact h.not_owned hI (View.pointer_mem_owned (by omega)) (.inr ⟨he, hind⟩)
  · intro c hc
    rw [h.bits]
    rcases (h.mem_owned hlt).mp hc with hc | hc
    · rw [if_neg (h.not_owned hI hc)]
      exact hI.bits c hc
    · rw [if_pos hc]

theorem Appends.edit (hs : Sized sb V) (hs' : Sized sb V')
    (hlt : I.blockCount < 524) : Edit sb V I V' I' where
  before := hI
  after := h.intact hI hlt
  slot := h.slot
  inodeBit := h.inodeBit
  fresh c hc := by
    rcases (h.mem_owned hlt).mp hc with hc | rfl | ⟨rfl, hne⟩
    · exact .inl hc
    · exact .inr h.free
    · exact .inr (h.grown hne).2.2.2.1
  lost c hc hn := absurd ((h.mem_owned hlt).mpr (.inl hc)) hn
  bits c hc hn := by
    rw [h.bits, if_neg fun hnew => hn ((h.mem_owned hlt).mpr (.inr hnew))]
  data c hc ha := by
    by_cases hr : sb.InData c
    · refine h.data c ?_ ?_
      · rintro rfl
        rw [h.free] at ha
        cases ha hr
      · rintro rfl
        have hp := hs.data_pos
        have hlo := hr.1
        by_cases hind : I'.indirectBlock = I.indirectBlock
        · exact hc (hind ▸ Intact.indirect_mem (.inr (by omega)))
        · rw [(h.grown hind).2.2.2.1] at ha
          cases ha hr
    · rw [hs'.outside c hr, hs.outside c hr]

theorem Appends.fileBytes (hs : Sized sb V) (hlt : I.blockCount < 524) :
    V'.fileBytes I' = V.fileBytes I ++ zeroBlock := by
  have hold : (range I.blockCount).map (V'.pointer I') = V.blocks I := by
    refine map_congr_left fun i hi => ?_
    have hi := mem_range.mp hi
    rw [h.pointer i (by omega), if_neg (by omega)]
  have hnew : V'.pointer I' I.blockCount = b := by rw [h.pointer _ hlt, if_pos rfl]
  have hdata : (V.blocks I).flatMap V'.data = (V.blocks I).flatMap V.data := by
    refine flatMap_congr fun c hc => h.data c ?_ ?_
    · intro he
      exact h.not_owned hI (mem_append_left _ hc) (.inl he)
    · obtain ⟨i, hi, rfl⟩ := View.mem_blocks.mp hc
      intro he
      by_cases hind : I'.indirectBlock = I.indirectBlock
      · have hz := hI.pointer_ne_zero hs hi
        rw [hind] at he
        exact hI.pointer_ne_indirect hi (.inr (by omega)) he
      · exact h.not_owned hI (View.pointer_mem_owned hi) (.inr ⟨he, hind⟩)
  rw [View.fileBytes, View.blocks, h.count, range_succ, map_append, flatMap_append, hold, hdata]
  simp only [map_cons, map_nil, flatMap_cons, flatMap_nil, append_nil, hnew, h.zeroed]
  rfl

end

/-- Everything in an inode but its block list. -/
structure SameRecord (I I' : Inode) : Prop where
  kind : I'.kind = I.kind
  permissions : I'.permissions = I.permissions
  size : I'.size = I.size
  created : I'.created = I.created
  modified : I'.modified = I.modified
  generation : I'.generation = I.generation

theorem SameRecord.refl (I : Inode) : SameRecord I I := ⟨rfl, rfl, rfl, rfl, rfl, rfl⟩

theorem SameRecord.trans (h : SameRecord I I') (h' : SameRecord I' I'') : SameRecord I I'' :=
  ⟨h'.kind.trans h.kind, h'.permissions.trans h.permissions, h'.size.trans h.size,
    h'.created.trans h.created, h'.modified.trans h.modified,
    h'.generation.trans h.generation⟩

section
variable {i : Nat}

theorem View.pointer_direct (h : i < 12) : V.pointer I i = I.directBlocks[i] := dif_pos h

theorem View.pointer_indirect (h : 12 ≤ i) :
    V.pointer I i = le (V.data I.indirectBlock) (8 * (i - 12)) 8 := dif_neg (by omega)

theorem le_splice_pointer (hx : x.length = 4096) (hk : 12 ≤ k)
    (hk' : k < 524) (hv : v < 2 ^ 64) (hi : 12 ≤ i) :
    le (splice x (8 * (k - 12)) (leBytes 8 v)) (8 * (i - 12)) 8 =
      if i = k then v else le x (8 * (i - 12)) 8 := by
  by_cases h : i = k
  · rw [if_pos h, h]
    exact le_splice_self (by omega) hv
  · rw [if_neg h]
    exact le_splice_of_disjoint (by rw [length_leBytes]; omega) (by rw [length_leBytes]; omega)

end

theorem View.freeBlock_none : V.freeBlock sb = none ↔ V.freeBlocks sb = ∅ := by
  rw [View.freeBlock, find?_eq_none, Finset.eq_empty_iff_forall_notMem]
  simp only [View.mem_freeBlocks, Superblock.mem_dataRange, Superblock.InData, not_and,
    Bool.not_eq_true']

theorem View.freeBlock_some (h : V.freeBlock sb = some b) : sb.InData b ∧ V.blockBit b = false := by
  have hmem := Superblock.mem_dataRange.mp (mem_of_find?_eq_some h)
  have hbit := find?_some h
  exact ⟨hmem, by simpa using hbit⟩

theorem View.freeBlocks_withBlock : (V.withBlock b).freeBlocks sb = (V.freeBlocks sb).erase b := by
  ext c
  rw [Finset.mem_erase, View.mem_freeBlocks, View.mem_freeBlocks]
  by_cases hc : c = b
  · simp [hc]
  · simp [hc]

theorem View.card_withBlock (hr : sb.InData b) (hb : V.blockBit b = false) :
    ((V.withBlock b).freeBlocks sb).card + 1 = (V.freeBlocks sb).card := by
  rw [View.freeBlocks_withBlock]
  exact Finset.card_erase_add_one (View.mem_freeBlocks.mpr ⟨hr, hb⟩)

theorem Sized.ne_zero (hs : Sized sb V) (hr : sb.InData b) : b ≠ 0 := by
  have := hs.data_pos
  have := hr.1
  omega

theorem Sized.lt (hs : Sized sb V) (hr : sb.InData b) : b < 2 ^ 64 :=
  hr.2.trans hs.total_lt

namespace NexFs

theorem appends_direct (hs : Sized sb V) (hI : Intact sb V I) (ht : Tight I)
    (hlt : I.blockCount < 12) (hr : sb.InData b) (hb : V.blockBit b = false) :
    Appends sb V I (V.withBlock b)
      { I with directBlocks := I.directBlocks.set I.blockCount b,
               blockCount := I.blockCount + 1 } b where
  slot := rfl
  inodeBit := rfl
  fits := by
    refine { hI.fits with directBlocks := ?_, blockCount := ?_ }
    · intro c hc
      have hset : c ∈ I.directBlocks.set I.blockCount b hlt := hc
      rcases Vector.mem_or_eq_of_mem_set hset with hc | rfl
      · exact hI.fits.directBlocks c hc
      · exact hs.lt hr
    · simp only
      omega
  count := rfl
  pointer i _ := by
    have hz := ht (by omega)
    by_cases hi : i < 12
    · rw [View.pointer_direct hi, View.pointer_direct hi, Vector.getElem_set]
      simp only [eq_comm]
    · rw [View.pointer_indirect (by omega), View.pointer_indirect (by omega), if_neg (by omega)]
      simp only [View.withBlock_data, hz, update_of_ne (hs.ne_zero hr).symm]
  inData := hr
  free := hb
  kept _ := .inl hlt
  grown h := absurd rfl h
  bits c := by simp [update_apply]
  data c hc _ := by simp [hc]
  zeroed := by simp

/-- A pointer in the indirect block `k` takes the new block. `x` is what that
block held before: the old pointers, or zeros if it is new as well. -/
theorem appends_indirect {V V' : View} (hs : Sized sb V)
    (hI : Intact sb V I) (hc : 12 ≤ I.blockCount) (hlt : I.blockCount < 524) (hr : sb.InData b)
    (hb : V.blockBit b = false) (hkb : k ≠ b) (hrk : sb.InData k)
    (hkept : k = I.indirectBlock → I.indirectBlock ≠ 0)
    (hgrown : k ≠ I.indirectBlock →
      I.blockCount = 12 ∧ I.indirectBlock = 0 ∧ V.blockBit k = false) (hx : x.length = 4096)
    (hle : ∀ i, 12 ≤ i → i < 524 → i ≠ I.blockCount → le x (8 * (i - 12)) 8 = V.pointer I i)
    (hslot : V'.slot = V.slot) (hbit : V'.inodeBit = V.inodeBit)
    (hbits : ∀ c, V'.blockBit c =
      if c = b ∨ (c = k ∧ k ≠ I.indirectBlock) then true else V.blockBit c)
    (hdata : ∀ c, V'.data c =
      if c = k then splice x (8 * (I.blockCount - 12)) (leBytes 8 b)
      else if c = b then zeroBlock else V.data c) :
    Appends sb V I V' { I with indirectBlock := k, blockCount := I.blockCount + 1 } b where
  slot := hslot
  inodeBit := hbit
  fits := by
    refine { hI.fits with indirectBlock := hs.lt hrk, blockCount := ?_ }
    simp only
    omega
  count := rfl
  pointer i hi := by
    by_cases h12 : i < 12
    · rw [View.pointer_direct h12, View.pointer_direct h12, if_neg (by omega)]
    · rw [View.pointer_indirect (by omega), hdata, if_pos rfl,
        le_splice_pointer hx hc hlt (hs.lt hr) (by omega)]
      by_cases hic : i = I.blockCount
      · rw [if_pos hic, if_pos hic]
      · rw [if_neg hic, if_neg hic, hle i (by omega) hi hic]
  inData := hr
  free := hb
  kept h := .inr (hkept h)
  grown h := ⟨(hgrown h).1, (hgrown h).2.1, hrk, (hgrown h).2.2, hkb⟩
  bits := hbits
  data c hcb hck := by rw [hdata, if_neg hck, if_neg hcb]
  zeroed := by rw [hdata, if_neg hkb.symm, if_pos rfl]

theorem storePointer_run (h : Mounted fs) (hrk : fs.superblock.InData k)
    (hlt : I.blockCount < 524) :
    ∃ fs', (do
        let pointers ← readBlock k blockSize
        let pointerIndex := I.blockCount - directBlocks
        ensure (pointerIndex < indirectPointers) .fileTooLarge
        let pointers ← lift (copyInto pointers (pointerIndex * 8) (leBytes 8 b))
        writeBlock k pointers
        pure { I with indirectBlock := k, blockCount := I.blockCount + 1 } : Method Inode) fs =
      (.ok { I with indirectBlock := k, blockCount := I.blockCount + 1 }, fs') ∧
      Writes fs fs' { fs.view with
        data := update fs.view.data k
          (splice (fs.view.data k) (8 * (I.blockCount - 12)) (leBytes 8 b)) } := by
  have hlen := h.sized.inside k hrk
  have hfit : 8 * (I.blockCount - 12) + (leBytes 8 b).length ≤ (fs.view.data k).length := by
    rw [length_leBytes]
    omega
  obtain ⟨fs', hrun, hw⟩ := writeData_run h hrk.1 hrk.2 ((length_splice hfit).trans hlen)
  refine ⟨fs', ?_, hw⟩
  rw [bind_of_ok (readData_run h hrk.1 hrk.2)]
  simp only [directBlocks, indirectPointers, blockSize]
  rw [ensure_bind_pos (by omega), Nat.mul_comm, copyInto_eq hfit, lift_ok_bind, bind_of_ok hrun]
  rfl

end NexFs

/-- The data blocks of the inode hold `bytes` now, and it has given none of
them up. -/
structure Extends (fs : NexFs) (I : Inode) (fs' : NexFs) (I' : Inode) (bytes : List UInt8) :
    Prop where
  writes : Writes fs fs' fs'.view
  edit : Edit fs.superblock fs.view I fs'.view I'
  record : SameRecord I I'
  tight : Tight I'
  count_le : I.blockCount ≤ I'.blockCount
  bytes : fs'.view.fileBytes I' = bytes

section
variable {xs ys : List UInt8}

theorem Extends.refl (h : Mounted fs) (hI : Intact fs.superblock fs.view I) (ht : Tight I) :
    Extends fs I fs I (fs.view.fileBytes I) where
  writes := .refl h
  edit := .refl hI
  record := .refl I
  tight := ht
  count_le := le_rfl
  bytes := rfl

variable (h : Extends fs I fs' I' xs)
include h

theorem Extends.mounted (hm : Mounted fs) : Mounted fs' :=
  h.writes.steps.mounted hm

theorem Extends.intact : Intact fs'.superblock fs'.view I' := by
  rw [h.writes.superblock]
  exact h.edit.after

theorem Extends.length (hm : Mounted fs) : xs.length = 4096 * I'.blockCount := by
  rw [← h.bytes]
  exact h.intact.length_fileBytes (h.mounted hm).sized

theorem Extends.trans (h' : Extends fs' I' fs'' I'' ys) : Extends fs I fs'' I'' ys where
  writes := h.writes.trans h'.writes
  edit := h.edit.trans (h.writes.superblock ▸ h'.edit)
  record := h.record.trans h'.record
  tight := h'.tight
  count_le := h.count_le.trans h'.count_le
  bytes := h'.bytes

theorem Extends.free_add (ht : Tight I) :
    (fs'.view.freeBlocks fs.superblock).card + footprint I'.blockCount =
      (fs.view.freeBlocks fs.superblock).card + footprint I.blockCount := by
  have := h.edit.free_add
  rwa [View.length_owned h.tight, View.length_owned ht] at this

end

/-- The inode has `k` more data blocks, all zero. -/
structure Grows (fs : NexFs) (I : Inode) (fs' : NexFs) (I' : Inode) (k : Nat) : Prop extends
    Extends fs I fs' I' (fs.view.fileBytes I ++ List.replicate (4096 * k) 0) where
  count : I'.blockCount = I.blockCount + k

section
variable {k m : Nat}

theorem Grows.refl (h : Mounted fs) (hI : Intact fs.superblock fs.view I) (ht : Tight I) :
    Grows fs I fs I 0 := by
  have hr := Extends.refl h hI ht
  exact ⟨{ hr with bytes := by simp }, rfl⟩

theorem Grows.trans (h : Grows fs I fs' I' k) (h' : Grows fs' I' fs'' I'' m) :
    Grows fs I fs'' I'' (k + m) := by
  have ht := h.toExtends.trans h'.toExtends
  refine ⟨{ ht with bytes := ?_ }, by rw [h'.count, h.count, Nat.add_assoc]⟩
  rw [h'.bytes, h.bytes, append_assoc, Nat.mul_add, replicate_add]

theorem Appends.grows (ha : Appends fs.superblock fs.view I fs'.view I' b)
    (h : Mounted fs) (hw : Writes fs fs' fs'.view) (hI : Intact fs.superblock fs.view I)
    (ht : Tight I) (hlt : I.blockCount < 524) (hr : SameRecord I I') : Grows fs I fs' I' 1 := by
  have hs' : Sized fs.superblock fs'.view := hw.superblock ▸ (hw.steps.mounted h).sized
  have hcount := ha.count
  refine ⟨⟨hw, ha.edit hI h.sized hs' hlt, hr, ?_, by omega, ha.fileBytes hI h.sized hlt⟩, hcount⟩
  intro hc
  by_cases he : I'.indirectBlock = I.indirectBlock
  · rw [he]
    exact ht (by omega)
  · have := (ha.grown he).1
    omega

/-- How a call ends that may have to grow inode `I` to `n` blocks: it returns
exactly when enough blocks are free. -/
def Rationed (fs : NexFs) (I : Inode) (n : Nat) (call : Method Inode)
    (done : Inode → NexFs → Prop) : Prop :=
  (footprint n ≤ (fs.view.freeBlocks fs.superblock).card + footprint I.blockCount ∧
    ∃ I' fs', call fs = (.ok I', fs') ∧ done I' fs') ∨
  ((fs.view.freeBlocks fs.superblock).card + footprint I.blockCount < footprint n ∧
    ∃ fs', call fs = (.error (.error .noSpace), fs'))

end

namespace NexFs
variable (h : Mounted fs)
include h

theorem appendBlock_full (hfree : fs.view.freeBlocks fs.superblock = ∅) :
    appendBlock I fs = (.error (.error .noSpace), fs) := by
  unfold appendBlock
  rw [bind_of_error (allocateBlock_none h (View.freeBlock_none.mpr hfree))]

variable (hI : Intact fs.superblock fs.view I)
include hI

variable (ht : Tight I)
include ht

theorem appendBlock_indirect
    (hc : 12 ≤ I.blockCount) (hlt : I.blockCount < 524) (hz : I.indirectBlock ≠ 0)
    (hb : fs.view.freeBlock fs.superblock = some b) :
    ∃ I' fs', appendBlock I fs = (.ok I', fs') ∧ Grows fs I fs' I' 1 := by
  obtain ⟨hr, hfree⟩ := View.freeBlock_some hb
  obtain ⟨fs₁, hrun₁, hw₁⟩ := allocateBlock_some h hb
  have hmem : I.indirectBlock ∈ fs.view.owned I := Intact.indirect_mem (.inr hz)
  have hrk := hI.range _ hmem
  have hkb : I.indirectBlock ≠ b := by
    rintro rfl
    rw [hI.bits _ hmem] at hfree
    cases hfree
  obtain ⟨fs₂, hrun₂, hw₂⟩ := storePointer_run (b := b) (hw₁.steps.mounted h)
    (by rw [hw₁.superblock]; exact hrk) hlt
  rw [hw₁.view, View.withBlock_data, update_of_ne hkb] at hw₂
  have ha : Appends fs.superblock fs.view I fs₂.view
      { I with indirectBlock := I.indirectBlock, blockCount := I.blockCount + 1 } b := by
    refine appends_indirect h.sized hI hc hlt hr hfree hkb hrk (fun _ => hz)
      (fun hne => absurd rfl hne) (h.sized.inside _ hrk) (fun i hi _ _ => ?_) ?_ ?_ ?_ ?_
    · exact (View.pointer_indirect hi).symm
    · rw [hw₂.view]
      rfl
    · rw [hw₂.view]
      rfl
    · intro c
      simp [hw₂.view, update_apply]
    · intro c
      simp [hw₂.view, update_apply]
  refine ⟨_, fs₂, ?_, ha.grows h ⟨hw₁.steps.trans hw₂.steps, hw₂.superblock.trans hw₁.superblock,
    rfl⟩ hI ht hlt ⟨rfl, rfl, rfl, rfl, rfl, rfl⟩⟩
  unfold appendBlock
  rw [bind_of_ok hrun₁]
  simp only [show ¬I.blockCount < 12 by omega, hz]
  exact hrun₂

theorem appendBlock_grown (hc : I.blockCount = 12) (hz : I.indirectBlock = 0)
    (hb : fs.view.freeBlock fs.superblock = some b)
    (hk : (fs.view.withBlock b).freeBlock fs.superblock = some k) :
    ∃ I' fs', appendBlock I fs = (.ok I', fs') ∧ Grows fs I fs' I' 1 := by
  obtain ⟨hr, hfree⟩ := View.freeBlock_some hb
  obtain ⟨hrk, hkfree⟩ := View.freeBlock_some hk
  have hkb : k ≠ b := by
    rintro rfl
    simp at hkfree
  rw [View.withBlock_blockBit, update_of_ne hkb] at hkfree
  have hne : k ≠ I.indirectBlock := hz ▸ h.sized.ne_zero hrk
  obtain ⟨fs₁, hrun₁, hw₁⟩ := allocateBlock_some h hb
  rw [← hw₁.view, ← hw₁.superblock] at hk
  obtain ⟨fs₂, hrun₂, hw₂⟩ := allocateBlock_some (hw₁.steps.mounted h) hk
  have hw₁₂ := hw₁.trans hw₂
  obtain ⟨fs₃, hrun₃, hw₃⟩ := storePointer_run (I := I) (b := b) (hw₁₂.steps.mounted h)
    (by rw [hw₁₂.superblock]; exact hrk) (by omega)
  rw [hw₂.view, hw₁.view] at hw₃
  simp only [View.withBlock_data] at hw₃
  have ha : Appends fs.superblock fs.view I fs₃.view
      { I with indirectBlock := k, blockCount := I.blockCount + 1 } b := by
    refine appends_indirect h.sized hI hc.ge (by omega) hr hfree hkb hrk
      (fun he => absurd he hne) (fun _ => ⟨hc, hz, hkfree⟩) length_zeroBlock
      (fun i hi hi' _ => ?_) ?_ ?_ ?_ ?_
    · rw [hI.unused i (by omega) hi']
      exact le_replicate_zero (by omega)
    · rw [hw₃.view]
      rfl
    · rw [hw₃.view]
      rfl
    · intro c
      simp only [hw₃.view, View.withBlock_blockBit, update_apply, hne, ne_eq]
      by_cases hcb : c = b
      · simp [hcb]
      · simp [hcb]
    · intro c
      simp only [hw₃.view, update_apply]
      by_cases hck : c = k
      · simp [hck]
      · simp [hck]
  refine ⟨_, fs₃, ?_, ha.grows h ⟨(hw₁₂.trans hw₃).steps, (hw₁₂.trans hw₃).superblock, rfl⟩ hI ht
    (by omega) ⟨rfl, rfl, rfl, rfl, rfl, rfl⟩⟩
  unfold appendBlock
  rw [bind_of_ok hrun₁]
  simp only [show ¬I.blockCount < 12 by omega, ↓reduceDIte, hz, ↓reduceIte]
  rw [bind_of_ok hrun₂]
  exact hrun₃

theorem appendBlock_run (hlt : I.blockCount < 524) :
    Rationed fs I (I.blockCount + 1) (appendBlock I) fun I' fs' => Grows fs I fs' I' 1 := by
  have hs := h.sized
  cases hb : fs.view.freeBlock fs.superblock with
  | none =>
    have hempty := View.freeBlock_none.mp hb
    refine .inr ⟨?_, fs, appendBlock_full h hempty⟩
    rw [hempty, Finset.card_empty]
    unfold footprint
    split <;> split <;> omega
  | some b =>
    obtain ⟨hr, hfree⟩ := View.freeBlock_some hb
    have hcard := View.card_withBlock hr hfree
    obtain ⟨fs₁, hrun₁, hw₁⟩ := allocateBlock_some h hb
    by_cases h12 : I.blockCount < 12
    · have ha := appends_direct hs hI ht h12 hr hfree
      rw [← hw₁.view] at ha
      refine .inl ⟨by unfold footprint; split <;> split <;> omega, _, fs₁, ?_,
        ha.grows h ⟨hw₁.steps, hw₁.superblock, rfl⟩ hI ht hlt ⟨rfl, rfl, rfl, rfl, rfl, rfl⟩⟩
      unfold appendBlock
      rw [bind_of_ok hrun₁]
      simp only [h12]
      rfl
    by_cases hz : I.indirectBlock = 0
    · have hc : I.blockCount = 12 := by
        by_contra hne
        exact hI.indirect_ne_zero hs (by omega) hz
      cases hk : (fs.view.withBlock b).freeBlock fs.superblock with
      | some k =>
        obtain ⟨hrk, hkfree⟩ := View.freeBlock_some hk
        have hcard' := View.card_withBlock hrk hkfree
        refine .inl ⟨?_, appendBlock_grown h hI ht hc hz hb hk⟩
        rw [hc, show footprint (12 + 1) = 14 from rfl, show footprint 12 = 12 from rfl]
        omega
      | none =>
        have hempty := View.freeBlock_none.mp hk
        rw [hempty, Finset.card_empty] at hcard
        refine .inr ⟨?_, fs₁, ?_⟩
        · rw [hc, show footprint (12 + 1) = 14 from rfl, show footprint 12 = 12 from rfl]
          omega
        · unfold appendBlock
          rw [bind_of_ok hrun₁]
          simp only [h12, ↓reduceDIte, hz, ↓reduceIte]
          rw [bind_of_error (allocateBlock_none (hw₁.steps.mounted h)
            (by rw [hw₁.view, hw₁.superblock, hk]))]
    · have hcount : 12 < I.blockCount := by
        by_contra hle
        exact hz (ht (by omega))
      refine .inl ⟨?_, appendBlock_indirect h hI ht (by omega) hlt hz hb⟩
      unfold footprint
      rw [if_pos (by omega), if_pos hcount]
      omega

theorem appendBlocks_run (hle : I.blockCount + rounds ≤ 524) :
    Rationed fs I (I.blockCount + rounds) (appendBlocks rounds I)
      fun I' fs' => Grows fs I fs' I' rounds := by
  induction rounds generalizing fs I with
  | zero => exact .inl ⟨Nat.le_add_left _ _, I, fs, rfl, .refl h hI ht⟩
  | succ rounds ih =>
    have hmono : footprint (I.blockCount + 1) ≤ footprint (I.blockCount + (rounds + 1)) :=
      footprint_mono (by omega)
    rcases appendBlock_run h hI ht (by omega) with ⟨-, I₁, fs₁, hrun₁, hg⟩ | ⟨hlt, fs₁, hrun₁⟩
    · have hfree := hg.free_add ht
      have hcount := hg.count
      have hsb := hg.writes.superblock
      have hsum : I.blockCount + (rounds + 1) = I₁.blockCount + rounds := by omega
      rw [hsum]
      rcases ih (hg.mounted h) hg.intact hg.tight (by omega) with
        ⟨hle', I₂, fs₂, hrun₂, hg₂⟩ | ⟨hlt', fs₂, hrun₂⟩
      · rw [hsb] at hle'
        refine .inl ⟨by omega, I₂, fs₂, ?_, ?_⟩
        · rw [appendBlocks, bind_of_ok hrun₁, hrun₂]
        · rw [Nat.add_comm]
          exact hg.trans hg₂
      · rw [hsb] at hlt'
        refine .inr ⟨by omega, fs₂, ?_⟩
        rw [appendBlocks, bind_of_ok hrun₁, hrun₂]
    · refine .inr ⟨by omega, fs₁, ?_⟩
      rw [appendBlocks, bind_of_error hrun₁]

/-- Making room for `n` data blocks works exactly when enough blocks are free. -/
theorem ensureDataBlocks_run (hn : n ≤ 524) :
    Rationed fs I (max I.blockCount n) (ensureDataBlocks I n)
      fun I' fs' => Grows fs I fs' I' (n - I.blockCount) := by
  have hcount := hI.count_le
  have hmax : max I.blockCount n = I.blockCount + (n - I.blockCount) := by omega
  have hok : ¬n > maxFileBlocks := by
    simp only [maxFileBlocks, directBlocks, indirectPointers, blockSize]
    omega
  unfold Rationed ensureDataBlocks
  rw [ensure_bind_pos hok, hmax]
  exact appendBlocks_run h hI ht (by omega)

end NexFs

end NexOs.Nexfs
