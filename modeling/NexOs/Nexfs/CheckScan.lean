import NexOs.Nexfs.Table

/-! The checker's passes over the bitmaps and the inodes. The scan carries an
owner for every block; what it has marked so far is determined by the inodes it
has seen. -/
namespace NexOs.Nexfs
open List Bytes Storage Function Exec

variable {d : Disk} {sb : Superblock} {b : Nat} {V : View} {S : List Nat} {I : Inode}

def bitmapOf (sb : Superblock) (d : Disk) : List UInt8 :=
  (List.range (sb.inodeTableBlock - 3)).flatMap fun i => blockAt d (3 + i)

theorem Superblock.Valid.bitmapBlocks (h : sb.Valid) :
    sb.blockBitmapBlocks = sb.inodeTableBlock - 3 := by
  have := h.table_eq
  simp only [Superblock.blockBitmapBlocks, divCeil, bitmapBitsPerBlock, Nexfs.blockSize]
  omega

theorem Ready.length_bitmapBlock (h : Ready d sb) (hi : i < sb.inodeTableBlock - 3) :
    (blockAt d (3 + i)).length = 4096 := by
  have := h.valid.table_lt
  have := h.valid.data_lt
  exact h.length_blockAt (by omega)

theorem Ready.length_bitmapOf (h : Ready d sb) :
    (bitmapOf sb d).length = 4096 * (sb.inodeTableBlock - 3) := by
  rw [bitmapOf, length_flatMap_chunks fun i hi => h.length_bitmapBlock (mem_range.mp hi),
    length_range]

theorem Ready.bit_bitmapOf (h : Ready d sb) : bit (bitmapOf sb d) b = (viewOf sb d).blockBit b := by
  by_cases hb : b < 32768 * (sb.inodeTableBlock - 3)
  · have hi : b / 32768 < sb.inodeTableBlock - 3 := by omega
    have hchunk : slice (bitmapOf sb d) (4096 * (b / 32768)) 4096 = blockAt d (3 + b / 32768) :=
      slice_flatMap_chunks (fun i hi => h.length_bitmapBlock (mem_range.mp hi))
        (getElem?_range hi)
    have hget : (bitmapOf sb d)[b / 8]? = (blockAt d (3 + b / 32768))[b % 32768 / 8]? := by
      rw [← hchunk, getElem?_slice, if_pos (by omega)]
      congr 1
      omega
    simp only [viewOf, if_pos hb, bit, hget]
    congr 1
    omega
  · simp only [viewOf, if_neg hb]
    refine bit_eq_false_of_length_le ?_
    rw [h.length_bitmapOf]
    omega

theorem Ready.bitmapBit_run (h : Ready d sb) (hb : b < 32768 * (sb.inodeTableBlock - 3)) :
    bitmapBit (bitmapOf sb d) b = .ok ((viewOf sb d).blockBit b) := by
  rw [bitmapBit_eq (by rw [h.length_bitmapOf]; omega), h.bit_bitmapOf]

def bitmapUpTo (sb : Superblock) (d : Disk) (l : List Nat) : List UInt8 :=
  (l.flatMap fun i => blockAt d (3 + i)) ++
    List.replicate (4096 * (sb.inodeTableBlock - 3 - l.length)) 0

theorem readBlockBitmap_run (h : Ready d sb) : readBlockBitmap sb d = (.ok (bitmapOf sb d), d) := by
  have hlen : sb.inodeTableBlock - 3 ≤ sb.totalBlocks := by
    have := h.valid.table_lt
    have := h.valid.data_lt
    omega
  have htotal := h.total_lt
  have hloop : Decides ((range (sb.inodeTableBlock - 3)).foldlM (fun bitmap index => do
      let start ← okOr (checkedMul index blockSize) .tooLarge
      let blockNumber ← lift (addU64 sb.blockBitmapBlock index)
      let block ← readBlock sb blockNumber blockSize
      lift (copyInto bitmap start block)) (bitmapUpTo sb d [])) d True
      (bitmapUpTo sb d (range (sb.inodeTableBlock - 3))) := by
    refine .foldlM (fun _ => True) (bitmapUpTo sb d) _ trivial ?_
      fun _ _ _ => trivial
    intro l c r hl _
    obtain ⟨rfl, hc⟩ := prefix_of_range hl
    have hblock := h.length_bitmapBlock hc
    have hfront : ((range c).flatMap fun i => blockAt d (3 + i)).length = 4096 * c := by
      rw [length_flatMap_chunks fun i hi =>
        h.length_bitmapBlock ((mem_range.mp hi).trans hc), length_range]
    have htail : replicate (4096 * (sb.inodeTableBlock - 3 - c)) (0 : UInt8) =
        replicate 4096 0 ++ replicate (4096 * (sb.inodeTableBlock - 3 - (c + 1))) 0 := by
      rw [replicate_append_replicate]
      congr 1
      omega
    refine .of_ok ?_
    rw [checkedMul_eq (by simp only [blockSize]; omega), okOr_some, pure_bind_run,
      h.valid.blockBitmap_eq, addU64_eq (by omega), lift_ok_bind,
      bind_of_ok (readBlock_run h (by have := h.valid.table_lt; have := h.valid.data_lt; omega)),
      copyInto_eq, lift_run]
    · rw [bitmapUpTo, bitmapUpTo, length_range, htail,
        splice_append_right (by simp only [blockSize]; omega), hfront,
        show c * blockSize - 4096 * c = 0 by simp only [blockSize]; omega,
        splice_append_left (by rw [hblock, length_replicate]), splice_full
          (by rw [hblock, length_replicate]), flatMap_append, length_append,
        length_range, length_singleton, flatMap_singleton, append_assoc]
    · rw [bitmapUpTo, length_append, length_replicate, length_range]
      simp only [blockSize]
      omega
  have hstart : bitmapUpTo sb d [] = replicate ((sb.inodeTableBlock - 3) * blockSize) 0 := by
    rw [bitmapUpTo, flatMap_nil, nil_append, length_nil, Nat.sub_zero, Nat.mul_comm]
  have hstop : bitmapUpTo sb d (range (sb.inodeTableBlock - 3)) = bitmapOf sb d := by
    rw [bitmapUpTo, length_range, Nat.sub_self, replicate_zero, append_nil, bitmapOf]
  rw [hstart, hstop] at hloop
  unfold readBlockBitmap
  rw [h.valid.bitmapBlocks, checkedMul_eq (by simp only [blockSize]; omega)]
  exact hloop.run_ok trivial

/-! ## Owners -/

/-- The owners of all blocks when the data blocks in `S` have been claimed. -/
def marks (sb : Superblock) (S : List Nat) : List UInt8 :=
  (List.range sb.totalBlocks).map fun b =>
    if b < sb.dataStartBlock then 1 else if b ∈ S then 2 else 0

/-- The blocks `bs` can be claimed one after the other when those in `S` are taken. -/
structure Claimable (sb : Superblock) (V : View) (S bs : List Nat) : Prop where
  range : ∀ b ∈ bs, sb.InData b
  bits : ∀ b ∈ bs, V.blockBit b = true
  nodup : bs.Nodup
  fresh : ∀ b ∈ bs, b ∉ S

section
variable {S S' bs cs : List Nat}

theorem marks_congr (h : ∀ b, b ∈ S ↔ b ∈ S') : marks sb S = marks sb S' := by
  simp only [marks, h]

theorem length_marks : (marks sb S).length = sb.totalBlocks := by
  rw [marks, length_map, length_range]

theorem getElem?_marks (hb : sb.InData b) : (marks sb S)[b]? = some (if b ∈ S then 2 else 0) := by
  rw [marks, getElem?_map, getElem?_range hb.2, Option.map_some, if_neg (Nat.not_lt.mpr hb.1)]

theorem set_marks (hb : sb.InData b) : (marks sb S).set b 2 = marks sb (S ++ [b]) := by
  apply ext_getElem?
  intro i
  by_cases hi : i < sb.totalBlocks
  · rw [getElem?_set]
    by_cases hbi : b = i
    · subst hbi
      rw [if_pos rfl, if_pos (by rw [length_marks]; exact hi), getElem?_marks hb]
      simp
    · rw [if_neg hbi, marks, marks, getElem?_map, getElem?_map, getElem?_range hi]
      simp [Ne.symm hbi]
  · rw [getElem?_eq_none (by rw [length_set, length_marks]; omega),
      getElem?_eq_none (by rw [length_marks]; omega)]

theorem Claimable.nil : Claimable sb V S [] := ⟨by simp, by simp, nodup_nil, by simp⟩

theorem claimable_append :
    Claimable sb V S (bs ++ cs) ↔ Claimable sb V S bs ∧ Claimable sb V (S ++ bs) cs := by
  constructor
  · intro h
    have hnd := nodup_append.mp h.nodup
    refine ⟨⟨fun b hb => h.range b (mem_append_left _ hb),
      fun b hb => h.bits b (mem_append_left _ hb), hnd.1,
      fun b hb => h.fresh b (mem_append_left _ hb)⟩,
      ⟨fun b hb => h.range b (mem_append_right _ hb),
      fun b hb => h.bits b (mem_append_right _ hb), hnd.2.1, fun b hb hm => ?_⟩⟩
    rcases mem_append.mp hm with hS | hbs
    · exact h.fresh b (mem_append_right _ hb) hS
    · exact hnd.2.2 b hbs b hb rfl
  · rintro ⟨h₁, h₂⟩
    refine ⟨?_, ?_, nodup_append.mpr ⟨h₁.nodup, h₂.nodup, ?_⟩, ?_⟩
    · exact forall_mem_append.mpr ⟨h₁.range, h₂.range⟩
    · exact forall_mem_append.mpr ⟨h₁.bits, h₂.bits⟩
    · rintro b hb c hc rfl
      exact h₂.fresh b hc (mem_append_right _ hb)
    · refine forall_mem_append.mpr ⟨h₁.fresh, fun b hb hS => ?_⟩
      exact h₂.fresh b hb (mem_append_left _ hS)

theorem Claimable.perm (h : Claimable sb V S bs) (hp : bs.Perm cs) : Claimable sb V S cs :=
  ⟨fun b hb => h.range b (hp.mem_iff.mpr hb), fun b hb => h.bits b (hp.mem_iff.mpr hb),
    hp.nodup_iff.mp h.nodup, fun b hb => h.fresh b (hp.mem_iff.mpr hb)⟩

end

theorem claimDataBlock_decides (h : Ready d sb) :
    Result.Decides (claimDataBlock sb (bitmapOf sb d) (marks sb S) b)
      (Claimable sb (viewOf sb d) S [b]) (marks sb (S ++ [b])) := by
  unfold claimDataBlock
  by_cases hb : sb.InData b
  case neg =>
    rw [Result.ensure_neg (by simp only [Superblock.InData] at hb; omega)]
    exact .fail _ _ fun hc => hb (hc.range b mem_cons_self)
  have htotal := h.valid.total_le
  rw [Result.ensure_pos (by simp only [Superblock.InData] at hb; omega),
    h.bitmapBit_run (by have := hb.2; omega), getElem?_marks hb]
  refine Result.Decides.congr (.guard fun hbit => .guard fun hfree => .of_ok rfl) ?_
    fun _ => set_marks hb
  constructor
  · rintro ⟨hbit, hfree, -⟩
    refine ⟨by simpa using hb, by simpa using hbit, nodup_singleton b, ?_⟩
    simp only [mem_singleton, forall_eq]
    intro hS
    simp [hS] at hfree
  · intro hc
    refine ⟨hc.bits b mem_cons_self, ?_, trivial⟩
    rw [if_neg (hc.fresh b mem_cons_self)]

def inUse (used : Nat) (pointer : Nat → Nat) (l : List Nat) : List Nat :=
  (l.filter (· < used)).map pointer

theorem pointers_decides (h : Ready d sb) (S : List Nat) (used : Nat) (pointer : Nat → Nat)
    (cs : List Nat) {g : List UInt8 → Nat → Result FsError (List UInt8)}
    (hg : ∀ i ∈ cs, ∀ owners,
      g owners i = validatePointer sb (bitmapOf sb d) used owners (pointer i, i)) :
    Result.Decides (cs.foldlM g (marks sb S))
      (Claimable sb (viewOf sb d) S (inUse used pointer cs) ∧
        ∀ i ∈ cs, used ≤ i → pointer i = 0)
      (marks sb (S ++ inUse used pointer cs)) := by
  have hstart : marks sb S = marks sb (S ++ inUse used pointer []) := by
    rw [inUse, filter_nil, map_nil, append_nil]
  rw [hstart]
  refine .foldlM (fun l => Claimable sb (viewOf sb d) S (inUse used pointer l) ∧
      ∀ i ∈ l, used ≤ i → pointer i = 0) (fun l => marks sb (S ++ inUse used pointer l))
    cs ⟨.nil, by simp⟩ ?_ ?_
  · intro l i r hl hgood
    rw [hg i (by rw [hl]; simp), validatePointer]
    by_cases hi : i < used
    · have happend : inUse used pointer (l ++ [i]) = inUse used pointer l ++ [pointer i] := by
        rw [inUse, filter_append, filter_cons_of_pos (by simpa using hi), map_append]
        rfl
      simp only [if_pos hi]
      refine (claimDataBlock_decides h).congr ?_ fun _ => by rw [happend, append_assoc]
      rw [happend, claimable_append]
      constructor
      · intro hc
        refine ⟨⟨hgood.1, hc⟩, forall_mem_append.mpr ⟨hgood.2, fun j hj hle => ?_⟩⟩
        rw [mem_singleton.mp hj] at hle
        omega
      · exact fun hc => hc.1.2
    · have happend : inUse used pointer (l ++ [i]) = inUse used pointer l := by
        rw [inUse, filter_append, filter_cons_of_neg (by simpa using hi), filter_nil, append_nil]
        rfl
      simp only [if_neg hi]
      by_cases hz : pointer i = 0
      · rw [if_neg (not_not.mpr hz)]
        refine (Result.Decides.of_ok rfl).congr ?_ fun _ => by rw [happend]
        refine ⟨fun _ => ⟨happend ▸ hgood.1, forall_mem_append.mpr ⟨hgood.2, ?_⟩⟩,
          fun _ => trivial⟩
        intro j hj _
        rw [mem_singleton.mp hj, hz]
      · rw [if_pos hz]
        exact .fail _ _ fun hc => hz (hc.2 i (by simp) (by omega))
  · intro l i hgood
    refine ⟨?_, fun j hj => hgood.2 j (mem_append_left _ hj)⟩
    have hc := hgood.1
    rw [inUse, filter_append, map_append, claimable_append] at hc
    exact hc.1

/-! ## Inodes -/

/-- The blocks of an inode are in order when those in `S` are taken. -/
structure Fine (sb : Superblock) (V : View) (S : List Nat) (I : Inode) : Prop where
  count : I.blockCount = dataBlocksForSize I.size
  count_le : I.blockCount ≤ 524
  unused : ∀ i, I.blockCount ≤ i → i < 524 → V.pointer I i = 0
  tight : Tight I
  claimable : Claimable sb V S (V.owned I)

theorem filter_lt_range (n m : Nat) : (range n).filter (· < m) = range (min n m) := by
  induction n with
  | zero => rw [Nat.zero_min]; rfl
  | succ n ih =>
    rw [range_succ, filter_append, ih]
    by_cases hn : n < m
    · rw [filter_cons_of_pos (by simpa using hn), Nat.min_eq_left hn, Nat.min_eq_left hn.le,
        range_succ]
      rfl
    · rw [filter_cons_of_neg (by simpa using hn), Nat.min_eq_right (by omega),
        Nat.min_eq_right (by omega)]
      exact append_nil _

theorem inUse_range (n used : Nat) (pointer : Nat → Nat) :
    inUse used pointer (range n) = (range (min n used)).map pointer := by
  rw [inUse, filter_lt_range]

theorem zipIdx_directBlocks (V : View) :
    I.directBlocks.toList.zipIdx = (range 12).map fun i => (V.pointer I i, i) := by
  apply ext_getElem
  · simp
  · intro i h₁ h₂
    have hi : i < 12 := by simpa using h₁
    simp [View.pointer_direct hi]

theorem blocks_split (hc : 12 ≤ I.blockCount) : V.blocks I =
    (range 12).map (V.pointer I) ++
      (range (I.blockCount - 12)).map fun i => V.pointer I (12 + i) := by
  rw [View.blocks, show I.blockCount = 12 + (I.blockCount - 12) by omega, range_add,
    map_append, map_map]
  simp only [Nat.add_sub_cancel_left]
  rfl

theorem viewOf_data (hb : sb.InData b) : (viewOf sb d).data b = blockAt d b := if_pos hb

theorem Ready.data_zero (h : Ready d sb) : (viewOf sb d).data 0 = [] := by
  have := h.valid.table_lt
  exact if_neg (by omega)

theorem direct_decides (h : Ready d sb) (used : Nat) :
    Result.Decides (I.directBlocks.toList.zipIdx.foldlM
        (validatePointer sb (bitmapOf sb d) (min used directBlocks)) (marks sb S))
      (Claimable sb (viewOf sb d) S ((range (min used 12)).map ((viewOf sb d).pointer I)) ∧
        ∀ i < 12, used ≤ i → (viewOf sb d).pointer I i = 0)
      (marks sb (S ++ (range (min used 12)).map ((viewOf sb d).pointer I))) := by
  rw [zipIdx_directBlocks (viewOf sb d)]
  have hd := pointers_decides h S (min used 12) ((viewOf sb d).pointer I) (range 12)
    (g := fun owners i => validatePointer sb (bitmapOf sb d) (min used 12) owners
      ((viewOf sb d).pointer I i, i)) fun _ _ _ => rfl
  rw [inUse_range, show min 12 (min used 12) = min used 12 by omega] at hd
  refine hd.congr ?_ fun _ => rfl
  simp only [mem_range]
  refine and_congr_right fun _ => ⟨fun hz i hi hu => hz i hi (by omega), fun hz i hi hu => hz i hi ?_⟩
  omega

theorem owned_short (hc : I.blockCount ≤ 12) (hz : I.indirectBlock = 0) :
    V.owned I = (range (min I.blockCount 12)).map (V.pointer I) := by
  rw [View.owned, if_pos ⟨hc, hz⟩, append_nil, View.blocks, Nat.min_eq_left hc]

theorem owned_long (hc : 12 < I.blockCount) :
    ((range 12).map (V.pointer I) ++ [I.indirectBlock] ++
      (range (I.blockCount - 12)).map fun i => V.pointer I (12 + i)).Perm (V.owned I) := by
  rw [View.owned, if_neg (by omega), blocks_split hc.le, append_assoc]
  exact Perm.append_left _ perm_append_comm

theorem indirect_decides (h : Ready d sb) (S : List Nat) (hb : sb.InData I.indirectBlock) :
    Result.Decides ((range indirectPointers).foldlM (fun owners index => do
        let pointer ← getU64 (blockAt d I.indirectBlock) (index * 8)
        validatePointer sb (bitmapOf sb d) (I.blockCount - directBlocks) owners (pointer, index))
        (marks sb S))
      (Claimable sb (viewOf sb d) S
          ((range (min 512 (I.blockCount - 12))).map fun i => (viewOf sb d).pointer I (12 + i)) ∧
        ∀ i, I.blockCount ≤ i → 12 ≤ i → i < 524 → (viewOf sb d).pointer I i = 0)
      (marks sb (S ++
        (range (min 512 (I.blockCount - 12))).map fun i => (viewOf sb d).pointer I (12 + i))) := by
  have hlen := h.length_blockAt hb.2
  have hd := pointers_decides h S (I.blockCount - 12) (fun i => (viewOf sb d).pointer I (12 + i))
    (range 512) (g := fun owners index => do
      let pointer ← getU64 (blockAt d I.indirectBlock) (index * 8)
      validatePointer sb (bitmapOf sb d) (I.blockCount - directBlocks) owners (pointer, index)) <| by
    intro i hi owners
    have hi := mem_range.mp hi
    rw [getU64, getLe_eq (by omega), Result.bind_ok, View.pointer_indirect (by omega),
      viewOf_data hb, Nat.add_sub_cancel_left, Nat.mul_comm]
  rw [inUse_range] at hd
  refine hd.congr ?_ fun _ => rfl
  simp only [mem_range]
  refine and_congr_right fun _ => ⟨fun hz i hi hlo hhi => ?_, fun hz i hi hu => ?_⟩
  · have := hz (i - 12) (by omega) (by omega)
    rwa [show 12 + (i - 12) = i by omega] at this
  · exact hz (12 + i) (by omega) (by omega) (by omega)

theorem validateInodeBlocks_decides (h : Ready d sb) :
    Decides (validateInodeBlocks sb (bitmapOf sb d) (marks sb S) I) d
      (Fine sb (viewOf sb d) S I) (marks sb (S ++ (viewOf sb d).owned I)) := by
  have hpass : ¬(dataBlocksForSize I.size ≠ I.blockCount ∨ dataBlocksForSize I.size > maxFileBlocks)
      ↔ I.blockCount = dataBlocksForSize I.size ∧ I.blockCount ≤ 524 := by
    simp only [maxFileBlocks, directBlocks, indirectPointers, blockSize]
    omega
  unfold validateInodeBlocks
  by_cases hshort : dataBlocksForSize I.size ≤ 12
  · refine Decides.congr (.guard fun _ =>
      .bind (.lift (direct_decides h (dataBlocksForSize I.size))) fun _ =>
      .ite_pos hshort (.guard fun _ => .of_ok rfl)) ?_ ?_
    · rw [hpass]
      constructor
      · rintro ⟨⟨hc, hle⟩, ⟨hclaim, hzero⟩, hz, -⟩
        rw [← hc] at hclaim hzero hshort
        refine ⟨hc, hle, fun i hi hlt => ?_, fun _ => hz, (owned_short hshort hz).symm ▸ hclaim⟩
        by_cases h12 : i < 12
        · exact hzero i h12 hi
        · rw [View.pointer_indirect (by omega), hz, h.data_zero, le_nil]
      · intro hf
        have hclaim := hf.claimable
        rw [← hf.count] at hshort ⊢
        rw [owned_short hshort (hf.tight hshort)] at hclaim
        exact ⟨⟨rfl, hf.count_le⟩, ⟨hclaim, fun i hi hu => hf.unused i hu (by omega)⟩,
          hf.tight hshort, trivial⟩
    · rintro ⟨hcount, -, hz, -⟩
      rw [← (hpass.mp hcount).1] at hshort ⊢
      rw [owned_short hshort hz]
  · by_cases hcount : I.blockCount = dataBlocksForSize I.size ∧ I.blockCount ≤ 524
    case neg =>
      exact ⟨_, ensure_bind_neg (mt hpass.mp hcount) ..,
        .inr ⟨fun hf => hcount ⟨hf.count, hf.count_le⟩, _, rfl⟩⟩
    have hlong : 12 < I.blockCount := by omega
    have hmin' : min 512 (I.blockCount - 12) = I.blockCount - 12 := by omega
    rw [← hcount.1]
    refine Decides.congr (.guard fun _ =>
      .bind (.lift (direct_decides h I.blockCount)) fun _ =>
      .ite_neg (Nat.not_le.mpr hlong) (.bind (.lift (claimDataBlock_decides h))
        fun hclaim => .bind_ok (readBlock_run h (hclaim.range _ mem_cons_self).2)
          (.lift (indirect_decides h _ (hclaim.range _ mem_cons_self))))) ?_ ?_
    · rw [Nat.min_eq_right hlong.le, hmin']
      have hperm := owned_long (V := viewOf sb d) hlong
      constructor
      · rintro ⟨-, ⟨hdirect, hzero⟩, hindirect, hrest, hzero'⟩
        refine ⟨hcount.1, hcount.2, fun i hi hlt => hzero' i hi (by omega) hlt, fun hle => ?_,
          (claimable_append.mpr ⟨claimable_append.mpr ⟨hdirect, hindirect⟩, ?_⟩).perm hperm⟩
        · omega
        · rwa [← append_assoc]
      · intro hf
        obtain ⟨hfront, hrest⟩ := claimable_append.mp (hf.claimable.perm hperm.symm)
        obtain ⟨hdirect, hindirect⟩ := claimable_append.mp hfront
        rw [← append_assoc] at hrest
        refine ⟨?_, ⟨hdirect, fun i hi hu => ?_⟩, hindirect, hrest,
          fun i hi _ hlt => hf.unused i hi hlt⟩
        · rw [← hcount.1] at hpass
          exact hpass.mpr ⟨rfl, hcount.2⟩
        · omega
    · intro _
      rw [Nat.min_eq_right hlong.le, hmin']
      apply marks_congr
      intro b
      simp only [append_assoc, mem_append, ← (owned_long (V := viewOf sb d) hlong).mem_iff]

/-! ## The scan -/

def claimed (V : View) (l : List Nat) : List Nat :=
  l.flatMap fun n => ((V.inode n).map V.owned).getD []

def countKind (V : View) (kind : FileType) (l : List Nat) : Nat :=
  l.countP fun n => (V.inode n).any fun I => I.kind == kind

def scanOf (sb : Superblock) (V : View) (l : List Nat) : Scan where
  owners := marks sb (claimed V l)
  inodes := (List.range sb.slots).map fun n => if n ∈ l then V.inode n else none
  allocatedInodes := l.countP V.inodeBit
  files := countKind V .regular l
  directories := countKind V .directory l

/-- What the scan asks of inode `n` when the blocks in `S` are taken. -/
structure SlotFine (sb : Superblock) (V : View) (S : List Nat) (n : Nat) (I : Inode) : Prop
    extends Fine sb V S I where
  slot : V.slot n = .ok I
  root : n = 1 → I.kind = .directory
  whole : I.kind = .directory → I.size % 256 = 0

/-- The scan accepts the inodes in `l`. -/
def Scanned (sb : Superblock) (V : View) (l : List Nat) : Prop :=
  ∀ l₁ n l₂, l = l₁ ++ n :: l₂ → V.inodeBit n = true →
    ∃ I, SlotFine sb V (claimed V l₁) n I

variable {l : List Nat} {n : Nat}

theorem scanned_concat : Scanned sb V (l ++ [n]) ↔
    Scanned sb V l ∧ (V.inodeBit n = true → ∃ I, SlotFine sb V (claimed V l) n I) := by
  constructor
  · intro h
    refine ⟨fun l₁ m l₂ hl => h l₁ m (l₂ ++ [n]) (by rw [hl, append_assoc]; rfl),
      h l n [] rfl⟩
  · rintro ⟨h, hn⟩ l₁ m l₂ hl hbit
    cases l₂ using reverseRecOn with
    | nil =>
      obtain ⟨rfl, hm⟩ := append_inj' hl rfl
      cases hm
      exact hn hbit
    | append_singleton l₂ k =>
      rw [← cons_append, ← append_assoc] at hl
      exact h l₁ m l₂ (append_inj' hl rfl).1 hbit

theorem Ready.readInode_run (h : Ready d sb) (hn : n < sb.slots) :
    readInode sb n d = ((viewOf sb d).slot n, d) := by
  have hdt := h.valid.data_lt
  have hlim := h.total_lt
  have hdiv : n * 256 / 4096 = n / 16 := by omega
  have hmod : n * 256 % 4096 = 256 * (n % 16) := by omega
  have hblock : sb.inodeTableBlock + n / 16 < sb.totalBlocks := by
    have := hn
    simp only [Superblock.slots] at this
    omega
  have hlen := h.length_blockAt hblock
  unfold readInode
  rw [h.valid.inodeCount, lift_ok_bind, ensure_bind_pos hn]
  simp only [inodeSize]
  rw [checkedMul_eq (by omega), okOr_some, pure_bind_run, hdiv, addU64_eq (by omega),
    lift_ok_bind, hmod, bind_of_ok (readBlock_run h hblock), lift_run,
    rangeOf_eq (by omega), Result.bind_ok, Nat.add_sub_cancel_left]
  simp only [viewOf, if_pos hn]

theorem scanOf_free (hbit : V.inodeBit n = false) : scanOf sb V (l ++ [n]) = scanOf sb V l := by
  have hnone : V.inode n = none := by simp [View.inode, hbit]
  have hinodes : ∀ m, (if m ∈ l ++ [n] then V.inode m else none) =
      if m ∈ l then V.inode m else none := by
    intro m
    by_cases hm : m = n
    · subst hm
      simp [hnone]
    · simp [hm]
  simp only [scanOf, claimed, countKind, hinodes]
  simp [hnone, hbit]

theorem scanOf_allocated (hn : V.inode n = some I) (hlt : n < sb.slots) :
    scanOf sb V (l ++ [n]) =
      { owners := marks sb (claimed V l ++ V.owned I)
        inodes := (scanOf sb V l).inodes.set n (some I)
        allocatedInodes := l.countP V.inodeBit + 1
        files := countKind V .regular l + if I.kind = .regular then 1 else 0
        directories := countKind V .directory l + if I.kind = .directory then 1 else 0 } := by
  have hbit := (View.inode_eq_some.mp hn).2.1
  simp only [scanOf, Scan.mk.injEq]
  refine ⟨?_, ?_, ?_, ?_, ?_⟩
  · simp [claimed, hn]
  · apply ext_getElem?
    intro m
    rw [getElem?_set]
    by_cases hm : n = m
    · subst hm
      simp [hn, hlt]
    · rw [if_neg hm, getElem?_map, getElem?_map]
      cases hr : (range sb.slots)[m]? with
      | none => rfl
      | some k =>
        have hk : k = m := by
          have := List.getElem?_eq_some_iff.mp hr
          simpa using this.2.symm
        simp [hk, Ne.symm hm]
  · simp [hbit]
  all_goals simp [countKind, hn]

theorem Ready.length_slot (h : Ready d sb) (hn : n < sb.slots) :
    (slice (blockAt d (sb.inodeTableBlock + n / 16)) (256 * (n % 16)) 256).length = 256 := by
  have hlen : (blockAt d (sb.inodeTableBlock + n / 16)).length = 4096 := by
    refine h.length_blockAt ?_
    have := h.valid.data_lt
    simp only [Superblock.slots] at hn
    omega
  exact length_slice (by omega)

theorem Ready.slot_total (h : Ready d sb) : ((viewOf sb d).slot n).Total := by
  simp only [viewOf]
  split
  · rename_i hn
    exact Inode.decode_total (h.length_slot hn)
  · exact .inr ⟨_, rfl⟩

theorem fits_of_slot (hI : (viewOf sb d).slot n = .ok I) : I.Fits := by
  simp only [viewOf] at hI
  split at hI
  · exact Inode.fits_of_decode hI
  · cases hI

theorem scanInode_decides (h : Ready d sb) (hn : 1 ≤ n) (hlt : n < sb.slots)
    (hlen : l.length < sb.slots) :
    Decides (scanInode sb (blockAt d 2) (bitmapOf sb d) (scanOf sb (viewOf sb d) l) n) d
      ((viewOf sb d).inodeBit n = true →
        ∃ I, SlotFine sb (viewOf sb d) (claimed (viewOf sb d) l) n I)
      (scanOf sb (viewOf sb d) (l ++ [n])) := by
  have hslots := h.valid.slots_le
  have hblock : (blockAt d 2).length = 4096 :=
    h.length_blockAt (by have := h.valid.total_ge; omega)
  have hbitmap : bitmapBit (blockAt d 2) n = .ok ((viewOf sb d).inodeBit n) :=
    bitmapBit_eq (by omega)
  unfold scanInode
  rw [hbitmap]
  cases hbit : (viewOf sb d).inodeBit n with
  | false =>
    rw [scanOf_free hbit]
    exact ⟨_, rfl, .inl ⟨fun hc => (nomatch hc), rfl⟩⟩
  | true =>
    have hcount : ∀ p : Nat → Bool, addU64 (l.countP p) 1 = (.ok (l.countP p + 1) : Result FsError _) :=
      fun p => addU64_eq ((Nat.succ_le_succ countP_le_length).trans_lt (by omega))
    refine .bind_ok rfl (.ite_neg (by decide) (.bind_ok (by rw [scanOf, hcount]; rfl) ?_))
    obtain ⟨I, hslot⟩ | ⟨e, hslot⟩ := h.slot_total
    case inr =>
      refine ⟨_, bind_of_error (by rw [h.readInode_run hlt, hslot]), .inr ⟨fun hc => ?_, e, rfl⟩⟩
      obtain ⟨I, hI⟩ := hc rfl
      exact nomatch hslot.symm.trans hI.slot
    have hI : (viewOf sb d).inode n = some I := View.inode_eq_some.mpr ⟨by omega, hbit, hslot⟩
    have htail : ∀ counts : Nat × Nat, Decides (do
        let owners ← validateInodeBlocks sb (bitmapOf sb d) (scanOf sb (viewOf sb d) l).owners I
        let inodes ← lift (store (scanOf sb (viewOf sb d) l).inodes n (some I))
        pure { owners := owners, inodes := inodes,
               allocatedInodes := l.countP (viewOf sb d).inodeBit + 1,
               files := counts.1, directories := counts.2 : Scan }) d
        (Fine sb (viewOf sb d) (claimed (viewOf sb d) l) I)
        { owners := marks sb (claimed (viewOf sb d) l ++ (viewOf sb d).owned I)
          inodes := (scanOf sb (viewOf sb d) l).inodes.set n (some I)
          allocatedInodes := l.countP (viewOf sb d).inodeBit + 1
          files := counts.1, directories := counts.2 } := by
      intro counts
      refine ((validateInodeBlocks_decides h).bind fun _ =>
        .bind_ok (a := (scanOf sb (viewOf sb d) l).inodes.set n (some I)) ?_ (.of_ok rfl)).congr
        (and_iff_left trivial) fun _ => rfl
      rw [store_eq (by simpa [scanOf] using hlt), lift_run]
    have hslotFine : (∃ J, SlotFine sb (viewOf sb d) (claimed (viewOf sb d) l) n J) ↔
        SlotFine sb (viewOf sb d) (claimed (viewOf sb d) l) n I := by
      refine ⟨?_, fun hf => ⟨I, hf⟩⟩
      rintro ⟨J, hJ⟩
      cases hslot.symm.trans hJ.slot
      exact hJ
    rw [scanOf_allocated hI hlt]
    refine .congr (.bind_ok (by rw [h.readInode_run hlt, hslot]) (.guard
      (Q := (I.kind = .directory → I.size % 256 = 0) ∧
        Fine sb (viewOf sb d) (claimed (viewOf sb d) l) I) fun _ => ?_)) ?_ fun _ => rfl
    · cases hk : I.kind with
      | regular =>
        refine (Decides.bind_ok (a := countKind (viewOf sb d) .regular l + 1)
          (by simp only [scanOf, countKind, hcount, lift_run]) (.bind_ok rfl (htail _))).congr ?_
          fun _ => rfl
        exact ⟨fun hf => ⟨nofun, hf⟩, fun hf => hf.2⟩
      | directory =>
        refine (Decides.bind_ok (a := countKind (viewOf sb d) .directory l + 1)
          (by simp only [scanOf, countKind, hcount, lift_run])
          (.guard fun _ => .bind_ok rfl (htail _))).congr ?_ fun _ => rfl
        exact ⟨fun hf => ⟨fun _ => hf.1, hf.2⟩, fun hf => ⟨hf.1 rfl, hf.2⟩⟩
    · rw [hslotFine, h.valid.root_eq]
      constructor
      · rintro ⟨hroot, hwhole, hfine⟩ -
        exact ⟨hfine, hslot, fun hn => by_contra fun hk => hroot ⟨hn, hk⟩, hwhole⟩
      · intro hf
        have hf := hf rfl
        exact ⟨fun hc => hc.2 (hf.root hc.1), hf.whole, hf.toFine⟩

def Superblock.inodeNumbers (sb : Superblock) : List Nat := List.range' 1 (sb.slots - 1)

theorem mem_inodeNumbers : n ∈ sb.inodeNumbers ↔ 1 ≤ n ∧ n < sb.slots := by
  rw [Superblock.inodeNumbers, mem_range'_1]
  omega

theorem scan_decides (h : Ready d sb) :
    Decides (sb.inodeNumbers.foldlM (scanInode sb (blockAt d 2) (bitmapOf sb d))
        (scanOf sb (viewOf sb d) [])) d
      (Scanned sb (viewOf sb d) sb.inodeNumbers) (scanOf sb (viewOf sb d) sb.inodeNumbers) := by
  refine .foldlM _ _ _ (fun l₁ n l₂ hl => ?_) ?_ fun l n hgood => (scanned_concat.mp hgood).1
  · cases l₁ <;> cases hl
  · intro l n r hl hgood
    have hn : n ∈ sb.inodeNumbers := hl ▸ by simp
    have hlen : sb.inodeNumbers.length = sb.slots - 1 := length_range'
    rw [hl, length_append] at hlen
    obtain ⟨hpos, hlt⟩ := mem_inodeNumbers.mp hn
    exact (scanInode_decides h hpos hlt (by omega)).congr
      (scanned_concat.trans (and_iff_right hgood)).symm fun _ => rfl

end NexOs.Nexfs
