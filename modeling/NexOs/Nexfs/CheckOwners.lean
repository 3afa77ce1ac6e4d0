import NexOs.Nexfs.CheckScan

/-! The passes of the checker that compare the bitmaps with what the scan has
found. Together they hold exactly when every block in use has one owner. -/
namespace NexOs.Nexfs
open List Bytes Storage Function Result

section
variable {d : Disk} {sb : Superblock}

theorem Ready.length_inodeBitmap (h : Ready d sb) : (blockAt d 2).length = 4096 :=
  h.length_blockAt (by have := h.valid.total_ge; omega)

theorem Ready.inodeBit_run (h : Ready d sb) (hn : n < 32768) :
    bitmapBit (blockAt d 2) n = .ok ((viewOf sb d).inodeBit n) :=
  bitmapBit_eq (by rw [h.length_inodeBitmap]; omega)

def reservedUpTo (sb : Superblock) (l : List Nat) : List UInt8 :=
  (List.range sb.totalBlocks).map fun b => if b ∈ l then 1 else 0

theorem reserved_decides (h : Ready d sb) :
    Decides ((range sb.dataStartBlock).foldlM (fun owners block => do
      ensure ((← bitmapBit (bitmapOf sb d) block) = true) .invalidLayout
      ensure ((← index owners block) = 0) .invalidLayout
      store owners block 1) (replicate sb.totalBlocks 0))
      (∀ b < sb.dataStartBlock, (viewOf sb d).blockBit b = true) (marks sb []) := by
  have hdt := h.valid.data_lt
  have htotal := h.valid.total_le
  have hstart : replicate sb.totalBlocks 0 = reservedUpTo sb [] := by
    simp [reservedUpTo]
  have hstop : marks sb [] = reservedUpTo sb (range sb.dataStartBlock) := by
    simp [reservedUpTo, marks]
  have hgood : (∀ b < sb.dataStartBlock, (viewOf sb d).blockBit b = true) ↔
      ∀ b ∈ range sb.dataStartBlock, (viewOf sb d).blockBit b = true := by
    simp only [mem_range]
  rw [hstart, hstop, hgood]
  refine .foldlM (fun l => ∀ b ∈ l, (viewOf sb d).blockBit b = true) _ _ (by simp) ?_
    fun l b hl c hc => hl c (mem_append_left _ hc)
  intro l b r hl hbits
  obtain ⟨rfl, hb⟩ := prefix_of_range hl
  have hget : (reservedUpTo sb (range b))[b]? = some 0 := by
    simp [reservedUpTo, getElem?_range (show b < sb.totalBlocks by omega)]
  have hset : (reservedUpTo sb (range b)).set b 1 = reservedUpTo sb (range b ++ [b]) := by
    apply ext_getElem
    · simp [reservedUpTo]
    · intro i h₁ h₂
      simp only [reservedUpTo]
      by_cases hi : b = i
      · simp [hi]
      · simp [hi, Ne.symm hi]
  rw [h.bitmapBit_run (by omega)]
  refine Decides.congr (.guard (Q := True)
    (b := reservedUpTo sb (range b ++ [b])) fun _ => ?_) ?_ fun _ => rfl
  · rw [index_eq hget,
      store_eq (by simp only [reservedUpTo, length_map, length_range]; omega), hset]
    exact .of_ok rfl
  · rw [and_iff_left trivial, forall_mem_append, and_iff_right hbits, forall_mem_singleton]

theorem requireBits_decides {bitmap : List UInt8} {bits : List Nat}
    {expected : Nat → Result FsError Bool} {value : Nat → Bool} (want : Nat → Bool)
    (hv : ∀ b ∈ bits, bitmapBit bitmap b = .ok (value b))
    (he : ∀ b ∈ bits, expected b = .ok (want b)) :
    Decides (requireBits bitmap bits expected) (∀ b ∈ bits, value b = want b) () := by
  refine .forM bits fun b hb => ?_
  rw [hv b hb, he b hb]
  exact .ensure _ _

theorem dataBits_decides (h : Ready d sb) (S : List Nat) :
    Decides (requireBits (bitmapOf sb d)
        (range' sb.dataStartBlock (sb.totalBlocks - sb.dataStartBlock))
        fun block => do .ok ((← index (marks sb S) block) == 2))
      (∀ b, sb.InData b → ((viewOf sb d).blockBit b = true ↔ b ∈ S)) () := by
  have htotal := h.valid.total_le
  have hmem : ∀ b, b ∈ range' sb.dataStartBlock (sb.totalBlocks - sb.dataStartBlock) ↔
      sb.InData b := by
    intro b
    rw [mem_range'_1, Superblock.InData]
    omega
  refine (requireBits_decides (fun b => decide (b ∈ S)) (fun b hb => h.bitmapBit_run ?_)
    fun b hb => ?_).congr ?_ fun _ => rfl
  · have := ((hmem b).mp hb).2
    omega
  · rw [index_eq (getElem?_marks ((hmem b).mp hb)), bind_ok]
    by_cases hS : b ∈ S <;> simp [hS]
  · refine forall_congr' fun b => imp_congr (hmem b) ?_
    rw [Bool.eq_iff_iff, decide_eq_true_eq]

theorem pastBits_decides (h : Ready d sb) :
    Decides (requireBits (bitmapOf sb d)
        (range' sb.totalBlocks ((bitmapOf sb d).length * 8 - sb.totalBlocks))
        fun _ => .ok false)
      (∀ b, sb.totalBlocks ≤ b → (viewOf sb d).blockBit b = false) () := by
  have hlen := h.length_bitmapOf
  refine (requireBits_decides (fun _ => false) (fun b hb => h.bitmapBit_run ?_)
    fun b _ => rfl).congr ?_ fun _ => rfl
  · rw [mem_range'_1] at hb
    omega
  · refine ⟨fun hall b hb => ?_, fun hall b hb => hall b (mem_range'_1.mp hb).1⟩
    by_cases hin : b < 32768 * (sb.inodeTableBlock - 3)
    · refine hall b (mem_range'_1.mpr ⟨hb, ?_⟩)
      omega
    · simp only [viewOf, if_neg hin]

theorem inodeBits_decides (h : Ready d sb) :
    Decides (requireBits (blockAt d 2)
        (range' sb.slots (bitmapBitsPerBlock - sb.slots)) fun _ => .ok false)
      (∀ n, sb.slots ≤ n → (viewOf sb d).inodeBit n = false) () := by
  have hlen := h.length_inodeBitmap
  simp only [bitmapBitsPerBlock, blockSize]
  refine (requireBits_decides (fun _ => false) (fun n hn => h.inodeBit_run ?_)
    fun n _ => rfl).congr ?_ fun _ => rfl
  · rw [mem_range'_1] at hn
    omega
  · refine ⟨fun hall n hn => ?_, fun hall n hn => hall n (mem_range'_1.mp hn).1⟩
    by_cases hin : n < 32768
    · refine hall n (mem_range'_1.mpr ⟨hn, ?_⟩)
      omega
    · exact bit_eq_false_of_length_le (by omega)

end

/-! ## Owners -/

variable {sb : Superblock} {V : View} {n m : Nat} {I : Inode} {b : Nat} {l : List Nat}

theorem mem_claimed : b ∈ claimed V l ↔ ∃ n ∈ l, ∃ I, V.inode n = some I ∧ b ∈ V.owned I := by
  simp only [claimed, mem_flatMap]
  refine exists_congr fun n => and_congr_right fun _ => ?_
  cases V.inode n with
  | none => simp
  | some I => simp

structure BitmapsFine (sb : Superblock) (V : View) : Prop where
  reservedInode : V.inodeBit 0 = true
  rootInode : V.inodeBit 1 = true
  reserved : ∀ b < sb.dataStartBlock, V.blockBit b = true
  scanned : Scanned sb V sb.inodeNumbers
  data : ∀ b, sb.InData b → (V.blockBit b = true ↔ b ∈ claimed V sb.inodeNumbers)
  blockBits : ∀ b, sb.totalBlocks ≤ b → V.blockBit b = false
  inodeBits : ∀ n, sb.slots ≤ n → V.inodeBit n = false

structure Directories (V : View) : Prop where
  root : ∃ I, V.inode 1 = some I ∧ I.kind = .directory
  whole : ∀ n I, V.inode n = some I → I.kind = .directory → I.size % 256 = 0

section
variable (h : BitmapsFine sb V)
include h

theorem BitmapsFine.slotFine (hpos : 1 ≤ n) (hbit : V.inodeBit n = true) : ∃ I l₁ l₂,
    sb.inodeNumbers = l₁ ++ n :: l₂ ∧ SlotFine sb V (claimed V l₁) n I := by
  have hlt : n < sb.slots := by
    by_contra hge
    rw [h.inodeBits n (by omega)] at hbit
    cases hbit
  obtain ⟨l₁, l₂, hl⟩ := append_of_mem (mem_inodeNumbers.mpr ⟨hpos, hlt⟩)
  obtain ⟨I, hI⟩ := h.scanned l₁ n l₂ hl hbit
  exact ⟨I, l₁, l₂, hl, hI⟩

theorem BitmapsFine.fine (hn : V.inode n = some I) : ∃ l₁ l₂,
    sb.inodeNumbers = l₁ ++ n :: l₂ ∧ SlotFine sb V (claimed V l₁) n I := by
  obtain ⟨hpos, hbit, hslot⟩ := View.inode_eq_some.mp hn
  obtain ⟨J, l₁, l₂, hl, hJ⟩ := h.slotFine hpos hbit
  cases hslot.symm.trans hJ.slot
  exact ⟨l₁, l₂, hl, hJ⟩

theorem BitmapsFine.directories : Directories V where
  root := by
    obtain ⟨I, _, _, _, hf⟩ := h.slotFine (Nat.le_refl 1) h.rootInode
    exact ⟨I, View.inode_eq_some.mpr ⟨Nat.le_refl 1, h.rootInode, hf.slot⟩, hf.root rfl⟩
  whole n I hn hk := by
    obtain ⟨_, _, _, hf⟩ := h.fine hn
    exact hf.whole hk

theorem BitmapsFine.fresh (hl : sb.inodeNumbers = l₁ ++ m :: l₂)
    (hJ : SlotFine sb V (claimed V l₁) m J) (hn : V.inode n = some I) (hlt : n < m) :
    ∀ b ∈ V.owned I, b ∉ V.owned J := by
  intro b hI hJ'
  refine hJ.claimable.fresh b hJ' (mem_claimed.mpr ⟨n, ?_, I, hn, hI⟩)
  obtain ⟨k₁, k₂, hk, -⟩ := h.fine hn
  have hmem : n ∈ l₁ ++ m :: l₂ := hl ▸ hk ▸ by simp
  have hsorted : (l₁ ++ m :: l₂).Pairwise (· < ·) := hl ▸ pairwise_lt_range'
  rcases mem_append.mp hmem with hleft | hright
  · exact hleft
  · have hge := (pairwise_append.mp hsorted).2.1
    rcases mem_cons.mp hright with rfl | hright
    · exact absurd hlt (Nat.lt_irrefl _)
    · exact absurd hlt (Nat.lt_asymm ((pairwise_cons.mp hge).1 n hright))

theorem BitmapsFine.owned (hfits : ∀ n I, V.slot n = .ok I → I.Fits) : Owned sb V where
  intact n I hn := by
    obtain ⟨_, _, _, hf⟩ := h.fine hn
    exact ⟨hfits n I hf.slot, hf.count_le, hf.unused, hf.claimable.range, hf.claimable.nodup,
      hf.claimable.bits⟩
  tight n I hn := by
    obtain ⟨_, _, _, hf⟩ := h.fine hn
    exact hf.tight
  count n I hn := by
    obtain ⟨_, _, _, hf⟩ := h.fine hn
    exact hf.count
  disjoint n m I J hn hm hne b hI hJ := by
    obtain ⟨_, _, hln, hfn⟩ := h.fine hn
    obtain ⟨_, _, hlm, hfm⟩ := h.fine hm
    rcases Nat.lt_or_gt_of_ne hne with hlt | hgt
    · exact h.fresh hlm hfm hn hlt b hI hJ
    · exact h.fresh hln hfn hm hgt b hJ hI
  reserved := h.reserved
  owner b hb := by
    by_cases hlow : b < sb.dataStartBlock
    · exact .inl hlow
    · have hhigh : b < sb.totalBlocks := by
        by_contra hge
        rw [h.blockBits b (by omega)] at hb
        cases hb
      obtain ⟨n, -, I, hn, hI⟩ := mem_claimed.mp ((h.data b ⟨by omega, hhigh⟩).mp hb)
      exact .inr ⟨n, I, hn, hI⟩
  reservedInode := h.reservedInode
  inodeBits := h.inodeBits
  decoded n hpos hbit := by
    obtain ⟨I, _, _, _, hf⟩ := h.slotFine hpos hbit
    exact ⟨I, hf.slot⟩

end

theorem Owned.bitmapsFine (h : Owned sb V) (hv : sb.Valid) (hd : Directories V) :
    BitmapsFine sb V where
  reservedInode := h.reservedInode
  rootInode := by
    obtain ⟨I, hI, -⟩ := hd.root
    exact (View.inode_eq_some.mp hI).2.1
  reserved := h.reserved
  scanned l₁ n l₂ hl hbit := by
    have hmem : n ∈ sb.inodeNumbers := hl ▸ by simp
    obtain ⟨hpos, -⟩ := mem_inodeNumbers.mp hmem
    obtain ⟨I, hslot⟩ := h.decoded n hpos hbit
    have hn : V.inode n = some I := View.inode_eq_some.mpr ⟨hpos, hbit, hslot⟩
    have hI := h.intact n I hn
    refine ⟨I, ⟨h.count n I hn, hI.count_le, hI.unused, h.tight n I hn,
      ⟨hI.range, hI.bits, hI.nodup, fun b hb hm => ?_⟩⟩, hslot, ?_, hd.whole n I hn⟩
    · obtain ⟨m, hml, J, hm, hJ⟩ := mem_claimed.mp hm
      have hnd : (l₁ ++ n :: l₂).Nodup := hl ▸ nodup_range'
      have hne : n ≠ m := fun hc => (nodup_append.mp hnd).2.2 m hml n (by simp) hc.symm
      exact h.disjoint n m I J hn hm hne b hb hJ
    · rintro rfl
      obtain ⟨J, hJ, hk⟩ := hd.root
      cases hn.symm.trans hJ
      exact hk
  data b hb := by
    constructor
    · intro hbit
      rcases h.owner b hbit with hlow | ⟨n, I, hn, hI⟩
      · exact absurd hb.1 (Nat.not_le.mpr hlow)
      · have hpos := (View.inode_eq_some.mp hn).1
        exact mem_claimed.mpr ⟨n, mem_inodeNumbers.mpr ⟨hpos, h.lt_slots hn⟩, I, hn, hI⟩
    · intro hm
      obtain ⟨n, -, I, hn, hI⟩ := mem_claimed.mp hm
      exact (h.intact n I hn).bits b hI
  blockBits b hb := by
    by_contra hbit
    rcases h.owner b (by simpa using hbit) with hlow | ⟨n, I, hn, hI⟩
    · have := hv.data_lt
      omega
    · exact absurd ((h.intact n I hn).range b hI).2 (Nat.not_lt.mpr hb)
  inodeBits := h.inodeBits

end NexOs.Nexfs
