import NexOs.Nexfs.Carries
import NexOs.Nexfs.WellFormed

/-! What `format` writes, and that the checker accepts it. -/
namespace NexOs.Nexfs
open List hiding Vector
open Bytes Storage Function NexFs Exec

def putBlocks (d : Disk) (writes : List (Nat × List UInt8)) : Disk :=
  writes.foldl (fun d w => putBlock d w.1 w.2) d

/-- A block of a fresh block bitmap: the reserved blocks are in use. -/
def reservedBits (dataStartBlock index : Nat) : List UInt8 :=
  ((List.range' (32768 * index)
    (min dataStartBlock (32768 * index + 32768) - 32768 * index)).map (· - 32768 * index)).foldl
      (fun bitmap bit => setBit bitmap bit true) zeroBlock

def freshInodeBits : List UInt8 := setBit (setBit zeroBlock 0 true) 1 true

def freshTable (generation : Nat) : List UInt8 :=
  splice zeroBlock 256 (Inode.new .directory 0o755 generation).record

def zeroWrites (sb : Superblock) : List (Nat × List UInt8) :=
  (List.range' 2 (sb.dataStartBlock - 2)).map fun b => (b, zeroBlock)

def bitmapWrites (sb : Superblock) : List (Nat × List UInt8) :=
  (List.range (sb.inodeTableBlock - 3)).map fun i => (3 + i, reservedBits sb.dataStartBlock i)

def metadataWrites (sb : Superblock) : List (Nat × List UInt8) :=
  zeroWrites sb ++ (2, freshInodeBits) :: bitmapWrites sb ++
    [(sb.inodeTableBlock, freshTable sb.generation)]

def formatted (d : Disk) (sb : Superblock) : Disk :=
  flushed (putBlock (putBlocks (flushed (putBlock d 1 sb.dirty.record)) (metadataWrites sb)) 1
    sb.record)

variable {uuid : Vector UInt8 16} {d : Disk} {sb : Superblock}

section
variable {total : Nat}

theorem formatSuperblock_data_lt (h : 32 ≤ total) :
    (formatSuperblock total uuid).dataStartBlock < total := by
  simp only [formatSuperblock, divCeil, bitmapBitsPerBlock, blockSize]
  omega

theorem formatSuperblock_valid (h : 32 ≤ total) : (formatSuperblock total uuid).Valid where
  version_eq := rfl
  blockSize_eq := rfl
  total_ge := h
  inodeBitmap_eq := rfl
  blockBitmap_eq := rfl
  table_eq := by
    simp only [formatSuperblock, divCeil, bitmapBitsPerBlock, blockSize]
    omega
  table_lt := by
    simp only [formatSuperblock]
    omega
  table_le := by
    simp only [formatSuperblock, maxInodeTableBlocks, bitmapBitsPerBlock, inodesPerBlock, blockSize,
      inodeSize]
    omega
  data_lt := formatSuperblock_data_lt h
  root_eq := rfl

theorem formatSuperblock_fits (h : 32 ≤ total) (ht : total < 2 ^ 64) :
    (formatSuperblock total uuid).Fits := by
  have hv : (formatSuperblock total uuid).Valid := formatSuperblock_valid h
  have hdata := hv.data_lt
  have htable := hv.table_lt
  have htotal : (formatSuperblock total uuid).totalBlocks = total := rfl
  exact ⟨(by decide : 1 < 2 ^ 32), (by decide : 4096 < 2 ^ 32), ht, (by decide : 2 < 2 ^ 64),
    (by decide : 3 < 2 ^ 64), by omega, by omega, (by decide : 1 < 2 ^ 64),
    (by decide : 1 < 2 ^ 32), (by decide : 1 < 2 ^ 64)⟩

theorem formatSuperblock_clean : (formatSuperblock total uuid).isClean = true := by
  simp [formatSuperblock, Superblock.isClean]

end

section
variable {ds i : Nat}

theorem mem_reserved : b ∈ range' (32768 * i)
    (min ds (32768 * i + 32768) - 32768 * i) ↔ 32768 * i ≤ b ∧ b < ds ∧ b < 32768 * (i + 1) := by
  rw [mem_range'_1]
  omega

theorem bit_reservedBits (hj : j < 32768) :
    bit (reservedBits ds i) j = decide (32768 * i + j < ds) := by
  have hsmall : ∀ k ∈ (range' (32768 * i) (min ds (32768 * i + 32768) - 32768 * i)).map
      (· - 32768 * i), k / 8 < zeroBlock.length := by
    intro k hk
    obtain ⟨b, hb, rfl⟩ := mem_map.mp hk
    rw [mem_reserved] at hb
    rw [length_zeroBlock]
    omega
  rw [reservedBits, bit_foldl_setBit hsmall, zeroBlock, bit_replicate_zero, Bool.or_false,
    decide_eq_decide, mem_map]
  constructor
  · rintro ⟨b, hb, rfl⟩
    rw [mem_reserved] at hb
    omega
  · intro hlt
    exact ⟨32768 * i + j, mem_reserved.mpr (by omega), by omega⟩

theorem freshBitmapBlock_run (hi : 32768 * (i + 1) < 2 ^ 64) :
    freshBitmapBlock ds i = .ok (reservedBits ds i) ∧ (reservedBits ds i).length = 4096 := by
  have hbits : bitmapBitsPerBlock = 32768 := by decide
  have hmul : checkedMul i 32768 = some (32768 * i) := by
    rw [checkedMul_eq (by omega), Nat.mul_comm]
  have hadd : checkedAdd (32768 * i) 32768 = some (32768 * i + 32768) := checkedAdd_eq (by omega)
  rw [freshBitmapBlock, hbits, hmul, Result.okOr_some, Result.bind_ok, hadd, reservedBits, foldl_map]
  refine Result.foldlM_ok (P := fun bitmap : List UInt8 => bitmap.length = 4096)
    (fun bitmap b hb hlen => ?_) length_zeroBlock
  rw [mem_reserved] at hb
  exact ⟨setBitmapBit_eq (by omega) true, (length_setBit ..).trans hlen⟩

end

section
variable {writes ws : List (Nat × List UInt8)} {w : Nat × List UInt8}

theorem putBlocks_append (ws' : List (Nat × List UInt8)) :
    putBlocks d (ws ++ ws') = putBlocks (putBlocks d ws) ws' := foldl_append

def Fitting (sb : Superblock) (writes : List (Nat × List UInt8)) : Prop :=
  ∀ w ∈ writes, w.1 < sb.totalBlocks ∧ w.2.length = 4096

theorem Ready.putBlocks (h : Ready d sb) (hw : Fitting sb writes) :
    Ready (putBlocks d writes) sb := by
  induction writes generalizing d with
  | nil => exact h
  | cons w ws ih =>
    obtain ⟨hb, hx⟩ := hw w mem_cons_self
    exact ih (h.putBlock hb hx) fun v hv => hw v (mem_cons_of_mem _ hv)

theorem Ready.length_putBlocks (h : Ready d sb) (hw : Fitting sb writes) :
    (Nexfs.putBlocks d writes).bytes.length = d.bytes.length := by
  induction writes generalizing d with
  | nil => rfl
  | cons w ws ih =>
    obtain ⟨hb, hx⟩ := hw w mem_cons_self
    exact (ih (h.putBlock hb hx) fun v hv => hw v (mem_cons_of_mem _ hv)).trans
      (length_putBlock (h.inside hb) hx)

theorem Ready.marked (h : Ready d sb) : Ready (Nexfs.flushed (Nexfs.putBlock d 1 sb.dirty.record)) sb :=
  (h.putBlock h.one_lt sb.dirty.length_record).flushed

theorem sectorSize_putBlocks : (putBlocks d writes).sectorSize = d.sectorSize := by
  induction writes generalizing d with
  | nil => rfl
  | cons w ws ih => exact ih

/-- What the writes leave in block `b`, if they touch it. -/
def lastWrite (writes : List (Nat × List UInt8)) (b : Nat) : Option (List UInt8) :=
  writes.foldl (fun last w => if w.1 = b then some w.2 else last) none

theorem foldl_lastWrite (b : Nat) (last : Option (List UInt8)) :
    ws.foldl (fun last w => if w.1 = b then some w.2 else last) last =
      (lastWrite ws b).or last := by
  induction ws using reverseRecOn with
  | nil => rfl
  | append_singleton ws w ih =>
    rw [foldl_append, ih]
    by_cases hw : w.1 = b <;> simp [hw, lastWrite]

theorem lastWrite_append (ws ws' : List (Nat × List UInt8)) (b : Nat) :
    lastWrite (ws ++ ws') b = (lastWrite ws' b).or (lastWrite ws b) := by
  rw [lastWrite, foldl_append, foldl_lastWrite]
  rfl

theorem lastWrite_singleton (b : Nat) :
    lastWrite [w] b = if w.1 = b then some w.2 else none := rfl

theorem lastWrite_cons (b : Nat) :
    lastWrite (w :: ws) b = (lastWrite ws b).or (if w.1 = b then some w.2 else none) :=
  lastWrite_append [w] ws b

theorem lastWrite_eq_none (h : ∀ w ∈ writes, w.1 ≠ b) : lastWrite writes b = none := by
  induction writes using reverseRecOn with
  | nil => rfl
  | append_singleton ws w ih =>
    rw [lastWrite_append, lastWrite_singleton, if_neg (h w (by simp)),
      ih fun v hv => h v (mem_append_left _ hv)]
    rfl

theorem lastWrite_eq_some (hmem : (b, x) ∈ writes)
    (hsame : ∀ w ∈ writes, w.1 = b → w.2 = x) : lastWrite writes b = some x := by
  induction writes using reverseRecOn with
  | nil => cases hmem
  | append_singleton ws w ih =>
    rw [lastWrite_append, lastWrite_singleton]
    by_cases hw : w.1 = b
    · rw [if_pos hw, hsame w (by simp) hw]
      rfl
    · rw [if_neg hw]
      refine ih ?_ fun v hv => hsame v (mem_append_left _ hv)
      rcases mem_append.mp hmem with hmem | hmem
      · exact hmem
      · exact absurd (congrArg Prod.fst (mem_singleton.mp hmem)).symm hw

theorem blockAt_putBlocks (h : Ready d sb) (hw : Fitting sb writes) (b : Nat) :
    blockAt (putBlocks d writes) b = (lastWrite writes b).getD (blockAt d b) := by
  induction writes using reverseRecOn with
  | nil => rfl
  | append_singleton ws w ih =>
    have hfront : Fitting sb ws := fun v hv => hw v (mem_append_left _ hv)
    obtain ⟨hb, hx⟩ := hw w (by simp)
    have hready := h.putBlocks hfront
    rw [putBlocks_append, lastWrite_append, lastWrite_singleton]
    change blockAt (putBlock (putBlocks d ws) w.1 w.2) b = _
    by_cases heq : w.1 = b
    · rw [← heq, if_pos rfl, blockAt_putBlock_self (hready.inside hb) hx]
      rfl
    · rw [if_neg heq, blockAt_putBlock_of_ne (hready.inside hb) hx (Ne.symm heq), ih hfront]
      rfl

theorem forM_writeBlockAt (h : Ready d sb) {cs : List α} {f : α → Nat × List UInt8}
    (hw : Fitting sb (cs.map f)) {g : α → Exec Disk FsError Unit}
    (hg : ∀ c ∈ cs, ∀ d', g c d' = writeBlockAt (4096 / d.sectorSize) (f c).1 (f c).2 d') :
    cs.forM g d = (.ok (), putBlocks d (cs.map f)) := by
  induction cs generalizing d with
  | nil => rfl
  | cons c cs ih =>
    obtain ⟨hb, hx⟩ := hw (f c) mem_cons_self
    have hfirst : g c d = (.ok (), putBlock d (f c).1 (f c).2) := by
      rw [hg c mem_cons_self, writeBlockAt_run h hb hx]
    change (g c >>= fun _ => cs.forM g) d = _
    rw [bind_of_ok hfirst, ih (h.putBlock hb hx)
      (fun w hm => hw w (mem_cons_of_mem _ hm)) fun c hc => hg c (mem_cons_of_mem _ hc)]
    rfl

end

def blockCount (d : Disk) : Nat := d.sectorCount * d.sectorSize / 4096

/-- A device for the volume that `format` makes. -/
structure NewVolume (d : Disk) (sb : Superblock) : Prop extends Ready d sb where
  fits : sb.Fits
  clean : sb.isClean = true
  size_lt : d.sectorCount * d.sectorSize < 2 ^ 64

theorem newVolume_of_size (ha : Aligned d) (hsize : d.sectorCount * d.sectorSize < 2 ^ 64)
    (h32 : 32 ≤ blockCount d) : NewVolume d (formatSuperblock (blockCount d) uuid) where
  toAligned := ha
  valid := formatSuperblock_valid h32
  room := ha.capacity_le.mp (Nat.mul_div_le _ _)
  total_lt := (Nat.mul_div_le _ _).trans_lt hsize
  fits := formatSuperblock_fits h32 ((Nat.div_le_self _ _).trans_lt hsize)
  clean := formatSuperblock_clean
  size_lt := hsize

theorem length_freshInodeBits : freshInodeBits.length = 4096 := by
  rw [freshInodeBits, length_setBit, length_setBit, length_zeroBlock]

theorem length_freshTable (generation : Nat) : (freshTable generation).length = 4096 := by
  rw [freshTable, length_splice, length_zeroBlock]
  rw [Inode.length_record, length_zeroBlock]
  decide

section
variable (h : sb.Valid) (ht : 4096 * sb.totalBlocks < 2 ^ 64)
include h ht

theorem Superblock.Valid.bitmapBlock_lt (hi : i < sb.inodeTableBlock - 3) :
    32768 * (i + 1) < 2 ^ 64 := by
  have := h.table_eq
  omega

theorem Superblock.Valid.metadata_fitting : Fitting sb (metadataWrites sb) := by
  have htable := h.table_lt
  have hdata := h.data_lt
  have hlow := h.table_ge
  intro w hw
  simp only [metadataWrites, zeroWrites, bitmapWrites, mem_append, mem_cons,
    mem_map, not_mem_nil, or_false, mem_range'_1, mem_range] at hw
  rcases hw with (⟨b, hb, rfl⟩ | rfl | ⟨i, hi, rfl⟩) | rfl
  · exact ⟨by dsimp only; omega, length_zeroBlock⟩
  · exact ⟨by dsimp only; omega, length_freshInodeBits⟩
  · exact ⟨by dsimp only; omega, (freshBitmapBlock_run (h.bitmapBlock_lt ht hi)).2⟩
  · exact ⟨by dsimp only; omega, length_freshTable _⟩

end

section
variable (h : Ready d sb)
include h

theorem zeroLoop_run : ((range' 2 (sb.dataStartBlock - 2)).forM (fun block =>
      writeBlockAt (4096 / d.sectorSize) block zeroBlock) : Exec Disk FsError Unit) d =
    (.ok (), putBlocks d (zeroWrites sb)) := by
  have hfit := h.valid.metadata_fitting h.total_lt
  refine forM_writeBlockAt h (fun w hw => hfit w ?_) fun _ _ _ => rfl
  exact mem_append_left _ (mem_append_left _ hw)

theorem bitmapLoop_run : ((range (sb.inodeTableBlock - 3)).forM (fun index => do
      let blockBitmap ← lift (freshBitmapBlock sb.dataStartBlock index)
      writeBlockAt (4096 / d.sectorSize) (sb.blockBitmapBlock + index) blockBitmap) :
        Exec Disk FsError Unit) d =
    (.ok (), putBlocks d (bitmapWrites sb)) := by
  have hfit := h.valid.metadata_fitting h.total_lt
  refine forM_writeBlockAt h (fun w hw => hfit w ?_) fun i hi d' => ?_
  · exact mem_append_left _ (mem_append_right _ (mem_cons_of_mem _ hw))
  · have hblock := h.valid.bitmapBlock_lt h.total_lt (mem_range.mp hi)
    rw [(freshBitmapBlock_run hblock).1, lift_ok_bind, h.valid.blockBitmap_eq]

theorem writeMetadata_run :
    writeMetadata (4096 / d.sectorSize) sb d = (.ok (), putBlocks d (metadataWrites sb)) := by
  have hv := h.valid
  have hlow := hv.table_lt
  have hdata := hv.data_lt
  have htotal := hv.total_ge
  have hfit := hv.metadata_fitting h.total_lt
  have hzero : replicate blockSize (0 : UInt8) = zeroBlock := rfl
  have h₁ : Ready (putBlocks d (zeroWrites sb)) sb :=
    h.putBlocks fun w hw => hfit w (by simp [metadataWrites, hw])
  have h₂ : Ready (putBlock (putBlocks d (zeroWrites sb)) 2 freshInodeBits) sb :=
    h₁.putBlock (by omega) length_freshInodeBits
  have h₃ : Ready (putBlocks (putBlock (putBlocks d (zeroWrites sb)) 2 freshInodeBits)
      (bitmapWrites sb)) sb :=
    h₂.putBlocks fun w hw => hfit w (by simp [metadataWrites, hw])
  have hrun₂ := writeBlockAt_run h₁ (show 2 < sb.totalBlocks by omega) length_freshInodeBits
  have hrun₃ := bitmapLoop_run h₂
  have hrun₄ := writeBlockAt_run h₃ (show sb.inodeTableBlock < sb.totalBlocks by omega)
    (length_freshTable sb.generation)
  simp only [sectorSize_putBlocks, sectorSize_putBlock] at hrun₂ hrun₃ hrun₄
  unfold writeMetadata
  rw [hv.inodeBitmap_eq, hv.bitmapBlocks, hzero, bind_of_ok (zeroLoop_run h),
    setBitmapBit_eq (by rw [length_zeroBlock]; decide), lift_ok_bind, hv.root_eq,
    setBitmapBit_eq (by rw [length_setBit, length_zeroBlock]; decide), lift_ok_bind,
    ← freshInodeBits, bind_of_ok hrun₂, bind_of_ok hrun₃]
  dsimp only [inodeSize]
  rw [rangeOf_eq (by rw [length_zeroBlock]; decide), lift_ok_bind,
    Inode.encode_eq _ (length_slice (by rw [length_zeroBlock]; decide)), lift_ok_bind,
    copyInto_eq (by rw [Inode.length_record, length_zeroBlock]; decide)]
  refine hrun₄.trans ?_
  rw [metadataWrites, putBlocks_append, putBlocks_append]
  rfl

end

theorem format_run (ha : Aligned d) (hsize : d.sectorCount * d.sectorSize < 2 ^ 64)
    (h32 : 32 ≤ blockCount d) : format uuid d =
      (.ok (formatSuperblock (blockCount d) uuid),
        formatted d (formatSuperblock (blockCount d) uuid)) := by
  have hnew : NewVolume d (formatSuperblock (blockCount d) uuid) := newVolume_of_size ha hsize h32
  generalize hsb : formatSuperblock (blockCount d) uuid = sb at hnew ⊢
  have hready := hnew.toReady
  have hmeta := hready.marked.putBlocks (hready.valid.metadata_fitting hready.total_lt)
  have htotal : d.sectorCount * d.sectorSize / blockSize = blockCount d := rfl
  unfold format
  rw [bind_of_ok (sectorsPerBlock_run ha), bind_of_ok (deviceBytes_run hsize), htotal,
    ensure_bind_pos (Nat.not_lt.mpr h32), hsb]
  have hvalidate : sb.validate = .ok () :=
    (sb.validate_decides (by have := hready.total_lt; omega)).eq_ok hready.valid
  have hlt : ¬sb.dataStartBlock ≥ blockCount d := by
    rw [← hsb]
    exact Nat.not_le.mpr (formatSuperblock_data_lt h32)
  have hflush : ∀ d', storage Disk.flush d' = (.ok (), flushed d') := fun _ => rfl
  have hmetadata : writeMetadata (4096 / d.sectorSize) sb (flushed (putBlock d 1 sb.dirty.record)) =
      (.ok (), _) := writeMetadata_run hready.marked
  rw [ensure_bind_pos hlt, hvalidate, lift_ok_bind, bind_of_ok (writeSuperblock_run hready _),
    bind_of_ok (hflush _), bind_of_ok hmetadata, bind_of_ok (writeSuperblock_run hmeta _)]
  rfl

/-! ## The fresh volume -/

/-- An empty volume: the root directory and nothing else. -/
structure Fresh (sb : Superblock) (V : View) : Prop where
  inodeBit : ∀ n, V.inodeBit n = decide (n < 2)
  blockBit : ∀ b, V.blockBit b = decide (b < sb.dataStartBlock)
  root : V.slot 1 = .ok (Inode.new .directory 0o755 sb.generation)

section
variable (h : Ready d sb)
include h

theorem formatted_blockAt (hb : b ≠ 1) : blockAt (formatted d sb) b =
    (lastWrite (metadataWrites sb) b).getD (blockAt d b) := by
  have hfit := h.valid.metadata_fitting h.total_lt
  have hlast := blockAt_putBlock_of_ne ((h.marked.putBlocks hfit).inside h.one_lt) sb.length_record hb
  have hfirst := blockAt_putBlock_of_ne (h.inside h.one_lt) sb.dirty.length_record hb
  refine hlast.trans ((blockAt_putBlocks h.marked hfit b).trans ?_)
  rw [← hfirst]
  rfl

end

theorem lastWrite_inodeBitmap (h : sb.Valid) : lastWrite (metadataWrites sb) 2 = some freshInodeBits := by
  have htable := h.table_ge
  have hlater : ∀ w ∈ bitmapWrites sb ++ [(sb.inodeTableBlock, freshTable sb.generation)],
      w.1 ≠ 2 := by
    intro w hw
    simp only [bitmapWrites, mem_append, mem_map, mem_singleton] at hw
    rcases hw with ⟨i, -, rfl⟩ | rfl <;> dsimp only <;> omega
  rw [metadataWrites, append_assoc, lastWrite_append, cons_append, lastWrite_cons,
    lastWrite_eq_none hlater]
  rfl

theorem lastWrite_blockBitmap (hi : i < sb.inodeTableBlock - 3) :
    lastWrite (metadataWrites sb) (3 + i) = some (reservedBits sb.dataStartBlock i) := by
  have hbitmap : lastWrite (bitmapWrites sb) (3 + i) = some (reservedBits sb.dataStartBlock i) := by
    refine lastWrite_eq_some (mem_map.mpr ⟨i, mem_range.mpr hi, rfl⟩) ?_
    intro w hw heq
    obtain ⟨j, -, rfl⟩ := mem_map.mp hw
    rw [Nat.add_left_cancel heq]
  rw [metadataWrites, lastWrite_append, lastWrite_singleton, if_neg (by dsimp only; omega),
    lastWrite_append, lastWrite_cons, hbitmap]
  rfl

theorem lastWrite_table :
    lastWrite (metadataWrites sb) sb.inodeTableBlock = some (freshTable sb.generation) := by
  rw [metadataWrites, lastWrite_append, lastWrite_singleton, if_pos rfl]
  rfl

theorem metadata_range (h : sb.Valid) : ∀ w ∈ metadataWrites sb, 2 ≤ w.1 ∧ w.1 < sb.dataStartBlock := by
  have htable := h.table_lt
  have hlow := h.table_ge
  intro w hw
  simp only [metadataWrites, zeroWrites, bitmapWrites, mem_append, mem_cons,
    mem_map, not_mem_nil, or_false, mem_range'_1, mem_range] at hw
  rcases hw with (⟨c, hc, rfl⟩ | rfl | ⟨i, hi, rfl⟩) | rfl <;> dsimp only <;> omega

theorem lastWrite_outside (h : sb.Valid) (hb : b < 2 ∨ sb.dataStartBlock ≤ b) :
    lastWrite (metadataWrites sb) b = none :=
  lastWrite_eq_none fun w hw heq => by
    have := metadata_range h w hw
    omega

section
variable {n : Nat}

theorem freshInodeBits_bit : bit freshInodeBits n = decide (n < 2) := by
  rw [freshInodeBits, bit_setBit (by rw [length_setBit, length_zeroBlock]; decide),
    bit_setBit (by rw [length_zeroBlock]; decide), zeroBlock, bit_replicate_zero]
  by_cases h1 : 1 = n
  · subst h1
    rfl
  · by_cases h0 : 0 = n
    · subst h0
      rfl
    · simp only [h1, h0]
      exact (decide_eq_false (by omega)).symm

theorem fresh_of_metadata (hv : sb.Valid) (hg : sb.generation < 2 ^ 64)
    (h : ∀ b, ∀ x, lastWrite (metadataWrites sb) b = some x → blockAt d b = x) :
    Fresh sb (viewOf sb d) where
  inodeBit n := by
    simp only [viewOf, h 2 _ (lastWrite_inodeBitmap hv), freshInodeBits_bit]
  blockBit b := by
    have htotal := hv.total_le
    have hdata := hv.data_lt
    simp only [viewOf]
    split
    · rename_i hb
      rw [h _ _ (lastWrite_blockBitmap (i := b / 32768) (by omega)),
        bit_reservedBits (Nat.mod_lt _ (by decide)), Nat.div_add_mod]
    · exact (decide_eq_false (by omega)).symm
  root := by
    have hslots := hv.slots_ge
    have hslot : slice (freshTable sb.generation) 256 256 =
        (Inode.new .directory 0o755 sb.generation).record := by
      have hself : slice (splice zeroBlock 256 (Inode.new .directory 0o755 sb.generation).record) 256
          (Inode.new .directory 0o755 sb.generation).record.length = _ :=
        slice_splice_self (by rw [Inode.length_record, length_zeroBlock]; decide)
      rwa [Inode.length_record] at hself
    simp only [viewOf]
    rw [if_pos (by omega)]
    change Inode.decode (slice (blockAt d sb.inodeTableBlock) 256 256) = _
    rw [h _ _ lastWrite_table, hslot]
    exact Inode.decode_record (Carries.fits_new (by decide) hg)

section
variable {V : View} (h : Fresh sb V)
include h

theorem Fresh.inode :
    V.inode n = if n = 1 then some (Inode.new .directory 0o755 sb.generation) else none := by
  by_cases h1 : n = 1
  · rw [h1]
    exact View.inode_eq_some.mpr ⟨Nat.le_refl 1, h.inodeBit 1, h.root⟩
  · rw [if_neg h1, View.inode, if_neg]
    rintro ⟨hpos, hbit⟩
    rw [h.inodeBit, decide_eq_true_eq] at hbit
    omega

theorem Fresh.flat : V.flat n = if n = 1 then some (.directory, []) else none := by
  rw [View.flat, contentsOf, h.inode]
  split
  · rfl
  · rfl

theorem Fresh.entriesAt (n : Nat) : entriesAt V.flat n = [] := by
  rw [Nexfs.entriesAt, h.flat]
  split
  · rename_i hF
    split at hF
    · cases hF
      rfl
    · cases hF
  · rfl

theorem Fresh.owned (hs : Sized sb V) (hv : sb.Valid) (hg : sb.generation < 2 ^ 64) :
    Owned sb V := by
  have hroot : ∀ n I, V.inode n = some I →
      n = 1 ∧ I = Inode.new .directory 0o755 sb.generation := by
    intro n I hn
    rw [h.inode] at hn
    split at hn
    · exact ⟨‹_›, (Option.some.inj hn).symm⟩
    · cases hn
  have hslots := hv.slots_ge
  refine ⟨⟨?_, ?_, ?_, ?_, ?_, ?_⟩, ?_, ?_, ?_⟩
  · intro n I hn
    rw [(hroot n I hn).2]
    exact Carries.intact_new hs (by decide) hg
  · intro n I hn _
    rw [(hroot n I hn).2]
    rfl
  · intro n I hn
    rw [(hroot n I hn).2]
    exact (by decide : 0 = dataBlocksForSize 0)
  · intro n m I J hn hm hne
    exact absurd ((hroot n I hn).1.trans (hroot m J hm).1.symm) hne
  · intro b hb
    rw [h.blockBit, decide_eq_true hb]
  · intro b hb
    rw [h.blockBit, decide_eq_true_eq] at hb
    exact .inl hb
  · rw [h.inodeBit]
    rfl
  · intro n hn
    rw [h.inodeBit, decide_eq_false (by omega)]
  · intro n hpos hbit
    rw [h.inodeBit, decide_eq_true_eq] at hbit
    rw [show n = 1 by omega]
    exact ⟨_, h.root⟩

theorem Fresh.linked : Linked V.flat := by
  have hdir : ∀ n bytes, V.flat n = some (.directory, bytes) → bytes = [] := by
    intro n bytes hF
    rw [h.flat] at hF
    split at hF
    · cases hF
      rfl
    · cases hF
  have hchild : ∀ n a k, childOf V.flat n a ≠ some k := by
    intro n a k
    rw [childOf, h.entriesAt, lookup_nil]
    simp
  refine ⟨⟨[], h.flat⟩, ?_, ?_, ?_, ?_, ⟨fun n a => hchild n a 1, ?_⟩, ?_⟩
  · intro n bytes hF
    rw [hdir n bytes hF]
    rfl
  · intro n bytes hF
    rw [hdir n bytes hF]
    exact ⟨[], rfl⟩
  · intro n
    rw [h.entriesAt]
    exact nodup_nil
  · intro n e he
    rw [h.entriesAt] at he
    cases he
  · intro i j a b k hi
    exact absurd hi (hchild i a k)
  · intro n hn
    rw [h.flat] at hn
    split at hn
    · rename_i h1
      exact ⟨[], congrArg some h1.symm⟩
    · exact absurd rfl hn

end

theorem Fresh.wellFormed (h : Fresh sb (viewOf sb d)) (ha : Accepted d sb) (hf : sb.Fits) :
    WellFormed sb (viewOf sb d) :=
  .of_linked ha.ready.sized (h.owned ha.ready.sized ha.ready.valid hf.generation) h.linked

theorem Fresh.report (h : Fresh sb (viewOf sb d)) (hv : sb.Valid) : reportOf sb d =
    { superblock := sb
      allocatedInodes := 1
      allocatedBlocks := sb.dataStartBlock
      files := 0
      directories := 1
      directoryEntries := 0 } := by
  have hslots := hv.slots_ge
  have hnumbers : sb.inodeNumbers = 1 :: range' 2 (sb.slots - 2) := by
    rw [Superblock.inodeNumbers, show sb.slots - 1 = sb.slots - 2 + 1 by omega, range'_succ]
  have hrest : ∀ n ∈ range' 2 (sb.slots - 2),
      (viewOf sb d).inodeBit n = false ∧ (viewOf sb d).inode n = none := by
    intro n hn
    rw [mem_range'_1] at hn
    rw [h.inodeBit, h.inode, if_neg (by omega), decide_eq_false (by omega)]
    exact ⟨rfl, rfl⟩
  have hbits : (range' 2 (sb.slots - 2)).countP (viewOf sb d).inodeBit = 0 :=
    countP_eq_zero.mpr fun n hn => by rw [(hrest n hn).1]; exact Bool.false_ne_true
  have hkinds : ∀ kind, countKind (viewOf sb d) kind (range' 2 (sb.slots - 2)) = 0 := fun kind =>
    countP_eq_zero.mpr fun n hn => by simp [(hrest n hn).2]
  have hclaimed : claimed (viewOf sb d) (range' 2 (sb.slots - 2)) = [] :=
    flatMap_eq_nil_iff.mpr fun n hn => by rw [(hrest n hn).2]; rfl
  have hroot : (viewOf sb d).inode 1 = some (Inode.new .directory 0o755 sb.generation) := h.inode
  have hone : (viewOf sb d).inodeBit 1 = true := h.inodeBit 1
  have hkind : (Inode.new .directory 0o755 sb.generation).kind = .directory := rfl
  simp only [countKind, claimed] at hkinds hclaimed
  simp [reportOf, hnumbers, countKind, claimed, hbits, hkinds, hclaimed, hroot, hone,
    Carries.owned_new, hkind]

end

section

theorem format_cases :
    (¬(Aligned d ∧ d.sectorCount * d.sectorSize < 2 ^ 64 ∧ 32 ≤ blockCount d) ∧
      ∃ e, format uuid d = (Result.fail e, d)) ∨
    (32 ≤ blockCount d ∧ NewVolume d (formatSuperblock (blockCount d) uuid) ∧
      format uuid d = (.ok (formatSuperblock (blockCount d) uuid),
        formatted d (formatSuperblock (blockCount d) uuid))) := by
  by_cases ha : Aligned d
  case neg => exact .inl ⟨fun h => ha h.1, _, bind_of_error (sectorsPerBlock_unaligned ha)⟩
  by_cases hs : d.sectorCount * d.sectorSize < 2 ^ 64
  case neg =>
    refine .inl ⟨fun h => hs h.2.1, .tooSmall, ?_⟩
    unfold format
    rw [bind_of_ok (sectorsPerBlock_run ha), bind_of_error (deviceBytes_overflow hs)]
    rfl
  by_cases h32 : 32 ≤ blockCount d
  case neg =>
    refine .inl ⟨fun h => h32 h.2.2, .tooSmall, ?_⟩
    have htotal : d.sectorCount * d.sectorSize / blockSize = blockCount d := rfl
    unfold format
    rw [bind_of_ok (sectorsPerBlock_run ha), bind_of_ok (deviceBytes_run hs),
      ensure_bind_neg (by simp only [minBlocks]; omega)]
    rfl
  exact .inr ⟨h32, newVolume_of_size ha hs h32, format_run ha hs h32⟩

theorem sectorSize_formatted : (formatted d sb).sectorSize = d.sectorSize := sectorSize_putBlocks

theorem length_formatted (h : Ready d sb) : (formatted d sb).bytes.length = d.bytes.length := by
  have hfit := h.valid.metadata_fitting h.total_lt
  exact (length_putBlock ((h.marked.putBlocks hfit).inside h.one_lt) sb.length_record).trans
    ((h.marked.length_putBlocks hfit).trans
      (length_putBlock (h.inside h.one_lt) sb.dirty.length_record))

variable (h : NewVolume d sb)
include h

theorem NewVolume.accepted : Accepted (formatted d sb) sb := by
  have hmeta := h.marked.putBlocks (h.valid.metadata_fitting h.total_lt)
  exact h.toReady.accepted h.fits h.clean h.size_lt sectorSize_formatted (length_formatted h.toReady)
    (blockAt_putBlock_self (hmeta.inside h.one_lt) sb.length_record)

theorem NewVolume.fresh : Fresh sb (viewOf sb (formatted d sb)) := by
  refine fresh_of_metadata h.valid h.fits.generation fun b x hx => ?_
  have hb : b ≠ 1 := by
    rintro rfl
    rw [lastWrite_outside h.valid (.inl (by decide))] at hx
    cases hx
  rw [formatted_blockAt h.toReady hb, hx]
  rfl

theorem NewVolume.wellFormed : WellFormed sb (viewOf sb (formatted d sb)) :=
  h.fresh.wellFormed h.accepted h.fits

end

/-! The smallest volume there is. -/

theorem zeroed_size : (Disk.zeroed 256 512).sectorCount * (Disk.zeroed 256 512).sectorSize =
    131072 := by
  have hlen : (Disk.zeroed 256 512).bytes.length = 131072 := length_replicate
  rw [Disk.sectorCount, hlen]
  rfl

theorem zeroed_aligned : Aligned (Disk.zeroed 256 512) := ⟨by decide, by decide⟩

def smallDisk : Disk := formatted (Disk.zeroed 256 512) (formatSuperblock 32 (Vector.replicate 16 7))

theorem zeroed_blockCount : blockCount (Disk.zeroed 256 512) = 32 := by
  rw [blockCount, zeroed_size]

theorem smallDisk_new :
    NewVolume (Disk.zeroed 256 512) (formatSuperblock 32 (Vector.replicate 16 7)) := by
  rw [← zeroed_blockCount]
  exact newVolume_of_size zeroed_aligned (by rw [zeroed_size]; decide) zeroed_blockCount.ge

theorem smallDisk_accepted : Accepted smallDisk (formatSuperblock 32 (Vector.replicate 16 7)) :=
  smallDisk_new.accepted

theorem smallDisk_wellFormed : WellFormed (formatSuperblock 32 (Vector.replicate 16 7))
    (viewOf (formatSuperblock 32 (Vector.replicate 16 7)) smallDisk) :=
  smallDisk_new.wellFormed

/-- `format` on any device: it succeeds exactly when there are 32 blocks, what
it leaves passes the check with the root directory alone, and the second test
for the size never fails. -/
theorem format_exact (d : Disk) (uuid : Vector UInt8 16) (ha : Aligned d)
    (hsize : d.sectorCount * d.sectorSize < 2 ^ 64) :
    ((∃ sb, (format uuid d).1 = .ok sb) ↔ 32 ≤ d.sectorCount * d.sectorSize / 4096) ∧
    (∀ sb, (format uuid d).1 = .ok sb →
      checkDetailed (format uuid d).2 =
        (.ok { superblock := sb
               allocatedInodes := 1
               allocatedBlocks := sb.dataStartBlock
               files := 0
               directories := 1
               directoryEntries := 0 }, (format uuid d).2) ∧ sb.uuid = uuid) ∧
    ∀ total, 32 ≤ total → ¬(formatSuperblock total uuid).dataStartBlock ≥ total := by
  refine and_assoc.mp ⟨?_, fun total h32 => Nat.not_le.mpr (formatSuperblock_data_lt h32)⟩
  rcases format_cases with ⟨hno, e, hrun⟩ | ⟨h32, hnew, hrun⟩
  · rw [hrun]
    exact ⟨⟨fun ⟨_, hsb⟩ => (nomatch hsb), fun h32 => absurd ⟨ha, hsize, h32⟩ hno⟩,
      fun _ hsb => (nomatch hsb)⟩
  · rw [hrun]
    refine ⟨⟨fun _ => h32, fun _ => ⟨_, rfl⟩⟩, fun sb hsb => ?_⟩
    cases hsb
    have hcheck := hnew.accepted.check_ok hnew.wellFormed
    rw [hnew.fresh.report hnew.valid] at hcheck
    exact ⟨hcheck, rfl⟩

/-- The smallest volume. -/
theorem format_exact_smallest : ∃ sb,
    (format (Vector.replicate 16 7) (Disk.zeroed 256 512)).1 = .ok sb ∧
    (checkDetailed (format (Vector.replicate 16 7) (Disk.zeroed 256 512)).2).1 =
      .ok { superblock := sb
            allocatedInodes := 1
            allocatedBlocks := sb.dataStartBlock
            files := 0
            directories := 1
            directoryEntries := 0 } := by
  obtain ⟨hok, hcheck, -⟩ := format_exact (Disk.zeroed 256 512) (Vector.replicate 16 7)
    zeroed_aligned (by rw [zeroed_size]; decide)
  obtain ⟨sb, hsb⟩ := hok.mpr (by rw [zeroed_size])
  exact ⟨sb, hsb, by rw [(hcheck sb hsb).1]⟩

end NexOs.Nexfs
