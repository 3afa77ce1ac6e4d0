import NexOs.Nexfs.View

/-! The primitive methods of a mounted volume, each as an update of one map of
its view. `Steps` is what any sequence of them does to the device: it writes
blocks above the superblock, or the superblock of the same volume with the
clean flag off, and nothing else. -/
namespace NexOs.Nexfs
open List Bytes Storage Function Exec

/-- A call after which a volume whose superblock is marked dirty still is the
same volume and still is marked dirty. -/
inductive Harmless (sb : Superblock) (sectorSize : Nat) : Event → Prop
  | flush : Harmless sb sectorSize .flush
  | block {b : Nat} {data : List UInt8} (lo : 2 ≤ b) (hi : b < sb.totalBlocks)
      (length : data.length = 4096) :
      Harmless sb sectorSize (.write (b * (4096 / sectorSize)) data)
  | superblock {g : Nat} (lt : g < 2 ^ 64) :
      Harmless sb sectorSize
        (.write (1 * (4096 / sectorSize)) { sb with generation := g }.record)

structure Mounted (fs : NexFs) : Prop extends Ready fs.device fs.superblock where
  fits : fs.superblock.Fits
  dirty : fs.superblock.isClean = false

structure Steps (fs fs' : NexFs) : Prop where
  superblock : ∃ g < 2 ^ 64, fs'.superblock = { fs.superblock with generation := g }
  sectorSize : fs'.device.sectorSize = fs.device.sectorSize
  length : fs'.device.bytes.length = fs.device.bytes.length
  events : ∃ events, fs'.device.log = fs.device.log ++ events ∧
    (∀ e ∈ events, Harmless fs.superblock fs.device.sectorSize e) ∧
    fs'.device.bytes = replay fs.device.sectorSize fs.device.bytes events

section
variable {fs fs' fs'' : NexFs}

theorem Steps.refl (h : Mounted fs) : Steps fs fs where
  superblock := ⟨_, h.fits.generation, rfl⟩
  sectorSize := rfl
  length := rfl
  events := ⟨[], by simp, by simp, rfl⟩

theorem Harmless.of_generation
    (h : Harmless { sb with generation := g } ss e) : Harmless sb ss e := by
  cases h with
  | flush => exact .flush
  | block lo hi length => exact .block lo hi length
  | superblock lt => exact .superblock lt

theorem Steps.trans (h : Steps fs fs') (h' : Steps fs' fs'') : Steps fs fs'' := by
  obtain ⟨g, hg, hsb⟩ := h.superblock
  obtain ⟨g', hg', hsb'⟩ := h'.superblock
  obtain ⟨events, hlog, hharm, hbytes⟩ := h.events
  obtain ⟨events', hlog', hharm', hbytes'⟩ := h'.events
  rw [hsb, h.sectorSize] at hharm'
  rw [h.sectorSize, hbytes] at hbytes'
  refine ⟨⟨g', hg', by rw [hsb', hsb]⟩, h'.sectorSize.trans h.sectorSize,
    h'.length.trans h.length, events ++ events', by rw [hlog', hlog, append_assoc], ?_, ?_⟩
  · intro e he
    rcases mem_append.mp he with he | he
    · exact hharm e he
    · exact (hharm' e he).of_generation
  · rw [hbytes', replay, replay, replay, foldl_append]

theorem Steps.mounted (h : Steps fs fs') (hm : Mounted fs) : Mounted fs' := by
  obtain ⟨g, hg, hsb⟩ := h.superblock
  have hv := hm.valid
  have hf := hm.fits
  refine ⟨⟨⟨?_, ?_⟩, ?_, ?_, ?_⟩, ?_, ?_⟩
  · exact h.sectorSize ▸ hm.sector_pos
  · exact h.sectorSize ▸ hm.sector_dvd
  · rw [hsb]
    exact ⟨hv.version_eq, hv.blockSize_eq, hv.total_ge, hv.inodeBitmap_eq, hv.blockBitmap_eq,
      hv.table_eq, hv.table_lt, hv.table_le, hv.data_lt, hv.root_eq⟩
  · rw [hsb, h.length]
    exact hm.room
  · rw [hsb]
    exact hm.total_lt
  · rw [hsb]
    exact ⟨hf.version, hf.blockSize, hf.totalBlocks, hf.inodeBitmapBlock, hf.blockBitmapBlock,
      hf.inodeTableBlock, hf.dataStartBlock, hf.rootInode, hf.flags, hg⟩
  · rw [hsb]
    exact hm.dirty

end

variable {fs : NexFs} {x : List UInt8}

namespace NexFs

def view (fs : NexFs) : View := viewOf fs.superblock fs.device

variable {b : Nat}

variable {act : Exec Disk FsError α} {r : Result FsError α}

theorem onDevice_run (h : act fs.device = (r, d)) :
    onDevice act fs = (r, { fs with device := d }) := by
  simp only [onDevice, zoom, h]

theorem onDevice_read (h : act fs.device = (r, fs.device)) : onDevice act fs = (r, fs) :=
  onDevice_run h

theorem readBlock_run (h : Mounted fs) (hb : b < fs.superblock.totalBlocks) :
    readBlock b blockSize fs = (.ok (blockAt fs.device b), fs) :=
  onDevice_read (Nexfs.readBlock_run h.toReady hb)

def put (fs : NexFs) (b : Nat) (x : List UInt8) : NexFs :=
  { fs with device := putBlock fs.device b x }

theorem writeBlock_run (h : Mounted fs) (hb : b < fs.superblock.totalBlocks)
    (hx : x.length = 4096) : writeBlock b x fs = (.ok (), fs.put b x) := by
  unfold writeBlock
  rw [get_bind, ensure_bind_pos (by simp only [blockSize]; omega),
    bind_of_ok (onDevice_read (sectorsPerBlock_run h.toAligned)), h.lba_eq hb]
  exact onDevice_run (storage_of_ok (writeSectors_run h.toAligned (h.inside hb) hx))

theorem put_steps (h : Mounted fs) (lo : 2 ≤ b) (hb : b < fs.superblock.totalBlocks)
    (hx : x.length = 4096) : Steps fs (fs.put b x) where
  superblock := ⟨_, h.fits.generation, rfl⟩
  sectorSize := rfl
  length := length_putBlock (h.inside hb) hx
  events := by
    refine ⟨[.write (b * (4096 / fs.device.sectorSize)) x], rfl, ?_, ?_⟩
    · intro e he
      rw [mem_singleton.mp he]
      exact .block lo hb hx
    · simp only [replay, foldl_cons, Event.apply, h.per_block_mul]
      rfl

end NexFs

/-- What a primitive that keeps the superblock does: its view becomes `v`. -/
structure Writes (fs fs' : NexFs) (v : View) : Prop where
  steps : Steps fs fs'
  superblock : fs'.superblock = fs.superblock
  view : fs'.view = v

theorem Writes.trans {fs fs' fs'' : NexFs} (h : Writes fs fs' v)
    (h' : Writes fs' fs'' v') : Writes fs fs'' v' :=
  ⟨h.steps.trans h'.steps, h'.superblock.trans h.superblock, h'.view⟩

theorem Writes.refl (h : Mounted fs) : Writes fs fs fs.view :=
  ⟨.refl h, rfl, rfl⟩

namespace NexFs
variable {b n : Nat} {v : Bool}

section
variable (h : Mounted fs)
include h

theorem inodeAllocated_run (hn : n < fs.superblock.slots) :
    inodeAllocated n fs = (.ok (fs.view.inodeBit n), fs) := by
  have hs := h.valid.slots_le
  have htotal : 2 < fs.superblock.totalBlocks := by
    have := h.valid.total_ge
    omega
  unfold inodeAllocated
  rw [get_bind, h.valid.inodeCount, lift_ok_bind, ensure_bind_pos hn, h.valid.inodeBitmap_eq,
    bind_of_ok (readBlock_run h htotal), bitmapBit_eq (by rw [h.length_blockAt htotal]; omega)]
  rfl

theorem setInodeAllocated_run (hn : n < fs.superblock.slots) :
    ∃ fs', setInodeAllocated n v fs = (.ok (), fs') ∧
      Writes fs fs' { fs.view with inodeBit := update fs.view.inodeBit n v } := by
  have hs := h.valid.slots_le
  have htotal : 2 < fs.superblock.totalBlocks := by
    have := h.valid.total_ge
    omega
  have hlen := h.length_blockAt htotal
  have hbit : n / 8 < (blockAt fs.device 2).length := by omega
  have hx : (setBit (blockAt fs.device 2) n v).length = 4096 := by rw [length_setBit, hlen]
  refine ⟨fs.put 2 (setBit (blockAt fs.device 2) n v), ?_, put_steps h le_rfl htotal hx, rfl, ?_⟩
  · unfold setInodeAllocated
    rw [get_bind, h.valid.inodeCount, lift_ok_bind, ensure_bind_pos hn,
      h.valid.inodeBitmap_eq, bind_of_ok (readBlock_run h htotal), setBitmapBit_eq hbit]
    exact writeBlock_run h htotal hx
  · have hbits : bit (setBit (blockAt fs.device 2) n v) = update fs.view.inodeBit n v := by
      funext m
      rw [bit_setBit hbit, update_apply]
      simp only [eq_comm (a := n)]
      rfl
    rw [← hbits]
    exact viewOf_put_inodeBitmap h.toReady hx

theorem blockAllocated_run (hb : b < fs.superblock.totalBlocks) :
    blockAllocated b fs = (.ok (fs.view.blockBit b), fs) := by
  have ht := h.valid.table_eq
  have htd := h.valid.table_lt
  have hdt := h.valid.data_lt
  have hlim := h.total_lt
  have hblock : 3 + b / 32768 < fs.superblock.totalBlocks := by omega
  unfold blockAllocated
  rw [get_bind, ensure_bind_pos hb, h.valid.blockBitmap_eq]
  simp only [bitmapBitsPerBlock, blockSize]
  rw [addU64_eq (by omega), lift_ok_bind, bind_of_ok (readBlock_run h hblock),
    lift_run, bitmapBit_eq (by rw [h.length_blockAt hblock]; omega)]
  simp only [view, viewOf]
  rw [if_pos (by omega)]

theorem setBlockAllocated_run (hlo : fs.superblock.dataStartBlock ≤ b)
    (hb : b < fs.superblock.totalBlocks) :
    ∃ fs', setBlockAllocated b v fs = (.ok (), fs') ∧
      Writes fs fs' { fs.view with blockBit := update fs.view.blockBit b v } := by
  have ht := h.valid.table_eq
  have htd := h.valid.table_lt
  have hlim := h.total_lt
  have hblock : 3 + b / 32768 < fs.superblock.totalBlocks := by omega
  have hlen := h.length_blockAt hblock
  have hbit : b % 32768 / 8 < (blockAt fs.device (3 + b / 32768)).length := by omega
  have hx : (setBit (blockAt fs.device (3 + b / 32768)) (b % 32768) v).length = 4096 := by
    rw [length_setBit, hlen]
  refine ⟨fs.put (3 + b / 32768) (setBit (blockAt fs.device (3 + b / 32768)) (b % 32768) v), ?_,
    put_steps h (by omega) hblock hx, rfl, viewOf_put_blockBitmap h.toReady hb v⟩
  unfold setBlockAllocated
  rw [get_bind, ensure_bind_pos (by omega), h.valid.blockBitmap_eq]
  simp only [bitmapBitsPerBlock, blockSize]
  rw [addU64_eq (by omega), lift_ok_bind, bind_of_ok (readBlock_run h hblock), setBitmapBit_eq hbit]
  exact writeBlock_run h hblock hx

end

section
variable {I : Inode}

variable (h : Mounted fs) (hn : n < fs.superblock.slots)
include h hn

theorem inodeLocation_run :
    inodeLocation n fs =
      (.ok (fs.superblock.inodeTableBlock + n / 16, 256 * (n % 16)), fs) := by
  have hs := h.valid.slots_le
  have htd := h.valid.table_lt
  have hdt := h.valid.data_lt
  have hlim := h.total_lt
  have hdiv : n * 256 / 4096 = n / 16 := by omega
  have hmod : n * 256 % 4096 = 256 * (n % 16) := by omega
  unfold inodeLocation
  rw [get_bind, h.valid.inodeCount, lift_ok_bind, ensure_bind_pos hn]
  simp only [inodeSize]
  rw [checkedMul_eq (by omega), okOr_some, pure_bind_run, hdiv, addU64_eq (by omega), hmod]
  rfl

theorem slot_block :
    2 ≤ fs.superblock.inodeTableBlock + n / 16 ∧
      fs.superblock.inodeTableBlock + n / 16 < fs.superblock.totalBlocks := by
  have ht := h.valid.table_ge
  have hdt := h.valid.data_lt
  simp only [Superblock.slots] at hn
  omega

theorem readInode_run (hbit : fs.view.inodeBit n = true) :
    readInode n fs = (fs.view.slot n, fs) := by
  have hblock := slot_block h hn
  have hlen := h.length_blockAt hblock.2
  unfold readInode
  rw [bind_of_ok (inodeAllocated_run h hn), ensure_bind_pos hbit,
    bind_of_ok (inodeLocation_run h hn), bind_of_ok (readBlock_run h hblock.2),
    lift_run, inodeSize, rangeOf_eq (by omega), Result.bind_ok, Nat.add_sub_cancel_left]
  simp only [view, viewOf]
  rw [if_pos hn]

theorem put_slot (hx : x.length = 256) :
    ∃ fs', writeBlock (fs.superblock.inodeTableBlock + n / 16)
        (splice (blockAt fs.device (fs.superblock.inodeTableBlock + n / 16))
          (256 * (n % 16)) x) fs = (.ok (), fs') ∧
      Writes fs fs' { fs.view with slot := update fs.view.slot n (Inode.decode x) } := by
  have hblock := slot_block h hn
  have hlen := h.length_blockAt hblock.2
  have hy : (splice (blockAt fs.device (fs.superblock.inodeTableBlock + n / 16))
      (256 * (n % 16)) x).length = 4096 := by
    rw [length_splice (by omega), hlen]
  exact ⟨_, writeBlock_run h hblock.2 hy, put_steps h hblock.1 hblock.2 hy, rfl,
    viewOf_put_slot h.toReady hn hx⟩

theorem writeInode_run (hI : I.Fits) :
    ∃ fs', writeInode n I fs = (.ok (), fs') ∧
      Writes fs fs' { fs.view with slot := update fs.view.slot n (.ok I) } := by
  have hblock := slot_block h hn
  have hlen := h.length_blockAt hblock.2
  have hput := put_slot h hn I.length_record
  rw [Inode.decode_record hI] at hput
  unfold writeInode
  rw [bind_of_ok (inodeLocation_run h hn), bind_of_ok (readBlock_run h hblock.2),
    inodeSize, rangeOf_eq (by omega), lift_ok_bind, Nat.add_sub_cancel_left,
    I.encode_eq (length_slice (by omega)), lift_ok_bind,
    copyInto_eq (by rw [I.length_record]; omega)]
  exact hput

theorem clearInode_run :
    ∃ fs', clearInode n fs = (.ok (), fs') ∧
      Writes fs fs' { fs.view with
        slot := update fs.view.slot n (Result.fail .corruptInode) } := by
  have hblock := slot_block h hn
  have hlen := h.length_blockAt hblock.2
  have hzero : (replicate 256 (0 : UInt8)).length = 256 := length_replicate
  have hput := put_slot h hn hzero
  rw [Inode.decode_zeros] at hput
  unfold clearInode
  rw [bind_of_ok (inodeLocation_run h hn), bind_of_ok (readBlock_run h hblock.2), copyInto_eq (by rw [hzero]; omega)]
  exact hput

end

section
variable (h : Mounted fs)
include h

variable {l : List Nat}

theorem allocateInodeFrom_some (hl : ∀ m ∈ l, m < fs.superblock.slots)
    (hfind : l.find? (fun m => !fs.view.inodeBit m) = some n) :
    ∃ fs', allocateInodeFrom l fs = (.ok n, fs') ∧
      Writes fs fs' { fs.view with inodeBit := update fs.view.inodeBit n true } := by
  induction l with
  | nil => cases hfind
  | cons m l ih =>
    have hm := hl m mem_cons_self
    rw [allocateInodeFrom, bind_of_ok (inodeAllocated_run h hm)]
    cases hbit : fs.view.inodeBit m with
    | true =>
      rw [find?_cons_of_neg (by simp [hbit])] at hfind
      exact ih (fun k hk => hl k (mem_cons_of_mem _ hk)) hfind
    | false =>
      rw [find?_cons_of_pos (by simp [hbit])] at hfind
      cases hfind
      obtain ⟨fs', hrun, hw⟩ := setInodeAllocated_run h hm
      rw [if_pos rfl, bind_of_ok hrun]
      exact ⟨fs', rfl, hw⟩

theorem allocateInodeFrom_none (hl : ∀ m ∈ l, m < fs.superblock.slots)
    (hfind : l.find? (fun m => !fs.view.inodeBit m) = none) :
    allocateInodeFrom l fs = (.error (.error .noSpace), fs) := by
  induction l with
  | nil => rfl
  | cons m l ih =>
    have hbit : fs.view.inodeBit m = true := by
      simpa using find?_eq_none.mp hfind m mem_cons_self
    rw [find?_cons_of_neg (by simp [hbit])] at hfind
    rw [allocateInodeFrom, bind_of_ok (inodeAllocated_run h (hl m mem_cons_self)),
      if_neg (by simp [hbit])]
    exact ih (fun k hk => hl k (mem_cons_of_mem _ hk)) hfind

def freeInode (fs : NexFs) : Option Nat :=
  (List.range' 2 (fs.superblock.slots - 2)).find? fun m => !fs.view.inodeBit m

omit h in
theorem mem_inode_range : ∀ m ∈ range' 2 (fs.superblock.slots - 2), m < fs.superblock.slots := by
  intro m hm
  rw [mem_range'_1] at hm
  omega

theorem allocateInode_some (hfind : fs.freeInode = some n) :
    ∃ fs', allocateInode fs = (.ok n, fs') ∧
      Writes fs fs' { fs.view with inodeBit := update fs.view.inodeBit n true } := by
  unfold allocateInode
  rw [get_bind, h.valid.inodeCount]
  exact allocateInodeFrom_some h mem_inode_range hfind

theorem allocateInode_none (hfind : fs.freeInode = none) :
    allocateInode fs = (.error (.error .noSpace), fs) := by
  unfold allocateInode
  rw [get_bind, h.valid.inodeCount]
  exact allocateInodeFrom_none h mem_inode_range hfind

omit h in
theorem freeInode_spec (hfind : fs.freeInode = some n) :
    2 ≤ n ∧ n < fs.superblock.slots ∧ fs.view.inodeBit n = false := by
  have hmem := mem_of_find?_eq_some hfind
  have hbit := find?_some hfind
  have hlt := mem_inode_range n hmem
  rw [mem_range'_1] at hmem
  exact ⟨hmem.1, hlt, by simpa using hbit⟩

theorem writeData_run (hlo : fs.superblock.dataStartBlock ≤ b) (hb : b < fs.superblock.totalBlocks)
    (hx : x.length = 4096) :
    ∃ fs', writeBlock b x fs = (.ok (), fs') ∧
      Writes fs fs' { fs.view with data := update fs.view.data b x } := by
  have ht := h.valid.table_ge
  have htd := h.valid.table_lt
  exact ⟨_, writeBlock_run h hb hx, put_steps h (by omega) hb hx, rfl,
    viewOf_put_data h.toReady hlo hb hx⟩

theorem readData_run (hlo : fs.superblock.dataStartBlock ≤ b) (hb : b < fs.superblock.totalBlocks) :
    readBlock b blockSize fs = (.ok (fs.view.data b), fs) := by
  rw [readBlock_run h hb]
  simp only [view, viewOf]
  rw [if_pos ⟨hlo, hb⟩]

theorem allocateBlockFrom_some (hl : ∀ c ∈ l, c ∈ fs.superblock.dataRange)
    (hfind : l.find? (fun c => !fs.view.blockBit c) = some b) :
    ∃ fs', allocateBlockFrom l fs = (.ok b, fs') ∧ Writes fs fs' (fs.view.withBlock b) := by
  induction l with
  | nil => cases hfind
  | cons c l ih =>
    have hc := Superblock.mem_dataRange.mp (hl c mem_cons_self)
    rw [allocateBlockFrom, bind_of_ok (blockAllocated_run h hc.2)]
    cases hbit : fs.view.blockBit c with
    | true =>
      rw [find?_cons_of_neg (by simp [hbit])] at hfind
      exact ih (fun k hk => hl k (mem_cons_of_mem _ hk)) hfind
    | false =>
      rw [find?_cons_of_pos (by simp [hbit])] at hfind
      cases hfind
      obtain ⟨fs₁, hrun₁, hw₁⟩ := setBlockAllocated_run h hc.1 hc.2
      obtain ⟨fs₂, hrun₂, hw₂⟩ := writeData_run (hw₁.steps.mounted h)
        (hw₁.superblock ▸ hc.1) (hw₁.superblock ▸ hc.2)
        (x := replicate blockSize 0) length_replicate
      rw [if_pos rfl, bind_of_ok hrun₁, bind_of_ok hrun₂]
      refine ⟨fs₂, rfl, hw₁.steps.trans hw₂.steps, hw₂.superblock.trans hw₁.superblock, ?_⟩
      rw [hw₂.view, hw₁.view]
      rfl

theorem allocateBlockFrom_none (hl : ∀ c ∈ l, c ∈ fs.superblock.dataRange)
    (hfind : l.find? (fun c => !fs.view.blockBit c) = none) :
    allocateBlockFrom l fs = (.error (.error .noSpace), fs) := by
  induction l with
  | nil => rfl
  | cons c l ih =>
    have hbit : fs.view.blockBit c = true := by
      simpa using find?_eq_none.mp hfind c mem_cons_self
    have hc := Superblock.mem_dataRange.mp (hl c mem_cons_self)
    rw [find?_cons_of_neg (by simp [hbit])] at hfind
    rw [allocateBlockFrom, bind_of_ok (blockAllocated_run h hc.2), if_neg (by simp [hbit])]
    exact ih (fun k hk => hl k (mem_cons_of_mem _ hk)) hfind

theorem allocateBlock_some (hfind : fs.view.freeBlock fs.superblock = some b) :
    ∃ fs', allocateBlock fs = (.ok b, fs') ∧ Writes fs fs' (fs.view.withBlock b) := by
  exact allocateBlockFrom_some h (fun _ hc => hc) hfind

theorem allocateBlock_none (hfind : fs.view.freeBlock fs.superblock = none) :
    allocateBlock fs = (.error (.error .noSpace), fs) := by
  exact allocateBlockFrom_none h (fun _ hc => hc) hfind

end

theorem nextTimestamp_run :
    ∃ t fs', nextTimestamp fs = (.ok t, fs') ∧ t < 2 ^ 64 ∧ Steps fs fs' ∧
      fs'.view = fs.view := by
  refine ⟨saturatingAdd fs.superblock.generation 1, _, rfl, saturatingAdd_lt, ?_, rfl⟩
  exact ⟨⟨_, saturatingAdd_lt, rfl⟩, rfl, rfl, [], by simp, by simp, rfl⟩

theorem finishMutation_run (h : Mounted fs) :
    ∃ fs', finishMutation fs = (.ok (), fs') ∧ Steps fs fs' ∧ fs'.view = fs.view := by
  have htotal : 1 < fs.superblock.totalBlocks := by
    have := h.valid.total_ge
    omega
  have hlen := fs.superblock.length_record
  refine ⟨{ fs with device := { putBlock fs.device 1 fs.superblock.record with
    log := (putBlock fs.device 1 fs.superblock.record).log ++ [.flush] } }, ?_, ?_, ?_⟩
  · unfold finishMutation
    rw [get_bind, bind_of_ok (onDevice_run (writeSuperblock_run h.toReady _))]
    rfl
  · refine ⟨⟨_, h.fits.generation, rfl⟩, rfl, length_putBlock (h.inside htotal) hlen,
      [.write (1 * (4096 / fs.device.sectorSize)) fs.superblock.record, .flush], ?_, ?_, ?_⟩
    · simp [putBlock]
    · intro e he
      rcases mem_pair.mp he with rfl | rfl
      · exact .superblock h.fits.generation
      · exact .flush
    · simp only [replay, foldl_cons, Event.apply, h.per_block_mul]
      rfl
  · exact viewOf_put_superblock h.toReady hlen

end NexFs

end NexOs.Nexfs
