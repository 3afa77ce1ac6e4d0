import NexOs.Nexfs.CheckWalk

/-! The checker as a whole: for any contents of the device it returns, leaves
the device as it is, and accepts exactly the volumes in order. -/
namespace NexOs.Nexfs
open List Bytes Storage Function NamedTree Exec

structure Accepted (d : Disk) (sb : Superblock) : Prop extends Aligned d where
  decoded : Superblock.decode (blockAt d 1) = .ok sb
  clean : sb.isClean = true
  size_lt : d.sectorCount * d.sectorSize < 2 ^ 64
  room : 4096 * sb.totalBlocks ≤ d.bytes.length

variable {d : Disk} {sb : Superblock}

theorem length_of_decode (hd : Superblock.decode (blockAt d 1) = .ok sb) :
    8192 ≤ d.bytes.length := by
  have hlen := (Superblock.decode_eq_ok.mp hd).1
  simp only [blockAt, slice, length_take, length_drop] at hlen
  omega

theorem Aligned.capacity_le (h : Aligned d) :
    4096 * total ≤ d.sectorCount * d.sectorSize ↔ 4096 * total ≤ d.bytes.length := by
  refine ⟨fun hle => hle.trans (Nat.div_mul_le_self _ _), fun hle => ?_⟩
  obtain ⟨k, hk⟩ := h.sector_dvd.mul_right total
  rw [hk, Nat.mul_comm]
  refine Nat.mul_le_mul_right _ ((Nat.le_div_iff_mul_le h.sector_pos).mpr ?_)
  rw [Nat.mul_comm, ← hk]
  exact hle

theorem Accepted.ready (h : Accepted d sb) : Ready d sb where
  toAligned := h.toAligned
  valid := (Superblock.valid_of_decode h.decoded).1
  room := h.room
  total_lt := (h.toAligned.capacity_le.mpr h.room).trans_lt h.size_lt

theorem sectorsPerBlock_unaligned (h : ¬Aligned d) :
    sectorsPerBlock d = (.error (.error .unsupportedBlockSize), d) := by
  unfold sectorsPerBlock
  rw [get_bind, ensure_bind_neg]
  rw [not_not, or_iff_not_imp_left]
  exact fun h0 hm => h ⟨Nat.pos_of_ne_zero h0, Nat.dvd_of_mod_eq_zero hm⟩

theorem lba_one : (mulU64 1 (4096 / d.sectorSize) : Result FsError Nat) =
    .ok (1 * (4096 / d.sectorSize)) :=
  mulU64_eq (by have := Nat.div_le_self 4096 d.sectorSize; omega)

theorem readSuperblock_aligned (ha : Aligned d) (hlen : 8192 ≤ d.bytes.length) :
    readSuperblock d = (Superblock.decode (blockAt d 1), d) := by
  unfold readSuperblock
  rw [bind_of_ok (sectorsPerBlock_run ha), lba_one, lift_ok_bind,
    bind_of_ok (storage_of_ok (readSectors_run ha hlen))]
  rfl

theorem readSuperblock_cases :
    (∃ sb, Aligned d ∧ Superblock.decode (blockAt d 1) = .ok sb ∧
      readSuperblock d = (.ok sb, d)) ∨
    ((∀ sb, Aligned d → Superblock.decode (blockAt d 1) ≠ .ok sb) ∧
      ∃ e, readSuperblock d = (.error (.error e), d)) := by
  by_cases ha : Aligned d
  case neg =>
    refine .inr ⟨fun _ h => absurd h ha, .unsupportedBlockSize, ?_⟩
    rw [readSuperblock, bind_of_error (sectorsPerBlock_unaligned ha)]
  by_cases hlen : 8192 ≤ d.bytes.length
  case neg =>
    refine .inr ⟨fun _ _ hd => hlen (length_of_decode hd), .storage .outOfBounds, ?_⟩
    have hshort : d.bytes.length < 4096 * (1 + 1) := by omega
    have hread : storage (Disk.readSectors (1 * (4096 / d.sectorSize)) 4096) d =
        (.error (.error (.storage .outOfBounds)), d) :=
      mapError_of_error (readSectors_short ha hshort)
    rw [readSuperblock, bind_of_ok (sectorsPerBlock_run ha), lba_one, lift_ok_bind]
    exact bind_of_error hread
  rcases Superblock.decode_decides (length_blockAt (b := 1) hlen).ge with ⟨-, hd⟩ | ⟨hn, e, hd⟩
  · exact .inl ⟨_, ha, hd, by rw [readSuperblock_aligned ha hlen, hd]⟩
  · refine .inr ⟨fun sb _ hc => ?_, e, by rw [readSuperblock_aligned ha hlen, hd]⟩
    exact nomatch hd.symm.trans hc

theorem Ready.accepted (h : Ready d sb) (hf : sb.Fits) (hclean : sb.isClean = true)
    (hsize : d.sectorCount * d.sectorSize < 2 ^ 64) (hs : d'.sectorSize = d.sectorSize)
    (hlen : d'.bytes.length = d.bytes.length) (hblock : blockAt d' 1 = sb.record) :
    Accepted d' sb where
  sector_pos := hs ▸ h.sector_pos
  sector_dvd := hs ▸ h.sector_dvd
  decoded := hblock ▸ Superblock.decode_record hf h.valid
  clean := hclean
  size_lt := by
    rw [Disk.sectorCount, hlen, hs]
    exact hsize
  room := hlen ▸ h.room

/-! ## The report -/

section
variable {V : View} {bytes : List UInt8}

theorem bit_cons_add (byte : UInt8) (i : Nat) : bit (byte :: bytes) (8 + i) = bit bytes i := by
  rw [bit, bit, Nat.add_div_left i (by decide), Nat.add_mod_left, getElem?_cons_succ]

theorem countOnes_sum :
    (bytes.map countOnes).sum = (range (8 * bytes.length)).countP (bit bytes) := by
  induction bytes with
  | nil => rfl
  | cons byte bytes ih =>
    rw [map_cons, sum_cons, ih, length_cons,
      show 8 * (bytes.length + 1) = 8 + 8 * bytes.length by omega, range_add,
      countP_append, countP_map]
    congr 2
    funext i
    exact (bit_cons_add byte i).symm

theorem Superblock.nodup_inodeNumbers (sb : Superblock) : sb.inodeNumbers.Nodup :=
  nodup_range'

theorem Owned.nodup_claimed (h : Owned sb V) : (claimed V sb.inodeNumbers).Nodup := by
  refine nodup_flatMap.mpr ⟨fun n _ => ?_, ?_⟩
  · cases hn : V.inode n with
    | none => exact nodup_nil
    | some I => exact (h.intact n I hn).nodup
  · refine Pairwise.imp (fun {n m} hlt => ?_) pairwise_lt_range'
    intro b hb hb'
    dsimp only at hb hb'
    cases hn : V.inode n with
    | none => simp [hn] at hb
    | some I =>
      cases hm : V.inode m with
      | none => simp [hm] at hb'
      | some J =>
        rw [hn] at hb
        rw [hm] at hb'
        exact h.disjoint n m I J hn hm (Nat.ne_of_lt hlt) b hb hb'

def reportOf (sb : Superblock) (d : Disk) : CheckReport where
  superblock := sb
  allocatedInodes := sb.inodeNumbers.countP (viewOf sb d).inodeBit
  allocatedBlocks := sb.dataStartBlock + (claimed (viewOf sb d) sb.inodeNumbers).length
  files := countKind (viewOf sb d) .regular sb.inodeNumbers
  directories := countKind (viewOf sb d) .directory sb.inodeNumbers
  directoryEntries := sb.inodeNumbers.countP (viewOf sb d).inodeBit - 1

theorem Owned.allocatedBlocks (h : Ready d sb) (ho : Owned sb (viewOf sb d)) :
    ((bitmapOf sb d).map countOnes).sum =
      sb.dataStartBlock + (claimed (viewOf sb d) sb.inodeNumbers).length := by
  have htotal := h.valid.total_le
  have hdata := h.valid.data_lt
  have hmem : ∀ b, b ∈ claimed (viewOf sb d) sb.inodeNumbers ↔
      ∃ n I, (viewOf sb d).inode n = some I ∧ b ∈ (viewOf sb d).owned I := by
    intro b
    rw [mem_claimed]
    constructor
    · rintro ⟨n, -, I, hn, hb⟩
      exact ⟨n, I, hn, hb⟩
    · rintro ⟨n, I, hn, hb⟩
      have hpos := (View.inode_eq_some.mp hn).1
      exact ⟨n, mem_inodeNumbers.mpr ⟨hpos, ho.lt_slots hn⟩, I, hn, hb⟩
  have hperm : ((range (8 * (bitmapOf sb d).length)).filter (viewOf sb d).blockBit).Perm
      (range sb.dataStartBlock ++ claimed (viewOf sb d) sb.inodeNumbers) := by
    refine (perm_ext_iff_of_nodup (nodup_range.filter _)
      (nodup_append.mpr ⟨nodup_range, ho.nodup_claimed, ?_⟩)).mpr fun b => ?_
    · rintro a ha b hb rfl
      obtain ⟨n, I, hn, hI⟩ := (hmem a).mp hb
      exact absurd (mem_range.mp ha) (Nat.not_lt.mpr ((ho.intact n I hn).range a hI).1)
    · rw [mem_filter, mem_append, mem_range, mem_range, hmem, h.length_bitmapOf]
      refine ⟨fun hb => ho.owner b hb.2, ?_⟩
      rintro (hb | ⟨n, I, hn, hI⟩)
      · exact ⟨by omega, ho.reserved b hb⟩
      · have := ((ho.intact n I hn).range b hI).2
        exact ⟨by omega, (ho.intact n I hn).bits b hI⟩
  have hbit : bit (bitmapOf sb d) = (viewOf sb d).blockBit := funext fun b => h.bit_bitmapOf
  rw [countOnes_sum, hbit, countP_eq_length_filter, hperm.length_eq, length_append, length_range]

theorem Owned.allocatedInodes (ho : Owned sb V) : sb.inodeNumbers.countP V.inodeBit =
    countKind V .regular sb.inodeNumbers + countKind V .directory sb.inodeNumbers := by
  have hpos : ∀ n ∈ sb.inodeNumbers, 1 ≤ n := fun n hn => (mem_range'_1.mp hn).1
  generalize sb.inodeNumbers = l at hpos
  induction l with
  | nil => rfl
  | cons n l ih =>
    have ih := ih fun m hm => hpos m (mem_cons_of_mem _ hm)
    simp only [countKind, countP_cons] at ih ⊢
    rw [ih]
    cases hbit : V.inodeBit n with
    | false => simp [View.inode, hbit]
    | true =>
      obtain ⟨I, hI⟩ := ho.decoded n (hpos n mem_cons_self) hbit
      have hn : V.inode n = some I :=
        View.inode_eq_some.mpr ⟨hpos n mem_cons_self, hbit, hI⟩
      cases hk : I.kind <;> simp [hn, hk] <;> omega

theorem Walking.directoryEntries (ho : Owned sb V)
    (h : Walking V.flat sb.slots D w) (hp : w.pending = []) (hL : Linked V.flat) :
    w.directoryEntries + 1 = sb.inodeNumbers.countP V.inodeBit := by
  have hlt : ∀ m, V.flat m ≠ none → m < sb.slots := fun _ => ho.lt_of_flat
  have hperm : (1 :: (entriesIn V.flat D).map DirectoryEntry.inode).Perm
      (sb.inodeNumbers.filter V.inodeBit) := by
    refine (perm_ext_iff_of_nodup h.nodup (sb.nodup_inodeNumbers.filter _)).mpr fun n => ?_
    have hfilter : n ∈ sb.inodeNumbers.filter V.inodeBit ↔ V.flat n ≠ none := by
      rw [mem_filter, mem_inodeNumbers]
      constructor
      · rintro ⟨⟨hpos, -⟩, hbit⟩
        rw [Ne, ho.flat_eq_none hpos, hbit]
        exact Bool.noConfusion
      · intro hn
        obtain ⟨I, hI⟩ := View.exists_inode hn
        obtain ⟨hpos, hbit, -⟩ := View.inode_eq_some.mp hI
        exact ⟨⟨hpos, hlt n hn⟩, hbit⟩
    rw [hfilter]
    constructor
    · intro hn
      rcases mem_cons.mp hn with rfl | hn
      · exact hL.root_ne_none
      · obtain ⟨e, he, rfl⟩ := mem_map.mp hn
        obtain ⟨bytes, hb⟩ := h.target e he
        rw [hb]
        simp
    · intro hn
      have hr := (h.reached n (hlt n hn)).symm.trans (h.all_reached hp hL hlt hn)
      simpa using hr
  have hlen := hperm.length_eq
  rw [length_cons, length_map, ← h.count] at hlen
  rw [hlen, countP_eq_length_filter]

end

/-! ## The passes together -/

theorem Directories.of_linked (hs : Sized sb V) (ho : Owned sb V) (hL : Linked V.flat) :
    Directories V where
  root := by
    obtain ⟨bytes, hb⟩ := hL.root
    obtain ⟨I, hI, hk, -⟩ := View.flat_eq_some.mp hb
    exact ⟨I, hI, hk⟩
  whole n I hn hk := by
    have hw := hL.whole n (V.content I) ((View.flat_of_inode hn).trans (by rw [hk]))
    rwa [(ho.intact n I hn).length_content hs (ho.count n I hn)] at hw

theorem checkTree_decides (h : Ready d sb) (ho : Owned sb (viewOf sb d))
    (hd : Directories (viewOf sb d)) :
    Decides (checkTree sb sb.slots (blockAt d 2) (bitmapOf sb d)
        (scanOf sb (viewOf sb d) sb.inodeNumbers)) d
      (Linked (viewOf sb d).flat) (reportOf sb d) := by
  have hslots := h.valid.slots_ge
  unfold checkTree
  rw [h.valid.root_eq, store_eq (by rw [length_replicate]; omega)]
  refine .bind_ok rfl ?_
  have hlt : ∀ m, (viewOf sb d).flat m ≠ none → m < sb.slots := fun _ => ho.lt_of_flat
  rcases walkTree_run h ho hd (sb.slots + 1) Walking.start (by simp) with
    ⟨w, D, hrun, hw, hp⟩ | ⟨hnot, e, hrun⟩
  case inr => exact ⟨_, bind_of_error hrun, .inr ⟨hnot, e, rfl⟩⟩
  have hpass : ∀ n ∈ sb.inodeNumbers, (blockAt d 2)[n / 8]?.isSome = true ∧
      ∃ r, w.reached[n]? = some r := by
    intro n hn
    obtain ⟨-, hn⟩ := mem_inodeNumbers.mp hn
    have hbits := h.length_inodeBitmap
    have hslots := h.valid.slots_le
    rw [getElem?_eq_getElem (show n / 8 < (blockAt d 2).length by omega),
      getElem?_eq_getElem (show n < w.reached.length by rw [hw.length]; exact hn)]
    exact ⟨rfl, _, rfl⟩
  have horphans : (∀ n ∈ sb.inodeNumbers, (viewOf sb d).inodeBit n = true →
      w.reached[n]? = some true) ↔ Linked (viewOf sb d).flat := by
    constructor
    · intro hall
      refine hw.linked hp ?_ ?_ (fun n hn => ?_) hlt
      · obtain ⟨I, hI, hk⟩ := hd.root
        exact ⟨_, (View.flat_of_inode hI).trans (by rw [hk])⟩
      · intro n bytes hF
        obtain ⟨I, hI, hk, rfl⟩ := View.flat_eq_some.mp hF
        rw [(ho.intact n I hI).length_content h.sized (ho.count n I hI)]
        exact hd.whole n I hI hk
      · obtain ⟨I, hI⟩ := View.exists_inode hn
        obtain ⟨hpos, hbit, -⟩ := View.inode_eq_some.mp hI
        exact hall n (mem_inodeNumbers.mpr ⟨hpos, hlt n hn⟩) hbit
    · intro hL n hn hbit
      refine hw.all_reached hp hL hlt ?_
      rw [Ne, ho.flat_eq_none (mem_inodeNumbers.mp hn).1, hbit]
      exact Bool.noConfusion
  refine .bind_ok hrun (Decides.congr (.bind (.lift (.forM _ fun n hn => ?_)) fun _ => .of_ok rfl)
    ((and_iff_left trivial).trans horphans) fun hL => ?_)
  · obtain ⟨hsome, r, hr⟩ := hpass n hn
    have hn := (mem_inodeNumbers.mp hn).2
    rw [if_pos hsome, h.inodeBit_run (by have := h.valid.slots_le; omega)]
    cases hbit : (viewOf sb d).inodeBit n with
    | false => exact .inl ⟨by simp, rfl⟩
    | true =>
      rw [index_eq hr, hr]
      exact (Result.Decides.ensure _ _).congr (by simp) fun _ => rfl
  · have hcount := hw.directoryEntries ho hp (horphans.mp hL.1)
    have hentries : w.directoryEntries = sb.inodeNumbers.countP (viewOf sb d).inodeBit - 1 := by
      omega
    rw [reportOf, ← hentries, ho.allocatedBlocks h]
    rfl

theorem checkVolume_decides (h : Ready d sb) :
    Decides (checkVolume sb) d (Owned sb (viewOf sb d) ∧ Linked (viewOf sb d).flat)
      (reportOf sb d) := by
  have hstart : scanOf sb (viewOf sb d) [] = {
      owners := marks sb []
      inodes := replicate sb.slots none
      allocatedInodes := 0
      files := 0
      directories := 0 } := by
    simp [scanOf, claimed, countKind]
  have hroot : sb.rootInode < 32768 := by
    rw [h.valid.root_eq]
    decide
  have hbits : (bitmapOf sb d).length * 8 < 2 ^ 64 := by
    have htable := h.valid.table_eq
    have htotal := h.total_lt
    rw [h.length_bitmapOf]
    omega
  refine Decides.congr (.bind_ok (by rw [h.valid.inodeCount]; rfl)
    (.bind_ok (by rw [h.valid.inodeBitmap_eq]; exact readBlock_run h (by have := h.valid.total_ge; omega))
    (.bind_ok (by rw [h.inodeBit_run (by decide)]; rfl) (.guard fun h0 =>
    .bind_ok (by rw [h.inodeBit_run hroot]; rfl) (.guard fun h1 =>
    .bind_ok (readBlockBitmap_run h) (.bind (.lift (reserved_decides h)) fun hreserved =>
    .bind (hstart ▸ scan_decides h) fun hscan => .bind (.lift (dataBits_decides h _)) fun hdata =>
    .bind_ok (by rw [mulU64_eq hbits]; rfl) (.bind (.lift (pastBits_decides h)) fun hpast =>
    .bind (.lift (inodeBits_decides h)) fun hinodes =>
      have hfine : BitmapsFine sb (viewOf sb d) :=
        ⟨h0, h.valid.root_eq ▸ h1, hreserved, hscan, hdata, hpast, hinodes⟩
      checkTree_decides h (hfine.owned fun _ _ => fits_of_slot) hfine.directories))))))) ?_
    fun _ => rfl
  constructor
  · rintro ⟨h0, h1, hreserved, hscan, hdata, hpast, hinodes, hL⟩
    have hfine : BitmapsFine sb (viewOf sb d) :=
      ⟨h0, h.valid.root_eq ▸ h1, hreserved, hscan, hdata, hpast, hinodes⟩
    exact ⟨hfine.owned fun _ _ => fits_of_slot, hL⟩
  · rintro ⟨ho, hL⟩
    have hfine := ho.bitmapsFine h.valid (.of_linked h.sized ho hL)
    exact ⟨hfine.reservedInode, h.valid.root_eq ▸ hfine.rootInode, hfine.reserved, hfine.scanned,
      hfine.data, hfine.blockBits, hfine.inodeBits, hL⟩

/-! ## The whole check -/

theorem deviceBytes_run (h : d.sectorCount * d.sectorSize < 2 ^ 64) :
    deviceBytes d = (.ok (d.sectorCount * d.sectorSize), d) := by
  rw [deviceBytes, get_bind, checkedMul_eq h, okOr_some, pure_run]

theorem deviceBytes_overflow (h : ¬d.sectorCount * d.sectorSize < 2 ^ 64) :
    deviceBytes d = (.error (.error .tooSmall), d) := by
  rw [deviceBytes, get_bind, checkedMul_none h, okOr_none, fail_run]

theorem Aligned.room_iff (h : Aligned d) : ¬sb.totalBlocks > d.sectorCount * d.sectorSize / blockSize ↔
    4096 * sb.totalBlocks ≤ d.bytes.length := by
  rw [← h.capacity_le, Nat.not_lt, Nat.le_div_iff_mul_le (by decide), Nat.mul_comm]

theorem checkDetailed_accepted (h : Accepted d sb) : Decides checkDetailed d
    (Owned sb (viewOf sb d) ∧ Linked (viewOf sb d).flat) (reportOf sb d) := by
  have hread := readSuperblock_aligned h.toAligned (length_of_decode h.decoded)
  rw [h.decoded] at hread
  have hroom := h.toAligned.room_iff.mpr h.room
  refine (Decides.bind_ok hread (.guard fun _ => .bind_ok (deviceBytes_run h.size_lt)
    (.guard fun _ => checkVolume_decides h.ready))).congr ?_ fun _ => rfl
  rw [and_iff_right h.clean, and_iff_right hroom]

theorem checkDetailed_rejected (h : ∀ sb, ¬Accepted d sb) :
    ∃ e, checkDetailed d = (.error (.error e), d) := by
  unfold checkDetailed
  rcases readSuperblock_cases with ⟨sb, ha, hd, hread⟩ | ⟨-, e, hread⟩
  case inr => exact ⟨e, bind_of_error hread⟩
  rw [bind_of_ok hread]
  by_cases hc : sb.isClean = true
  case neg => exact ⟨_, ensure_bind_neg hc ..⟩
  rw [ensure_bind_pos hc]
  by_cases hs : d.sectorCount * d.sectorSize < 2 ^ 64
  case neg => exact ⟨_, bind_of_error (deviceBytes_overflow hs)⟩
  rw [bind_of_ok (deviceBytes_run hs), ensure_bind_neg]
  · exact ⟨_, rfl⟩
  · exact fun hroom => h sb ⟨ha, hd, hc, hs, ha.room_iff.mp hroom⟩

end NexOs.Nexfs
