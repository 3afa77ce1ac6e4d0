import NexOs.Storage.GptWrite
import NexOs.Storage.InstallerVerify

/-! The guided installation from any disk that is large enough: the table is
written, verified, and found by the general reader. -/
namespace NexOs.Storage
open Bytes Exec

/-! ## A table that is on the disk passes the verifier -/

structure RowMatches (typeGuid : Guid) (span : PartitionSpan) (row : GptRow) : Prop where
  type_eq : row.typeGuid = typeGuid
  first_eq : row.firstLba = span.firstLba
  count_pos : 0 < span.sectorCount
  last_eq : row.lastLba = span.firstLba + (span.sectorCount - 1)
  last_lt : row.lastLba < 2 ^ 64

theorem RowMatches.entryMatches {typeGuid : Guid} {span : PartitionSpan} {row : GptRow}
    (h : RowMatches typeGuid span row) : EntryMatches typeGuid span row.bytes := by
  have hfirst := h.first_eq
  have hlast := h.last_eq
  have hlt := h.last_lt
  constructor
  · rw [row.guidAt_type, h.type_eq]
  · rw [row.le_first (by omega), h.first_eq]
  · exact h.count_pos
  · omega
  · rw [entryLast, row.le_last h.last_lt, h.last_eq]

structure RowsMatch (expected : InstallerLayout) (rows : List GptRow) : Prop where
  bios : ∃ row, rows[0]? = some row ∧ RowMatches biosBootTypeGuid expected.bios row
  esp : ∃ row, rows[1]? = some row ∧ RowMatches espTypeGuid expected.esp row
  root : ∃ row, rows[2]? = some row ∧ RowMatches nexfsTypeGuid expected.root row

variable {d : Disk} {total : Nat} {rows : List GptRow}

section
variable {expected : InstallerLayout}

theorem GptImage.sectorAt_entries (h : GptImage d total expected.diskGuid rows) :
    sectorAt d 2 = entrySectorOf rows 0 := by
  have hentries := h.entries
  rw [sectorAt, h.size, entrySectorOf, ← hentries, slice_slice (by decide)]

theorem slice_entrySectorOf {row : GptRow} (hi : i < 4) (hrow : rows[i]? = some row) :
    slice (entrySectorOf rows 0) (i * 128) 128 = row.bytes := by
  rw [entrySectorOf, slice_slice (by omega), Nat.zero_add, slice_gptEntries_used hrow]

theorem RowsMatch.entriesMatch (h : RowsMatch expected rows) :
    EntriesMatch expected (entrySectorOf rows 0) := by
  obtain ⟨bios, hbios, hbiosFine⟩ := h.bios
  obtain ⟨esp, hesp, hespFine⟩ := h.esp
  obtain ⟨root, hroot, hrootFine⟩ := h.root
  have h0 := slice_entrySectorOf (by decide) hbios
  have h1 := slice_entrySectorOf (by decide) hesp
  have h2 := slice_entrySectorOf (by decide) hroot
  constructor
  · rw [h0]
    exact hbiosFine.entryMatches
  · rw [h1]
    exact hespFine.entryMatches
  · rw [h2]
    exact hrootFine.entryMatches

theorem GptImage.verified (h : GptImage d total expected.diskGuid rows)
    (hrows : RowsMatch expected rows) (hmin : 68 ≤ total) (hlt : total < 2 ^ 64) :
    Verified expected d := by
  obtain ⟨sectors, hpos, hbound, hmbr⟩ := h.mbr
  have hlen := mul_sectorCount_le d
  have hlast := gptLastUsable_lt (show 34 ≤ total by omega)
  have hheader := h.primaryHeader hmin hlt
  have hbackup : headerOf (sectorAt d (total - 1)) =
      gptHeaderOf (total - 1) 1 total expected.diskGuid (total - 33) (crc32 (gptEntries rows)) := by
    rw [h.backup, headerOf_gptHeader (by omega) (by decide) (by decide) (by omega) (by omega),
      gptHeaderOf]
  rw [h.size, h.count] at hlen
  constructor
  · exact h.size
  · rw [h.size]
    omega
  · rw [hmbr]
    exact mbrFine_protectiveMbr hpos hbound
  · rw [hmbr, mbrOf_protectiveMbr hbound]
    rfl
  · rw [h.size]
    omega
  · rw [h.header]
    exact headerFine_gptHeader (by decide) (by omega) (by decide) (by omega) (by decide) (by omega)
      (gptFirst_le_last hmin)
  · rw [hheader]
    constructor
    · rfl
    · rw [h.count]
      rfl
    · rfl
    · rfl
    · rfl
    · intro i hi
      dsimp only [gptEntrySectors] at hi
      refine ⟨?_, ?_, ?_⟩
      · dsimp only [gptHeaderOf]
        omega
      · dsimp only [gptHeaderOf]
        rw [h.size]
        omega
      · intro _
        dsimp only [gptHeaderOf]
        rw [h.sectorAt_entries]
        exact hrows.entriesMatch
    · rw [h.entryArray_eq]
      rfl
  · rw [hheader]
    have hlba : (gptHeaderOf 1 (total - 1) total expected.diskGuid 2
      (crc32 (gptEntries rows))).backupLba = total - 1 := rfl
    constructor
    · rw [h.size]
      omega
    · rw [hlba, h.backup]
      exact headerFine_gptHeader (by omega) (by decide) (by decide) (by omega) (by omega) (by omega)
        (gptFirst_le_last hmin)
    · rw [hlba, hbackup]
      rfl
    · rw [hlba, hbackup]
      rfl
    · rw [hlba, hbackup]
      rfl
    · rw [hlba, hbackup]
      rfl

end

/-! ## The layout -/

def guidedLayout (total : Nat) (diskGuid : Guid) : InstallerLayout where
  diskGuid := diskGuid
  bios := ⟨2048, 2048⟩
  esp := ⟨4096, 131072⟩
  root := ⟨135168, total - 34 - 135168 + 1⟩

theorem guidedInstallerLayout_ok (hmin : 262144 ≤ total) (diskGuid : Guid) :
    guidedInstallerLayout total diskGuid = .ok (guidedLayout total diskGuid) := by
  have hminimum : minDiskSectors = 262144 := rfl
  have hroot : alignUp (alignmentSectors + biosSectors + espSectors) alignmentSectors = 135168 := by
    decide
  unfold guidedInstallerLayout
  rw [Result.ensure_pos (by omega), Result.bind_ok, checkedSub_eq (show 1 + 32 ≤ total by omega),
    Result.okOr_some, Result.bind_ok, checkedSub_eq (by omega), Result.okOr_some, Result.bind_ok]
  dsimp only
  rw [checkedAdd_eq (by decide), Result.okOr_some, Result.bind_ok, Result.ensure_pos (by omega)]
  rfl

def PartitionSpan.last (span : PartitionSpan) : Nat := span.firstLba + span.sectorCount - 1

def PartitionSpan.sectors (span : PartitionSpan) : Set Nat :=
  Set.Ico span.firstLba (span.firstLba + span.sectorCount)

def Partition.span (p : Partition) : PartitionSpan := ⟨p.firstLba, p.sectorCount⟩

def InstallerLayout.spans (layout : InstallerLayout) : List PartitionSpan :=
  [layout.bios, layout.esp, layout.root]

theorem InstallerLayout.forall_spans {layout : InstallerLayout} {P : PartitionSpan → Prop} :
    (∀ span ∈ layout.spans, P span) ↔ P layout.bios ∧ P layout.esp ∧ P layout.root := by
  simp [spans]

/-- The sectors of the headers and the entry arrays of a GPT, primary and backup. -/
def gptReserved (total : Nat) : Set Nat :=
  {1, total - 1} ∪ Set.Ico 2 34 ∪ Set.Ico (total - 33) (total - 1)

def installerRows (guids : InstallerGuids) (layout : InstallerLayout) : List GptRow :=
  [⟨biosBootTypeGuid, guids.bios, layout.bios.firstLba, layout.bios.last, biosName⟩,
    ⟨espTypeGuid, guids.esp, layout.esp.firstLba, layout.esp.last, espName⟩,
    ⟨nexfsTypeGuid, guids.root, layout.root.firstLba, layout.root.last, rootName⟩]

/-! ## The run -/

theorem writeEntrySectors_run (sector : Nat → List UInt8) {entrySector : List UInt8}
    (indices : List Nat) (crc : Crc32) (hsector : ∀ i ∈ indices,
      (if i = 0 then entrySector else List.replicate sectorBytes 0) = sector i)
    (htakes : ∀ i ∈ indices, d.Takes (2 + i, sector i) ∧ d.Takes (total - 33 + i, sector i)) :
    indices.foldlM (writeEntrySector entrySector (total - 33)) crc d =
      (.ok (crc.update (indices.flatMap sector)),
        d.putAll (indices.flatMap fun i => [(2 + i, sector i), (total - 33 + i, sector i)])) := by
  induction indices generalizing d crc with
  | nil => rfl
  | cons i rest ih =>
    obtain ⟨⟨hprimary, hbackup⟩, hrest⟩ := List.forall_mem_cons.mp htakes
    obtain ⟨hhead, htail⟩ := List.forall_mem_cons.mp hsector
    have hstep : writeEntrySector entrySector (total - 33) crc i d = (.ok (crc.update (sector i)),
        (d.put (2 + i) (sector i)).put (total - 33 + i) (sector i)) := by
      unfold writeEntrySector
      rw [hhead]
      rw [bind_of_ok (Disk.writeSectors_run hprimary),
        bind_of_ok (Disk.writeSectors_run (hbackup.put hprimary))]
      rfl
    rw [List.foldlM_cons, bind_of_ok hstep, ih _ htail, Crc32.update_update]
    · rfl
    · intro j hj
      obtain ⟨hp, hb⟩ := hrest j hj
      exact ⟨(hp.put hprimary).put (hbackup.put hprimary), (hb.put hprimary).put (hbackup.put hprimary)⟩

variable {span : PartitionSpan} {layout : InstallerLayout} {guids : InstallerGuids} {guid : Guid}
  {name : List Char}

theorem encodeEntry_ok (hpos : 0 < span.sectorCount)
    (hlt : span.firstLba + span.sectorCount < 2 ^ 64) (typeGuid uniqueGuid : Guid) :
    encodeEntry typeGuid uniqueGuid span name =
      .ok (GptRow.bytes ⟨typeGuid, uniqueGuid, span.firstLba, span.last, name⟩) := by
  unfold encodeEntry
  rw [addU64_eq hlt, Result.bind_ok, subU64_eq (by omega)]
  rfl

theorem threeEntries (hx : x.length = 128) (hy : y.length = 128) (hz : z.length = 128) :
    writeFields (List.replicate sectorBytes 0) [(0, x), (128, y), (256, z)] =
      x ++ y ++ z ++ List.replicate 128 0 := by
  have hfirst : splice (splice (List.replicate sectorBytes 0) 0 x) 128 y =
      splice (List.replicate sectorBytes 0) 0 (x ++ y) := by
    have h : splice (splice (List.replicate sectorBytes 0) 0 x) (0 + x.length) y =
        splice (List.replicate sectorBytes 0) 0 (x ++ y) :=
      splice_splice_append (by rw [hx, List.length_replicate]; decide)
    rwa [hx] at h
  have hsecond : splice (splice (List.replicate sectorBytes 0) 0 (x ++ y)) 256 z =
      splice (List.replicate sectorBytes 0) 0 (x ++ y ++ z) := by
    have h : splice (splice (List.replicate sectorBytes 0) 0 (x ++ y)) (0 + (x ++ y).length) z =
        splice (List.replicate sectorBytes 0) 0 (x ++ y ++ z) :=
      splice_splice_append (by rw [List.length_append, hx, hy, List.length_replicate]; decide)
    rwa [List.length_append, hx, hy] at h
  rw [writeFields, List.foldl_cons, List.foldl_cons, List.foldl_cons, List.foldl_nil, hfirst, hsecond,
    splice, List.take_zero, List.nil_append, List.drop_replicate, List.length_append,
    List.length_append, hx, hy, hz, show sectorBytes - (0 + (128 + 128 + 128)) = 128 from rfl]

theorem installerEntries_ok (guids : InstallerGuids)
    (hspans : ∀ span ∈ layout.spans, 0 < span.sectorCount ∧
      span.firstLba + span.sectorCount < 2 ^ 64) :
    installerEntries guids layout = .ok (entrySectorOf (installerRows guids layout) 0) := by
  obtain ⟨hbios, hesp, hroot⟩ := InstallerLayout.forall_spans.mp hspans
  unfold installerEntries
  rw [encodeEntry_ok hbios.1 hbios.2, Result.bind_ok, encodeEntry_ok hesp.1 hesp.2, Result.bind_ok,
    encodeEntry_ok hroot.1 hroot.2, Result.bind_ok, threeEntries (GptRow.length_bytes _)
    (GptRow.length_bytes _) (GptRow.length_bytes _)]
  apply congrArg Except.ok
  have hlen := length_rows (installerRows guids layout)
  rw [show (installerRows guids layout).length = 3 from rfl] at hlen
  rw [entrySectorOf, gptEntries, slice, List.drop_zero, List.take_append,
    List.take_of_length_le (by rw [hlen]; decide), hlen, List.take_replicate,
    show (installerRows guids layout).length = 3 from rfl,
    show min (512 - 128 * 3) (128 * (gptEntryCount - 3)) = 128 from rfl]
  simp only [installerRows, List.flatMap_cons, List.flatMap_nil, List.append_nil, List.append_assoc]

theorem entrySectorOf_zero (hrows : rows.length ≤ 4) (hpos : 0 < i)
    (hi : i < gptEntrySectors) : entrySectorOf rows i = List.replicate sectorBytes 0 := by
  have hlen := length_rows rows
  dsimp only [gptEntrySectors] at hi
  rw [entrySectorOf, gptEntries, slice_append_right (by omega), slice_replicate]
  dsimp only [gptEntryCount]
  omega

theorem rowMatches_of_span (typeGuid uniqueGuid : Guid) (hpos : 0 < span.sectorCount)
    (hlt : span.firstLba + span.sectorCount < 2 ^ 64) :
    RowMatches typeGuid span ⟨typeGuid, uniqueGuid, span.firstLba, span.last, name⟩ := by
  refine ⟨rfl, rfl, hpos, ?_, ?_⟩
  · dsimp only [PartitionSpan.last]
    omega
  · dsimp only [PartitionSpan.last]
    omega

/-- A layout whose spans a GPT on `total` sectors can hold. -/
structure LayoutFine (total : Nat) (layout : InstallerLayout) : Prop where
  count_pos : ∀ span ∈ layout.spans, 0 < span.sectorCount
  first_ge : ∀ span ∈ layout.spans, gptFirstUsableLba ≤ span.firstLba
  stop_le : ∀ span ∈ layout.spans, span.firstLba + span.sectorCount ≤ gptLastUsable total + 1
  apart : layout.spans.Pairwise fun s t =>
    s.firstLba + s.sectorCount ≤ t.firstLba ∨ t.firstLba + t.sectorCount ≤ s.firstLba

theorem guidedLayout_fine (hmin : 262144 ≤ total) (guid : Guid) :
    LayoutFine total (guidedLayout total guid) := by
  constructor
  · simp [InstallerLayout.spans, guidedLayout]
  · simp [InstallerLayout.spans, guidedLayout, gptFirstUsableLba]
  · simp only [InstallerLayout.spans, guidedLayout, gptLastUsable, List.forall_mem_cons,
      List.not_mem_nil, false_imp_iff, implies_true, and_true]
    omega
  · simp [InstallerLayout.spans, guidedLayout]

theorem LayoutFine.rowsMatch (h : LayoutFine total layout) (hlt : total < 2 ^ 64)
    (guids : InstallerGuids) : RowsMatch layout (installerRows guids layout) := by
  have hspan : ∀ span ∈ layout.spans, 0 < span.sectorCount ∧
      span.firstLba + span.sectorCount < 2 ^ 64 := by
    intro span hspan
    have := h.stop_le span hspan
    dsimp only [gptLastUsable] at this
    exact ⟨h.count_pos span hspan, by omega⟩
  obtain ⟨hbios, hesp, hroot⟩ := InstallerLayout.forall_spans.mp hspan
  exact ⟨⟨_, rfl, rowMatches_of_span _ _ hbios.1 hbios.2⟩,
    ⟨_, rfl, rowMatches_of_span _ _ hesp.1 hesp.2⟩,
    ⟨_, rfl, rowMatches_of_span _ _ hroot.1 hroot.2⟩⟩

theorem typeGuids_ne_zero : ¬biosBootTypeGuid.isZero ∧ ¬espTypeGuid.isZero ∧ ¬nexfsTypeGuid.isZero := by
  decide

structure InstallerGuids.Valid (guids : InstallerGuids) : Prop where
  disk : ¬guids.disk.isZero
  bios : ¬guids.bios.isZero
  esp : ¬guids.esp.isZero
  root : ¬guids.root.isZero

theorem LayoutFine.rowsFine (h : LayoutFine total layout) (hguids : guids.Valid) :
    RowsFine gptFirstUsableLba (gptLastUsable total) (installerRows guids layout) := by
  have hrow : ∀ span ∈ layout.spans, gptFirstUsableLba ≤ span.firstLba ∧
      span.firstLba ≤ span.last ∧ span.last ≤ gptLastUsable total := by
    intro span hspan
    have hpos := h.count_pos span hspan
    have hstop := h.stop_le span hspan
    dsimp only [PartitionSpan.last]
    exact ⟨h.first_ge span hspan, by omega, by omega⟩
  obtain ⟨hbios, hesp, hroot⟩ := InstallerLayout.forall_spans.mp hrow
  have ⟨hbt, het, hrt⟩ := typeGuids_ne_zero
  constructor
  · change 3 ≤ 128
    decide
  · intro row hmem
    simp only [installerRows, List.mem_cons, List.not_mem_nil, or_false] at hmem
    rcases hmem with rfl | rfl | rfl
    · exact ⟨hbt, hguids.bios, hbios.1, hbios.2.1, hbios.2.2⟩
    · exact ⟨het, hguids.esp, hesp.1, hesp.2.1, hesp.2.2⟩
    · exact ⟨hrt, hguids.root, hroot.1, hroot.2.1, hroot.2.2⟩
  · have hpos := h.count_pos
    have hapart := h.apart
    simp only [InstallerLayout.spans, List.pairwise_cons, List.forall_mem_cons] at hapart hpos
    simp only [installerRows, List.pairwise_cons, List.forall_mem_cons, List.not_mem_nil,
      false_imp_iff, implies_true, List.Pairwise.nil, and_true, PartitionSpan.last]
    omega

theorem encodeHeader_ok (h : 34 ≤ total) (current backup : Nat) (entries : Nat) (crc : UInt32) :
    encodeHeader current backup total guid entries crc =
      .ok (gptHeader current backup gptFirstUsableLba (gptLastUsable total) guid entries crc) := by
  unfold encodeHeader
  rw [subU64_eq (show 32 ≤ total by omega), Result.bind_ok, subU64_eq (by omega), Result.bind_ok,
    gptLastUsable, Nat.sub_sub]

theorem GptImage.flushed (h : GptImage d total guid rows) : GptImage d.flushed total guid rows :=
  ⟨h.size, h.count, h.mbr, h.header, h.entries, h.backup, h.backupEntries⟩

theorem writeGuidedInstallerGpt_run (hguids : guids.Valid) (hsize : d.sectorSize = 512)
    (hcount : d.sectorCount = total) (hmin : 262144 ≤ total) (hlt : total < 2 ^ 64) :
    writeGuidedInstallerGpt guids d =
      (.ok (guidedLayout total guids.disk), (d.putAll (gptWrites total guids.disk
        (installerRows guids (guidedLayout total guids.disk)))).flushed) := by
  have hfine := guidedLayout_fine hmin guids.disk
  have hrows : (installerRows guids (guidedLayout total guids.disk)).length ≤ 4 := by
    change 3 ≤ 4
    decide
  have hspans : ∀ span ∈ (guidedLayout total guids.disk).spans, 0 < span.sectorCount ∧
      span.firstLba + span.sectorCount < 2 ^ 64 := by
    intro span hspan
    have := hfine.stop_le span hspan
    dsimp only [gptLastUsable] at this
    exact ⟨hfine.count_pos span hspan, by omega⟩
  have hentries := installerEntries_ok guids hspans
  have hmatch := hfine.rowsMatch hlt guids
  have hlayout := guidedInstallerLayout_ok hmin guids.disk
  have hguid : (guidedLayout total guids.disk).diskGuid = guids.disk := rfl
  generalize guidedLayout total guids.disk = layout at *
  generalize hr : installerRows guids layout = rows at *
  have hd : Distinct d (gptWrites total guids.disk rows) :=
    gptWrites_distinct hsize hcount (by omega) (hrows.trans (by decide))
  have himage : GptImage (d.putAll (gptWrites total guids.disk rows)).flushed total
      layout.diskGuid rows := by
    rw [hguid]
    exact (gptImage_putAll hsize hcount (by omega) (hrows.trans (by decide))).flushed
  have hverify := (verifyGuidedInstallerGpt_accepts _ layout).run_ok
    (himage.verified hmatch (by omega) hlt)
  have hentryTakes : ∀ w ∈ entryWrites total (entrySectorOf rows), d.Takes w := fun w hw =>
    hd.takes w (List.mem_append_left _ hw)
  have hheaderTakes : ∀ w ∈ headerWrites total guids.disk (crc32 (gptEntries rows)),
      (d.putAll (entryWrites total (entrySectorOf rows))).Takes w := fun w hw =>
    (hd.takes w (List.mem_append_right _ hw)).putAll hentryTakes
  have hloop : (List.range gptEntrySectors).foldlM
      (writeEntrySector (entrySectorOf rows 0) (total - 33)) Crc32.new d =
      (.ok (Crc32.new.update (gptEntries rows)),
        d.putAll (entryWrites total (entrySectorOf rows))) := by
    rw [writeEntrySectors_run (entrySectorOf rows), flatMap_entrySectorOf (hrows.trans (by decide))]
    · rfl
    · intro i hi
      by_cases hzero : i = 0
      · rw [if_pos hzero, hzero]
      · rw [if_neg hzero, entrySectorOf_zero hrows (Nat.pos_of_ne_zero hzero) (List.mem_range.mp hi)]
    · intro i hi
      exact ⟨hentryTakes _ (mem_entryWrites.mpr ⟨i, List.mem_range.mp hi, .inl rfl⟩),
        hentryTakes _ (mem_entryWrites.mpr ⟨i, List.mem_range.mp hi, .inr rfl⟩)⟩
  simp only [headerWrites, List.forall_mem_cons] at hheaderTakes
  obtain ⟨hmbr, hprimary, hbackup, _⟩ := hheaderTakes
  unfold writeGuidedInstallerGpt
  rw [get_bind, ensure_bind_pos hsize]
  rw [hcount, hlayout, lift_ok_bind, ensure_bind_pos (by
      simp [hguids.disk, hguids.bios, hguids.esp, hguids.root]),
    subU64_eq (by omega), lift_ok_bind, subU64_eq (show 32 ≤ total - 1 by omega),
    lift_ok_bind, hentries, lift_ok_bind, show total - 1 - 32 = total - 33 by omega,
    bind_of_ok hloop, Crc32.finish_update, bind_of_ok (Disk.writeSectors_run hmbr),
    encodeHeader_ok (by omega), lift_ok_bind, hguid,
    bind_of_ok (Disk.writeSectors_run (hprimary.put hmbr)), encodeHeader_ok (by omega),
    lift_ok_bind,
    bind_of_ok (Disk.writeSectors_run ((hbackup.put hmbr).put (hprimary.put hmbr)))]
  exact bind_of_ok (f := fun _ => pure layout) hverify

theorem rowPartitions_spans (hpos : ∀ span ∈ layout.spans, 0 < span.sectorCount) :
    (rowPartitions (installerRows guids layout)).map
        (fun p => (p.typeGuid, p.uniqueGuid, p.span)) =
      [(some biosBootTypeGuid, some guids.bios, layout.bios),
        (some espTypeGuid, some guids.esp, layout.esp),
        (some nexfsTypeGuid, some guids.root, layout.root)] := by
  have hspan : ∀ span ∈ layout.spans,
      (⟨span.firstLba, span.last - span.firstLba + 1⟩ : PartitionSpan) = span := by
    intro span hspan
    have := hpos span hspan
    have hcount : span.last - span.firstLba + 1 = span.sectorCount := by
      dsimp only [PartitionSpan.last]
      omega
    rw [hcount]
  obtain ⟨hbios, hesp, hroot⟩ := InstallerLayout.forall_spans.mp hspan
  simp only [rowPartitions, installerRows, List.zipIdx_cons, List.zipIdx_nil, List.map_cons,
    List.map_nil, GptRow.partition, Partition.span, hbios, hesp, hroot]

theorem PartitionSpan.disjoint_of_apart {s t : PartitionSpan}
    (h : s.firstLba + s.sectorCount ≤ t.firstLba ∨ t.firstLba + t.sectorCount ≤ s.firstLba) :
    Disjoint s.sectors t.sectors := by
  rw [Set.disjoint_left]
  intro sector hs ht
  have hs' := Set.mem_Ico.mp hs
  have ht' := Set.mem_Ico.mp ht
  omega

theorem LayoutFine.disjoint_reserved (h : LayoutFine total layout) (hspan : span ∈ layout.spans) :
    Disjoint span.sectors (gptReserved total) := by
  have hfirst := h.first_ge span hspan
  have hstop := h.stop_le span hspan
  dsimp only [gptFirstUsableLba, gptLastUsable] at hfirst hstop
  rw [Set.disjoint_left]
  intro sector hs hr
  have hs' := Set.mem_Ico.mp hs
  simp only [gptReserved, Set.mem_union, Set.mem_insert_iff, Set.mem_singleton_iff,
    Set.mem_Ico] at hr
  omega

/-- On every disk of 512-byte sectors that is large enough, whatever it held, the
guided table is written and the general reader finds exactly its three partitions. -/
theorem guidedInstaller_roundTrip (d : Disk) (guids : InstallerGuids) (hsize : d.sectorSize = 512)
    (hmin : 262144 ≤ d.sectorCount) (hlt : d.sectorCount < 2 ^ 64) (hguids : guids.Valid) :
    ∃ layout d', writeGuidedInstallerGpt guids d = (.ok layout, d') ∧
      (∃ table, readPartitionTable d' = (.ok table, d') ∧ table.kind = .gpt ∧
        table.diskGuid = some guids.disk ∧
        table.partitions.map (fun p => (p.typeGuid, p.uniqueGuid, p.span)) =
          [(some biosBootTypeGuid, some guids.bios, layout.bios),
            (some espTypeGuid, some guids.esp, layout.esp),
            (some nexfsTypeGuid, some guids.root, layout.root)]) ∧
      (layout.spans.Pairwise fun s t => Disjoint s.sectors t.sectors) ∧
      (∀ span ∈ layout.spans, span.firstLba % 2048 = 0) ∧
      ∀ span ∈ layout.spans, Disjoint span.sectors (gptReserved d.sectorCount) := by
  have hfine := guidedLayout_fine hmin guids.disk
  have himage : GptImage (d.putAll (gptWrites d.sectorCount guids.disk (installerRows guids
      (guidedLayout d.sectorCount guids.disk)))).flushed d.sectorCount guids.disk
      (installerRows guids (guidedLayout d.sectorCount guids.disk)) :=
    (gptImage_putAll hsize rfl (by omega) (hfine.rowsFine hguids).count_le).flushed
  refine ⟨_, _, writeGuidedInstallerGpt_run hguids hsize rfl hmin hlt,
    ⟨_, himage.read_ok (hfine.rowsFine hguids) (by omega) hlt, rfl, rfl, ?_⟩, ?_, ?_, ?_⟩
  · exact rowPartitions_spans hfine.count_pos
  · exact hfine.apart.imp PartitionSpan.disjoint_of_apart
  · simp [InstallerLayout.spans, guidedLayout]
  · intro span hspan
    exact hfine.disjoint_reserved hspan

def sampleGuids : InstallerGuids :=
  ⟨Vector.replicate 16 1, Vector.replicate 16 2, Vector.replicate 16 3, Vector.replicate 16 4⟩

theorem sampleGuids_valid : sampleGuids.Valid := by
  constructor <;> decide

/-- The smallest disk that is accepted. -/
theorem guidedInstaller_roundTrip_smallest :
    ∃ layout d', writeGuidedInstallerGpt sampleGuids (Disk.zeroed 262144 512) = (.ok layout, d') ∧
      ∃ table, readPartitionTable d' = (.ok table, d') ∧ table.partitions.length = 3 := by
  have hcount := sectorCount_zeroed 262144
  obtain ⟨layout, d', hrun, ⟨table, hread, _, _, hspans⟩, _⟩ := guidedInstaller_roundTrip
    (Disk.zeroed 262144 512) sampleGuids rfl hcount.ge (by rw [hcount]; decide) sampleGuids_valid
  refine ⟨layout, d', hrun, table, hread, ?_⟩
  have hlength := congrArg List.length hspans
  rwa [List.length_map] at hlength

end NexOs.Storage
