import NexOs.Host.MbrImage
import NexOs.Lib.Positions

/-! Layouts that were written are read back as they were planned. -/
namespace NexOs.Host
open List hiding Vector
open Bytes Storage Result

/-! ## Inspecting an image -/

variable {bytes : List UInt8}

theorem readTable_decides :
    Decides (readTable bytes) (TableDisk (diskOf bytes)) (tableOf (diskOf bytes)) := by
  obtain ⟨r, hrun, hr⟩ := readPartitionTable_decides
  rcases hr with ⟨hfine, rfl⟩ | ⟨hfine, e, rfl⟩
  · left
    refine ⟨hfine, ?_⟩
    rw [readTable, Exec.mapError_of_ok hrun]
  · right
    refine ⟨hfine, .cannotRead e, ?_⟩
    rw [readTable, Exec.mapError_of_error hrun]

structure Inspectable (bytes : List UInt8) : Prop where
  ne_nil : bytes ≠ []
  aligned : bytes.length % 512 = 0
  table : TableDisk (diskOf bytes)

def reportOf (bytes : List UInt8) (table : PartitionTable) : DiskReport where
  bytes := bytes.length
  sectors := (diskOf bytes).sectorCount
  sectorSize := sectorSize
  table := tableKind table.kind
  partitions := table.partitions.map (reportPartition bytes)

theorem inspectBytes_decides :
    Decides (inspectBytes bytes) (Inspectable bytes)
      (reportOf bytes (tableOf (diskOf bytes))) := by
  refine Decides.congr (.guard fun _ => .bind readTable_decides fun _ => .of_ok rfl)
    ?_ fun _ => rfl
  rw [not_or, not_not, and_true]
  exact ⟨fun h => ⟨h.1.1, h.1.2, h.2⟩, fun h => ⟨⟨h.ne_nil, h.aligned⟩, h.table⟩⟩

theorem inspectBytes_of_read {table : PartitionTable} (hne : bytes ≠ [])
    (haligned : bytes.length % 512 = 0)
    (hread : readPartitionTable (diskOf bytes) = (.ok table, diskOf bytes)) :
    inspectBytes bytes = .ok (reportOf bytes table) := by
  have ⟨hfine, htable, _⟩ := readPartitionTable_decides.of_run_ok hread
  rw [inspectBytes_decides.eq_ok ⟨hne, haligned, hfine⟩, htable]

/-! ## Writing a plan -/

structure LayoutPlan.Writable (plan : LayoutPlan) : Prop where
  fine : plan.Fine
  short : plan.kind = .mbr → ∀ p ∈ plan.partitions, p.Short

def cleared (image : List UInt8) : List UInt8 := splice image 0 (List.replicate sectorSize 0)

def layoutImage (image : List UInt8) (plan : LayoutPlan) : List UInt8 :=
  match plan.kind with
  | .gpt => writeFields (cleared image)
      (imageFields plan.totalSectors plan.diskGuid (plan.partitions.map PartitionPlan.row))
  | .mbr => splice (cleared image) 0 (mbrSector plan.partitions)

def planTable (plan : LayoutPlan) : PartitionTable :=
  match plan.kind with
  | .gpt => gptTable plan.diskGuid (plan.partitions.map PartitionPlan.row)
  | .mbr => { kind := .mbr, diskGuid := none, partitions := planPartitions plan.partitions }

variable {image : List UInt8} {plan : LayoutPlan}

section

theorem length_cleared (h : 512 ≤ image.length) : (cleared image).length = image.length :=
  length_splice (by rw [length_replicate]; dsimp only [sectorSize]; omega)

theorem writeLayout_decides (hlen : image.length = 512 * plan.totalSectors)
    (hlt : image.length < 2 ^ 64) :
    Decides (writeLayout image plan) plan.Writable (layoutImage image plan) := by
  have hsectors : image.length / sectorSize = plan.totalSectors := by
    rw [hlen]
    exact Nat.mul_div_cancel_left _ (by decide)
  unfold writeLayout
  rw [ensure_pos hsectors, bind_ok]
  refine Decides.congr (P := plan.Fine ∧ (plan.kind = .mbr → ∀ p ∈ plan.partitions, p.Short))
    (.bind validateLayout_decides fun hfine => ?_)
    ⟨fun h => ⟨h.1, h.2⟩, fun h => ⟨h.fine, h.short⟩⟩ fun _ => rfl
  have hge := hfine.total_ge
  have hcleared := @length_cleared image (by omega)
  apply Decides.bind_ok (a := cleared image)
    (copyFromSlice_eq (by dsimp only [sectorSize]; omega) (length_replicate ..))
  unfold layoutImage
  cases hkind : plan.kind with
  | gpt =>
    refine .congr (.of_ok (writeGpt_run hfine hkind (by omega) (by omega))) ?_ fun _ => rfl
    exact ⟨fun _ h => (nomatch h), fun _ => trivial⟩
  | mbr =>
    refine .congr (writeMbr_decides hfine hkind (by omega)) ?_ fun _ => rfl
    exact ⟨fun h _ => h, fun h => h rfl⟩

theorem length_layoutImage (hfine : plan.Fine) (hlen : image.length = 512 * plan.totalSectors) :
    (layoutImage image plan).length = image.length := by
  have hge := hfine.total_ge
  have hcleared := @length_cleared image (by omega)
  unfold layoutImage
  cases hkind : plan.kind with
  | gpt =>
    rw [length_writeFields ((imageFields_laid (by omega) (hfine.rows_le hkind)).fit (by omega)),
      hcleared]
  | mbr =>
    have hsector := length_mbrSector (hfine.mbr_count hkind)
    rw [length_splice (by omega), hcleared]

variable (hfine : plan.Fine) (hlen : image.length = 512 * plan.totalSectors)
include hfine hlen

theorem gptImage_layoutImage (hkind : plan.kind = .gpt) :
    GptImage (diskOf (layoutImage image plan)) plan.totalSectors plan.diskGuid
      (plan.partitions.map PartitionPlan.row) := by
  have hge := hfine.total_ge
  have hcleared := @length_cleared image (by omega)
  rw [layoutImage, hkind]
  exact gptImage_writeFields (by omega) (by omega) (hfine.rows_le hkind)

theorem sectorAt_layoutImage (hkind : plan.kind = .mbr) :
    sectorAt (diskOf (layoutImage image plan)) 0 = mbrSector plan.partitions := by
  have hge := hfine.total_ge
  have hcleared := @length_cleared image (by omega)
  have hsector := length_mbrSector (hfine.mbr_count hkind)
  have hslice := @slice_splice_self _ (cleared image) (mbrSector plan.partitions) 0 (by omega)
  rw [hsector] at hslice
  rw [layoutImage, hkind]
  exact hslice

end

section
variable (h : plan.Writable) (hlen : image.length = 512 * plan.totalSectors)
  (hlt : image.length < 2 ^ 64) (hunique : ∀ p ∈ plan.partitions, ¬p.uniqueGuid.isZero)
include h hlen hlt hunique

theorem readPartitionTable_layoutImage :
    readPartitionTable (diskOf (layoutImage image plan)) =
      (.ok (planTable plan), diskOf (layoutImage image plan)) := by
  have hge := h.fine.total_ge
  unfold planTable
  cases hkind : plan.kind with
  | gpt =>
    exact (gptImage_layoutImage h.fine hlen hkind).read_ok (h.fine.rowsFine hkind hunique)
      (by omega) (by omega)
  | mbr =>
    exact readMbr_ok h.fine hkind (h.short hkind)
      ((length_layoutImage h.fine hlen).trans hlen) (sectorAt_layoutImage h.fine hlen hkind)

theorem readTable_layoutImage : readTable (layoutImage image plan) = .ok (planTable plan) := by
  rw [readTable, Exec.mapError_of_ok (readPartitionTable_layoutImage h hlen hlt hunique)]

theorem inspectBytes_layoutImage :
    inspectBytes (layoutImage image plan) =
      .ok (reportOf (layoutImage image plan) (planTable plan)) := by
  have hge := h.fine.total_ge
  have hsame := length_layoutImage h.fine hlen
  apply inspectBytes_of_read
  · apply ne_nil_of_length_pos
    omega
  · omega
  · exact readPartitionTable_layoutImage h hlen hlt hunique

end

/-! ## What is reported of each partition -/

structure Place where
  firstLba : Nat
  sectorCount : Nat
  role : PartitionRole
  deriving DecidableEq

def PartitionPlan.place (p : PartitionPlan) : Place where
  firstLba := p.firstLba
  sectorCount := p.sectorCount
  role := p.role

def PartitionReport.place (r : PartitionReport) : Place where
  firstLba := r.firstLba
  sectorCount := r.sectorCount
  role := r.role

theorem planTable_reports (hfine : plan.Fine) (bytes : List UInt8) :
    ((planTable plan).partitions.map (reportPartition bytes)).map (fun r => (r.index, r.place)) =
      plan.partitions.zipIdx.map fun p => (p.2 + 1, p.1.place) := by
  unfold planTable
  cases hkind : plan.kind with
  | gpt =>
    dsimp only [gptTable, rowPartitions]
    rw [zipIdx_map, map_map, map_map, map_map]
    apply map_congr_left
    intro p hp
    have hfits := hfine.plans.fits p.1 (fst_mem_of_mem_zipIdx hp)
    have hpos := hfits.count_pos
    have hcount : p.1.firstLba + p.1.sectorCount - 1 - p.1.firstLba + 1 = p.1.sectorCount := by
      omega
    dsimp only [Function.comp, Prod.map, reportPartition, GptRow.partition, PartitionPlan.row,
      PartitionPlan.stop, roleOf, Option.map_some]
    rw [roleFromGuid_typeGuid, hcount]
    rfl
  | mbr =>
    dsimp only [planPartitions]
    rw [map_map, map_map]
    apply map_congr_left
    intro p _
    dsimp only [Function.comp, reportPartition, PartitionPlan.partition, PartitionReport.place,
      PartitionPlan.place, roleOf, Option.map_some, Option.map_none, Option.none_or,
      Option.getD_some]
    rw [roleFromMbr_mbrType]

theorem planTable_places (hfine : plan.Fine) :
    (reportOf bytes (planTable plan)).partitions.map PartitionReport.place =
      plan.partitions.map PartitionPlan.place := by
  have hreports := congrArg (map Prod.snd) (planTable_reports hfine bytes)
  rw [map_map, map_map, map_map] at hreports
  rw [reportOf, map_map]
  exact hreports.trans (map_zipIdx_fst PartitionPlan.place)

theorem tableKind_planTable : tableKind (planTable plan).kind = plan.kind := by
  unfold planTable
  cases plan.kind <;> rfl

theorem planTable_bootable (hkind : plan.kind = .mbr) :
    ((planTable plan).partitions.map (reportPartition bytes)).map PartitionReport.bootable =
      plan.partitions.map PartitionPlan.bootable := by
  rw [planTable, hkind]
  dsimp only [planPartitions]
  rw [map_map, map_map]
  exact map_zipIdx_fst PartitionPlan.bootable

/-- The backup header in the last sector is intact and, with the entry array it
points at, decodes to the table. -/
def BackupHolds (bytes : List UInt8) (table : PartitionTable) : Prop :=
  ∃ header entries, parseGptHeader (sectorAt (diskOf bytes) (bytes.length / 512 - 1)) = .ok header ∧
    header.entriesLba * 512 + 16384 ≤ bytes.length ∧
    entries = slice bytes (header.entriesLba * 512) 16384 ∧
    (crc32 entries).toNat = header.entriesCrc32 ∧
    decodeGptEntries header entries = .ok table.partitions ∧ table.diskGuid = some header.diskGuid

theorem backupHolds_layoutImage (h : plan.Fine) (hkind : plan.kind = .gpt)
    (hlen : image.length = 512 * plan.totalSectors) (hlt : image.length < 2 ^ 64)
    (hunique : ∀ p ∈ plan.partitions, ¬p.uniqueGuid.isZero) :
    BackupHolds (layoutImage image plan) (planTable plan) := by
  have hge := h.total_ge
  have himage := gptImage_layoutImage h hlen hkind
  obtain ⟨header, hparse, hguid, hon, hcrc, hdecode⟩ :=
    himage.backup_decodes (h.rowsFine hkind hunique) (by omega) (by omega)
  have htotal : (layoutImage image plan).length / 512 - 1 = plan.totalSectors - 1 := by
    rw [length_layoutImage h hlen, hlen, Nat.mul_div_cancel_left _ (by decide)]
  refine ⟨header, _, ?_, hon, rfl, hcrc, ?_, ?_⟩
  · rw [htotal]
    exact hparse
  · rw [planTable, hkind]
    exact hdecode
  · rw [planTable, hkind, hguid]
    rfl

/-- A layout that was written is inspected as it was planned: same kind of table, the
planned partitions in their order and nothing else, and for a GPT a backup that says
the same. The length of an image is a `usize`. -/
theorem writeLayout_roundTrip {image image' : List UInt8} {plan : LayoutPlan}
    (hlen : image.length = 512 * plan.totalSectors) (hlt : image.length < 2 ^ 64)
    (hunique : ∀ p ∈ plan.partitions, ¬p.uniqueGuid.isZero)
    (hwrite : writeLayout image plan = .ok image') :
    ∃ report, inspectBytes image' = .ok report ∧ report.table = plan.kind ∧
      report.partitions.map (fun r => (r.index, r.place)) =
        plan.partitions.zipIdx.map (fun p => (p.2 + 1, p.1.place)) ∧
      (plan.kind = .mbr → report.partitions.map PartitionReport.bootable =
        plan.partitions.map PartitionPlan.bootable) ∧
      (plan.kind = .gpt → ∃ table, readTable image' = .ok table ∧ BackupHolds image' table) := by
  obtain ⟨hok, rfl⟩ := (writeLayout_decides hlen hlt).of_eq_ok hwrite
  refine ⟨_, inspectBytes_layoutImage hok hlen hlt hunique, tableKind_planTable,
    planTable_reports hok.fine _, ?_, ?_⟩
  · intro hkind
    exact planTable_bootable hkind
  · intro hkind
    exact ⟨planTable plan, readTable_layoutImage hok hlen hlt hunique,
      backupHolds_layoutImage hok.fine hkind hlen hlt hunique⟩

def samplePlan : LayoutPlan where
  kind := .gpt
  totalSectors := 131072
  diskGuid := Vector.replicate 16 1
  partitions :=
    [{ role := .efiSystem, name := ['E', 'S', 'P'], firstLba := 2048, sectorCount := 65536,
       uniqueGuid := Vector.replicate 16 2, bootable := false },
     { role := .nexFs, name := ['r', 'o', 'o', 't'], firstLba := 67584, sectorCount := 40000,
       uniqueGuid := Vector.replicate 16 3, bootable := false }]

theorem samplePlan_writable : samplePlan.Writable :=
  ⟨(validateLayout_decides.of_eq_ok (b := ()) rfl).1, fun h => (nomatch h)⟩

def blankImage : List UInt8 := List.replicate (512 * 131072) 0

theorem length_blankImage : blankImage.length = 512 * samplePlan.totalSectors :=
  length_replicate ..

theorem length_blankImage_lt : blankImage.length < 2 ^ 64 := by
  rw [length_blankImage]
  decide

theorem writeLayout_roundTrip_sample :
    ∃ image' report, writeLayout blankImage samplePlan = .ok image' ∧
      inspectBytes image' = .ok report ∧ report.table = .gpt ∧
      report.partitions.map (fun r => (r.index, r.place)) =
        [(1, ⟨2048, 65536, .efiSystem⟩), (2, ⟨67584, 40000, .nexFs⟩)] := by
  have hwrite := (writeLayout_decides length_blankImage length_blankImage_lt).eq_ok
    samplePlan_writable
  obtain ⟨report, hreport, hkind, hplaces, _⟩ :=
    writeLayout_roundTrip length_blankImage length_blankImage_lt (by decide) hwrite
  exact ⟨_, report, hwrite, hreport, hkind, hplaces⟩

end NexOs.Host
