import NexOs.Host.Disk
import NexOs.Storage.GptImage

/-! Writing a layout into an image, and that inspecting the image gives it back. -/
namespace NexOs.Host
open List Bytes Storage Result

/-! ## Which layouts are accepted -/

namespace PartitionPlan

def stop (p : PartitionPlan) : Nat := p.firstLba + p.sectorCount

structure Fits (first last : Nat) (p : PartitionPlan) : Prop where
  stop_lt : p.stop < 2 ^ 64
  count_pos : 0 < p.sectorCount
  first_ge : first ≤ p.firstLba
  stop_le : p.stop ≤ last + 1

def Apart (p q : PartitionPlan) : Prop := p.stop ≤ q.firstLba ∨ q.stop ≤ p.firstLba

end PartitionPlan

structure PlansFine (first last : Nat) (plans : List PartitionPlan) : Prop where
  fits : ∀ p ∈ plans, p.Fits first last
  apart : plans.Pairwise PartitionPlan.Apart

theorem checkedEnd_decides (a b : Nat) (e : DiskError) :
    Decides (okOr ((checkedAdd a b).bind fun value => checkedSub value 1) e)
      (a + b < 2 ^ 64 ∧ 1 ≤ a + b) (a + b - 1) := by
  by_cases hlt : a + b < 2 ^ 64
  · rw [checkedAdd_eq hlt, Option.bind_some]
    by_cases hpos : 1 ≤ a + b
    · rw [checkedSub_eq hpos]
      exact .inl ⟨⟨hlt, hpos⟩, rfl⟩
    · rw [checkedSub, if_neg hpos]
      exact .inr ⟨fun h => hpos h.2, e, rfl⟩
  · rw [checkedAdd_none hlt]
    exact .inr ⟨fun h => hlt h.1, e, rfl⟩

theorem validatePartitions_decides (plans : List PartitionPlan) (index : Nat) :
    Decides (validatePartitions first last plans index)
      (PlansFine first last plans) () := by
  induction plans generalizing index with
  | nil => exact .inl ⟨⟨forall_mem_nil _, .nil⟩, rfl⟩
  | cons p rest ih =>
    refine Decides.congr (.bind (checkedEnd_decides _ _ _) fun _ => .guard fun _ =>
      .bind (.forM _ fun other _ =>
        .bind checkedAdd_decides fun _ => .ensure _ _) fun _ => ih (index + 1)) ?_ fun _ => rfl
    constructor
    · rintro ⟨⟨hlt, hpos⟩, hin, hothers, hrest⟩
      refine ⟨forall_mem_cons.mpr ⟨?_, hrest.fits⟩, pairwise_cons.mpr ⟨?_, hrest.apart⟩⟩
      · exact ⟨hlt, by omega, by omega, by unfold PartitionPlan.stop; omega⟩
      · intro q hq
        have := hothers q hq
        unfold PartitionPlan.Apart PartitionPlan.stop
        omega
    · intro h
      obtain ⟨hp, hrest⟩ := forall_mem_cons.mp h.fits
      obtain ⟨hapart, hpairs⟩ := pairwise_cons.mp h.apart
      have hlt := hp.stop_lt
      have hle := hp.stop_le
      have hcount := hp.count_pos
      have hge := hp.first_ge
      unfold PartitionPlan.stop at hlt hle
      refine ⟨⟨hlt, by omega⟩, by omega, ?_, hrest, hpairs⟩
      intro q hq
      have hq' := (hrest q hq).stop_lt
      have hpq := hapart q hq
      unfold PartitionPlan.Apart PartitionPlan.stop at hpq
      exact ⟨hq', by omega⟩

def LayoutPlan.last (plan : LayoutPlan) : Nat :=
  if plan.kind = .gpt then plan.totalSectors - gptFirstUsableLba else plan.totalSectors - 1

structure LayoutPlan.Fine (plan : LayoutPlan) : Prop where
  total_ge : 131072 ≤ plan.totalSectors
  mbr_count : plan.kind = .mbr → plan.partitions.length ≤ 4
  gpt_count : plan.kind = .gpt → plan.partitions.length ≤ gptEntryCount
  plans : PlansFine plan.firstUsable plan.last plan.partitions

variable {plan : LayoutPlan}

theorem validateLayout_decides : Decides (validateLayout plan) plan.Fine () := by
  have hmin : minDiskMib * mib / sectorSize = 131072 := by decide
  have hlast : 131072 ≤ plan.totalSectors → plan.lastUsable = .ok plan.last := by
    intro hge
    unfold LayoutPlan.lastUsable LayoutPlan.last
    split
    · rw [checkedSub_eq (by dsimp only [gptFirstUsableLba]; omega), okOr_some]
    · rw [subU64_eq (by omega)]
  refine Decides.congr (.guard fun hge => .guard fun _ => .guard fun _ =>
    .bind_ok (hlast (by omega)) (validatePartitions_decides _ _)) ?_ fun _ => rfl
  constructor
  · rintro ⟨hge, hmbr, hgpt, hplans⟩
    exact ⟨by omega, fun hk => not_lt.mp fun hlt => hmbr ⟨hk, hlt⟩,
      fun hk => not_lt.mp fun hlt => hgpt ⟨hk, hlt⟩, hplans⟩
  · intro h
    have hge := h.total_ge
    exact ⟨by omega, fun hk => not_lt.mpr (h.mbr_count hk.1) hk.2,
      fun hk => not_lt.mpr (h.gpt_count hk.1) hk.2, h.plans⟩

/-! ## GPT images -/

namespace PartitionPlan

def row (p : PartitionPlan) : GptRow where
  typeGuid := p.role.typeGuid
  uniqueGuid := p.uniqueGuid
  firstLba := p.firstLba
  lastLba := p.stop - 1
  name := p.name

end PartitionPlan

theorem planRow_ok (h : p.Fits first last) : planRow p = .ok p.row := by
  have hpos := h.count_pos
  unfold planRow
  rw [addU64_eq h.stop_lt, bind_ok, subU64_eq (by omega)]
  rfl

theorem mapM_ok {ε α β : Type} {g : α → Result ε β} {f : α → β} {xs : List α}
    (h : ∀ x ∈ xs, g x = .ok (f x)) : xs.mapM g = .ok (xs.map f) :=
  (Decides.mapM (fun _ => True) f xs fun x hx => .of_ok (h x hx)).eq_ok fun _ _ => trivial

theorem writeFields_rows {rows : List GptRow} (h : rows.length ≤ gptEntryCount) :
    writeFields (replicate (gptEntryCount * gptEntrySize) 0)
      (rows.zipIdx.map fun p => (p.2 * gptEntrySize, p.1.bytes)) = gptEntries rows := by
  have hfit : 0 + 128 * rows.length ≤
      (replicate (gptEntryCount * gptEntrySize) (0 : UInt8)).length := by
    rw [length_replicate, Nat.zero_add, Nat.mul_comm]
    exact Nat.mul_le_mul_right 128 h
  have hstride := writeFields_stride (fun row _ => GptRow.length_bytes row) hfit
  simp only [Nat.zero_add] at hstride
  rw [hstride, gptEntries, splice, take_zero, nil_append, drop_replicate,
    length_rows, Nat.zero_add, Nat.mul_sub]

theorem partitionRange_ok (hpos : 0 < sectorCount)
    (hend : firstLba * 512 + sectorCount * 512 ≤ imageBytes) (hlt : imageBytes < 2 ^ 64) :
    partitionRange imageBytes firstLba sectorCount =
      .ok (firstLba * 512, firstLba * 512 + sectorCount * 512) := by
  unfold partitionRange
  rw [checkedMul_eq (show firstLba * 512 < 2 ^ 64 by omega), okOr_some, bind_ok,
    checkedMul_eq (show sectorCount * 512 < 2 ^ 64 by omega), okOr_some, bind_ok,
    checkedAdd_eq (by omega), okOr_some, bind_ok, ensure_pos (by omega)]
  rfl

def imageFields (total : Nat) (guid : Guid) (rows : List GptRow) : List (Nat × List UInt8) :=
  [(2 * 512, gptEntries rows), ((total - 33) * 512, gptEntries rows),
    (0, protectiveMbr (min (total - 1) (2 ^ 32 - 1))),
    (1 * 512, gptHeader 1 (total - 1) gptFirstUsableLba (gptLastUsable total) guid 2
      (crc32 (gptEntries rows))),
    ((total - 1) * 512, gptHeader (total - 1) 1 gptFirstUsableLba (gptLastUsable total) guid
      (total - 33) (crc32 (gptEntries rows)))]

section
variable {image : List UInt8} {total : Nat} {guid : Guid} {rows : List GptRow}

theorem imageFields_laid (hmin : 68 ≤ total) (hrows : rows.length ≤ gptEntryCount) :
    Laid (512 * total) (imageFields total guid rows) := by
  have hentries := length_gptEntries hrows
  constructor <;> simp only [imageFields, pairwise_cons, forall_mem_cons,
    not_mem_nil, false_imp_iff, implies_true, and_true, Pairwise.nil, Apart,
    length_protectiveMbr, length_gptHeader] <;> omega

theorem sectorCount_diskOf (hlen : image.length = 512 * total) :
    (diskOf image).sectorCount = total := by
  rw [Disk.sectorCount, diskOf, hlen]
  exact Nat.mul_div_cancel_left total (by decide)

theorem gptImage_writeFields (hlen : image.length = 512 * total) (hmin : 68 ≤ total)
    (hrows : rows.length ≤ gptEntryCount) :
    GptImage (diskOf (writeFields image (imageFields total guid rows))) total guid rows := by
  have hlaid := @imageFields_laid total guid rows hmin hrows
  have hentries := length_gptEntries hrows
  have hwritten : (writeFields image (imageFields total guid rows)).length = 512 * total := by
    rw [length_writeFields (hlaid.fit hlen.ge), hlen]
  have hslice : ∀ f ∈ imageFields total guid rows,
      slice (writeFields image (imageFields total guid rows)) f.1 f.2.length = f.2 :=
    fun _ => hlaid.slice_eq hlen.ge
  simp only [imageFields, forall_mem_cons, not_mem_nil, false_imp_iff, implies_true,
    and_true, hentries, length_protectiveMbr, length_gptHeader] at hslice
  obtain ⟨harray, hbackupArray, hmbr, hprimary, hbackup⟩ := hslice
  constructor
  · rfl
  · exact sectorCount_diskOf hwritten
  · refine ⟨min (total - 1) (2 ^ 32 - 1), ?_, ?_, ?_⟩
    · exact Nat.lt_min.mpr ⟨by omega, by decide⟩
    · exact Nat.lt_of_le_of_lt (Nat.min_le_right _ _) (by decide)
    · exact hmbr
  · exact hprimary
  · exact harray
  · exact hbackup
  · exact hbackupArray

variable {pieces : List (Nat × List UInt8)} {k : Nat} {bytes : List UInt8}

theorem copyFromSlice_piece (hfit : ∀ f ∈ pieces, f.1 + f.2.length ≤ image.length)
    {start length : Nat} (hk : pieces[k]? = some (start, bytes)) (hbytes : bytes.length = length) :
    (copyFromSlice (writeFields image (pieces.take k)) start length bytes :
      Result DiskError (List UInt8)) = .ok (writeFields image (pieces.take (k + 1))) := by
  have hend := hfit _ (mem_of_getElem? hk)
  have hlen : (writeFields image (pieces.take k)).length = image.length :=
    length_writeFields fun f hf => hfit f (mem_of_mem_take hf)
  rw [copyFromSlice_eq (by rw [hlen, ← hbytes]; exact hend) hbytes, take_add_one, hk,
    writeFields_append]
  rfl

theorem copySectors_piece (hfit : ∀ f ∈ pieces, f.1 + f.2.length ≤ image.length)
    (hlt : image.length < 2 ^ 64) {firstLba sectorCount : Nat}
    (hk : pieces[k]? = some (firstLba * 512, bytes)) (hpos : 0 < sectorCount)
    (hbytes : bytes.length = sectorCount * 512) :
    copySectors (writeFields image (pieces.take k)) firstLba sectorCount bytes =
      .ok (writeFields image (pieces.take (k + 1))) := by
  have hend := hfit _ (mem_of_getElem? hk)
  have hlen : (writeFields image (pieces.take k)).length = image.length :=
    length_writeFields fun f hf => hfit f (mem_of_mem_take hf)
  unfold copySectors
  rw [partitionRange_ok hpos (by rw [hlen, ← hbytes]; exact hend) (by rw [hlen]; exact hlt),
    bind_ok]
  rw [Nat.add_sub_cancel_left, copyFromSlice_piece hfit hk hbytes]

theorem LayoutPlan.Fine.rows_le (h : plan.Fine) (hkind : plan.kind = .gpt) :
    (plan.partitions.map PartitionPlan.row).length ≤ gptEntryCount := by
  rw [length_map]
  exact h.gpt_count hkind

theorem writeGpt_run (hfine : plan.Fine) (hkind : plan.kind = .gpt)
    (hlen : image.length = 512 * plan.totalSectors) (hlt : image.length < 2 ^ 64) :
    writeGpt image plan = .ok (writeFields image
      (imageFields plan.totalSectors plan.diskGuid (plan.partitions.map PartitionPlan.row))) := by
  have hge := hfine.total_ge
  have hrows := hfine.rows_le hkind
  have hentries := length_gptEntries hrows
  have hmap : plan.partitions.mapM planRow = .ok (plan.partitions.map PartitionPlan.row) :=
    mapM_ok fun p hp => planRow_ok (hfine.plans.fits p hp)
  have hfit := (@imageFields_laid plan.totalSectors plan.diskGuid _ (by omega) hrows).fit hlen.ge
  have htotal : plan.totalSectors - 1 - 32 = plan.totalSectors - 33 := by omega
  unfold writeGpt
  rw [subU64_eq (by omega), bind_ok, subU64_eq (by dsimp only [gptEntrySectors]; omega), bind_ok,
    htotal, subU64_eq (by omega), bind_ok, hmap, bind_ok, writeFields_rows hrows]
  have hbytes : (gptEntries (plan.partitions.map PartitionPlan.row)).length =
      gptEntrySectors * 512 := hentries
  generalize hp : imageFields plan.totalSectors plan.diskGuid
    (plan.partitions.map PartitionPlan.row) = pieces at hfit
  unfold imageFields at hp
  generalize gptEntries (plan.partitions.map PartitionPlan.row) = entries at *
  have h₀ : copySectors image 2 gptEntrySectors entries =
      .ok (writeFields image (pieces.take 1)) :=
    copySectors_piece hfit hlt (k := 0) (by rw [← hp]; rfl) (by decide) hbytes
  dsimp only
  rw [h₀, bind_ok,
    copySectors_piece hfit hlt (k := 1) (by rw [← hp]; rfl) (by decide) hbytes, bind_ok,
    copyFromSlice_piece hfit (k := 2) (by rw [← hp]; rfl) length_protectiveMbr, bind_ok,
    copySectors_piece hfit hlt (k := 3) (by rw [← hp]; rfl) Nat.one_pos
      (by rw [length_gptHeader]), bind_ok,
    copySectors_piece hfit hlt (k := 4) (by rw [← hp]; rfl) Nat.one_pos
      (by rw [length_gptHeader]), ← hp]
  rfl

end

variable {role : PartitionRole}

theorem typeGuid_ne_zero : ¬role.typeGuid.isZero := by
  cases role <;> decide

theorem roleFromGuid_typeGuid : roleFromGuid role.typeGuid = role := by
  cases role <;> decide

theorem roleFromMbr_mbrType : roleFromMbr role.mbrType = role := by
  cases role <;> decide

theorem LayoutPlan.Fine.rowsFine (h : plan.Fine) (hkind : plan.kind = .gpt)
    (hunique : ∀ p ∈ plan.partitions, ¬p.uniqueGuid.isZero) :
    RowsFine gptFirstUsableLba (gptLastUsable plan.totalSectors)
      (plan.partitions.map PartitionPlan.row) := by
  have hplans := h.plans
  rw [LayoutPlan.firstUsable, LayoutPlan.last, if_pos hkind, if_pos hkind] at hplans
  constructor
  · rw [length_map]
    exact h.gpt_count hkind
  · intro row hrow
    obtain ⟨p, hp, rfl⟩ := mem_map.mp hrow
    have hfits := hplans.fits p hp
    have hpos := hfits.count_pos
    have hstop := hfits.stop_le
    dsimp only [gptFirstUsableLba] at hstop
    refine ⟨typeGuid_ne_zero, hunique p hp, hfits.first_ge, ?_, ?_⟩
    · dsimp only [PartitionPlan.row, PartitionPlan.stop]
      omega
    · dsimp only [PartitionPlan.row, gptLastUsable]
      omega
  · rw [pairwise_map]
    apply hplans.apart.imp_of_mem
    intro p q hp hq hapart
    have hppos := (hplans.fits p hp).count_pos
    have hqpos := (hplans.fits q hq).count_pos
    unfold PartitionPlan.Apart PartitionPlan.stop at hapart
    dsimp only [PartitionPlan.row, PartitionPlan.stop]
    omega

end NexOs.Host
