import NexOs.Host.RoundTrip

/-! Creating and deleting partitions: the table is rebuilt from its report. -/
namespace NexOs.Host
open List hiding Vector
open Bytes Storage

/-! ## The table in place -/

section
variable {bytes : List UInt8} {r : PartitionReport}

theorem Inspectable.sectors (h : Inspectable bytes) :
    bytes.length = 512 * (diskOf bytes).sectorCount := by
  exact (Nat.mul_div_cancel' (Nat.dvd_of_mod_eq_zero h.aligned)).symm

theorem mem_reportOf {table : PartitionTable}
    (hr : r ∈ (reportOf bytes table).partitions) :
    ∃ p ∈ table.partitions, reportPartition bytes p = r := mem_map.mp hr

theorem reportOf_indices (h : Inspectable bytes) :
    (reportOf bytes (tableOf (diskOf bytes))).partitions.Pairwise fun r s => r.index < s.index := by
  apply pairwise_map.mpr
  exact h.table.tableFine.indices

theorem reportOf_index_pos (hr : r ∈ (reportOf bytes (tableOf (diskOf bytes))).partitions) :
    1 ≤ r.index := by
  obtain ⟨p, hp, rfl⟩ := mem_reportOf hr
  exact index_pos_of_mem_tableOf hp

theorem reportOf_places (h : Inspectable bytes) :
    (reportOf bytes (tableOf (diskOf bytes))).partitions.Pairwise fun r s => r.place ≠ s.place := by
  apply pairwise_map.mpr
  apply h.table.tableFine.apart.imp_of_mem
  intro p q hp hq hapart hsame
  have hpos := h.table.tableFine.nonempty p hp
  have hfirst : p.firstLba = q.firstLba := congrArg Place.firstLba hsame
  have hcount : p.sectorCount = q.sectorCount := congrArg Place.sectorCount hsame
  unfold Partition.Apart at hapart
  omega

end

/-! ## New identifiers -/

/-- The version bits keep a generated identifier apart from every one without them. -/
theorem generateGuid_version (source : GuidSource) (counter : Nat) :
    (generateGuid source counter)[6].toNat.testBit 6 = true := by
  unfold generateGuid
  rw [Vector.getElem_ofFn, if_pos rfl, UInt8.toNat_or, Nat.testBit_or, Bool.or_eq_true]
  exact .inr (by decide)

theorem generateGuid_ne {guid : Guid} (h : guid[6].toNat.testBit 6 = false) (source : GuidSource)
    (counter : Nat) : generateGuid source counter ≠ guid := by
  intro hsame
  have hversion := generateGuid_version source counter
  rw [hsame, h] at hversion
  cases hversion

theorem generateGuid_ne_zero (source : GuidSource) (counter : Nat) :
    ¬(generateGuid source counter).isZero :=
  generateGuid_ne (by decide) source counter

def sampleSource : GuidSource where
  clock := fun _ => 0
  processId := 1

/-! ## Rebuilding the table -/

section
variable {source : GuidSource} {counter : Nat} {report : DiskReport}

theorem layoutFromReport_generated :
    ∀ p ∈ (layoutFromReport source counter report).partitions,
      ∃ call, p.uniqueGuid = generateGuid source call := by
  intro p hp
  obtain ⟨slot, _, rfl⟩ := mem_map.mp hp
  exact ⟨_, rfl⟩

theorem unique_of_generated {plans : List PartitionPlan}
    (h : ∀ p ∈ plans, ∃ call, p.uniqueGuid = generateGuid source call) :
    ∀ p ∈ plans, ¬p.uniqueGuid.isZero := by
  intro p hp
  obtain ⟨call, hguid⟩ := h p hp
  rw [hguid]
  exact generateGuid_ne_zero source call

theorem layoutFromReport_places :
    (layoutFromReport source counter report).partitions.map PartitionPlan.place =
      report.partitions.map PartitionReport.place := by
  rw [layoutFromReport, map_map]
  exact map_zipIdx_fst PartitionReport.place

theorem length_layoutFromReport :
    (layoutFromReport source counter report).partitions.length = report.partitions.length := by
  rw [layoutFromReport, length_map, length_zipIdx]

end

theorem rewrite_decides {bytes : List UInt8} {plan : LayoutPlan}
    (hlen : bytes.length = 512 * plan.totalSectors) (hlt : bytes.length < 2 ^ 64)
    (hunique : ∀ p ∈ plan.partitions, ¬p.uniqueGuid.isZero) :
    Result.Decides (do let bytes ← writeLayout bytes plan; writeTransactional bytes)
      plan.Writable (layoutImage bytes plan) := by
  refine Result.Decides.congr (.bind (writeLayout_decides hlen hlt) fun hok => .of_ok ?_)
    (and_iff_left trivial) fun _ => rfl
  rw [writeTransactional, inspectBytes_layoutImage hok hlen hlt hunique]
  rfl

end NexOs.Host
