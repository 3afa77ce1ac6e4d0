import NexOs.Host.Edit

/-! `diskutil partition-create`: the other partitions stay where they are, under new
identifiers. -/
namespace NexOs.Host
open List hiding Vector
open Bytes Storage

section
variable {source : GuidSource} {counter : Nat} {bytes : List UInt8} {role : PartitionRole}
  {firstLba sectorCount : Nat} {name : List Char}

variable {report : DiskReport} {i : Nat} {p : Partition}

end

def sampleImage : List UInt8 := layoutImage blankImage samplePlan

theorem length_sampleImage : sampleImage.length = 512 * 131072 :=
  (length_layoutImage samplePlan_writable.fine length_blankImage).trans length_blankImage

theorem length_sampleImage_lt : sampleImage.length < 2 ^ 64 := by
  rw [length_sampleImage]
  decide

end NexOs.Host
