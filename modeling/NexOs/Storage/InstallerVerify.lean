import NexOs.Lib.Accepts
import NexOs.Storage.GptImage
import NexOs.Storage.Installer
import NexOs.Storage.Sectors

/-! What the verifier of the guided installation accepts, and what it leaves open
that the general reader checks. -/
namespace NexOs.Storage
open List hiding Vector
open Bytes Result

theorem subU64_accepts {ε : Type} (a b : Nat) :
    Accepts (subU64 a b : Result ε Nat) (b ≤ a) (a - b) := .test _ _

theorem addU64_accepts {ε : Type} (a b : Nat) :
    Accepts (addU64 a b : Result ε Nat) (a + b < 2 ^ 64) (a + b) := .test _ _

namespace Crc32

theorem update_update (crc : Crc32) (xs ys : List UInt8) :
    (crc.update xs).update ys = crc.update (xs ++ ys) := by
  rw [update, update, update, foldl_append]

theorem finish_update (bytes : List UInt8) : (new.update bytes).finish = crc32 bytes := rfl

end Crc32

/-! ## Entries -/

structure EntryMatches (typeGuid : Guid) (span : PartitionSpan) (entry : List UInt8) : Prop where
  type_eq : guidAt entry 0 = typeGuid
  first_eq : le entry 32 8 = span.firstLba
  count_pos : 0 < span.sectorCount
  last_lt : span.firstLba + (span.sectorCount - 1) < 2 ^ 64
  last_eq : entryLast entry = span.firstLba + (span.sectorCount - 1)

theorem verifyEntry_accepts {entry : List UInt8} (h : entry.length = 128) (typeGuid : Guid)
    (span : PartitionSpan) :
    Accepts (verifyEntry entry typeGuid span) (EntryMatches typeGuid span entry) () := by
  refine Accepts.congr (.bind_ok (rangeOf_eq (by omega)) (.guard fun _ =>
    .bind_ok (getLe_eq (by omega)) (.guard fun _ => .bind_ok (getLe_eq (by omega))
      (.bind (subU64_accepts _ _) fun _ => .bind checkedAdd_decides.accepts fun _ =>
        .ensure _ _)))) ?_ fun _ => rfl
  rw [show slice entry 0 (16 - 0) = (guidAt entry 0).toList from (guidAt_toList (by omega)).symm,
    Vector.toList_inj]
  exact ⟨fun h => ⟨h.1, h.2.1, h.2.2.1, h.2.2.2.1, h.2.2.2.2⟩,
    fun h => ⟨h.type_eq, h.first_eq, h.count_pos, h.last_lt, h.last_eq⟩⟩

structure EntriesMatch (expected : InstallerLayout) (sector : List UInt8) : Prop where
  bios : EntryMatches biosBootTypeGuid expected.bios (slice sector 0 128)
  esp : EntryMatches espTypeGuid expected.esp (slice sector 128 128)
  root : EntryMatches nexfsTypeGuid expected.root (slice sector 256 128)

theorem verifyEntries_accepts {sector : List UInt8} (h : sector.length = 512)
    (expected : InstallerLayout) :
    Accepts (verifyEntries sector expected) (EntriesMatch expected sector) () := by
  refine Accepts.congr (.bind_ok (rangeOf_eq (by omega)) (.bind (verifyEntry_accepts ?_ _ _)
    fun _ => .bind_ok (rangeOf_eq (by omega)) (.bind (verifyEntry_accepts ?_ _ _) fun _ =>
      .bind_ok (rangeOf_eq (by omega)) (verifyEntry_accepts ?_ _ _)))) ?_ fun _ => rfl
  · exact length_slice (by omega)
  · exact length_slice (by omega)
  · exact length_slice (by omega)
  · exact ⟨fun h => ⟨h.1, h.2.1, h.2.2⟩, fun h => ⟨h.bios, h.esp, h.root⟩⟩

/-! ## The whole verifier -/

section
variable {d : Disk} (hsize : d.sectorSize = 512) (entriesLba : Nat) (expected : InstallerLayout)

def SectorFine (d : Disk) (entriesLba : Nat) (expected : InstallerLayout) (i : Nat) : Prop :=
  entriesLba + i < 2 ^ 64 ∧ (entriesLba + i) * d.sectorSize + d.sectorSize ≤ d.bytes.length ∧
    (i = 0 → EntriesMatch expected (sectorAt d entriesLba))

include hsize in
theorem verifyEntrySector_accepts (crc : Crc32) (i : Nat) :
    Exec.Accepts (verifyEntrySector entriesLba expected crc i) d
      (SectorFine d entriesLba expected i) (crc.update (sectorAt d (entriesLba + i))) := by
  have hread := readSector_decides d (entriesLba + i)
  rw [hsize] at hread
  unfold verifyEntrySector SectorFine
  rw [hsize]
  refine .bind (.lift (addU64_accepts _ _)) fun _ => .bind hread.accepts fun hin => ?_
  have hlen : (sectorAt d (entriesLba + i)).length = 512 := by
    rw [length_sectorAt (by rw [hsize]; exact hin), hsize]
  by_cases hzero : i = 0
  · subst hzero
    refine Exec.Accepts.congr (.bind (.lift (verifyEntries_accepts hlen expected)) fun _ =>
      .of_ok rfl) ?_ fun _ => rfl
    simp
  · rw [if_neg hzero]
    exact (Exec.Accepts.of_ok rfl).congr (by simp [hzero]) fun _ => rfl

end

/-- The disk as `verify_guided_installer_gpt` wants it, up to the backup header. -/
structure PrimaryVerified (expected : InstallerLayout) (d : Disk) (header : GptHeader) : Prop where
  current : header.currentLba = 1
  backup : header.backupLba = d.sectorCount - 1
  guid : header.diskGuid = expected.diskGuid
  count : header.entryCount = gptEntryCount
  entry : header.entrySize = gptEntrySize
  sectors : ∀ i < gptEntrySectors, SectorFine d header.entriesLba expected i
  checksum : (crc32 (entryArray d header)).toNat = header.entriesCrc32

structure BackupVerified (d : Disk) (header : GptHeader) : Prop where
  on_disk : header.backupLba * d.sectorSize + d.sectorSize ≤ d.bytes.length
  fine : HeaderFine (sectorAt d header.backupLba)
  current : (headerOf (sectorAt d header.backupLba)).currentLba = header.backupLba
  backup : (headerOf (sectorAt d header.backupLba)).backupLba = 1
  guid : (headerOf (sectorAt d header.backupLba)).diskGuid = header.diskGuid
  checksum : (headerOf (sectorAt d header.backupLba)).entriesCrc32 = header.entriesCrc32

structure Verified (expected : InstallerLayout) (d : Disk) : Prop where
  size : d.sectorSize = 512
  mbr_on : 0 * d.sectorSize + d.sectorSize ≤ d.bytes.length
  mbr : MbrFine (sectorAt d 0)
  covers : (mbrOf (sectorAt d 0)).any coversDisk = true
  header_on : 1 * d.sectorSize + d.sectorSize ≤ d.bytes.length
  header : HeaderFine (sectorAt d 1)
  primary : PrimaryVerified expected d (headerOf (sectorAt d 1))
  backup : BackupVerified d (headerOf (sectorAt d 1))

variable {d : Disk} {expected : InstallerLayout}

section
variable (hsize : d.sectorSize = 512)
include hsize

theorem verifyLoop_accepts (entriesLba : Nat) :
    Exec.Accepts ((range gptEntrySectors).foldlM (verifyEntrySector entriesLba expected)
        Crc32.new) d
      (∀ i ∈ range gptEntrySectors, SectorFine d entriesLba expected i)
      (Crc32.new.update (slice d.bytes (entriesLba * 512) (gptEntrySectors * 512))) := by
  have hslice := slice_eq_sectors d entriesLba gptEntrySectors
  rw [hsize] at hslice
  rw [hslice]
  apply Exec.Accepts.foldlM (SectorFine d entriesLba expected)
    (fun l => Crc32.new.update (l.flatMap fun i => sectorAt d (entriesLba + i)))
  intro l i r _
  have hstep := verifyEntrySector_accepts hsize entriesLba expected
    (Crc32.new.update (l.flatMap fun i => sectorAt d (entriesLba + i))) i
  rw [Crc32.update_update] at hstep
  rw [flatMap_append, flatMap_singleton]
  exact hstep

theorem entryArray_of_counts {header : GptHeader}
    (hcount : header.entryCount = gptEntryCount) (hentry : header.entrySize = gptEntrySize) :
    entryArray d header = slice d.bytes (header.entriesLba * 512) (gptEntrySectors * 512) := by
  rw [entryArray, hsize, entrySectors_eq hcount hentry]

theorem sectorCount_pos
    (h : 1 * d.sectorSize + d.sectorSize ≤ d.bytes.length) : 1 ≤ d.sectorCount := by
  rw [Disk.sectorCount, hsize]
  omega

end

/-- The verifier returns on exactly the disks that are `Verified`. -/
theorem verifyGuidedInstallerGpt_accepts (d : Disk) (expected : InstallerLayout) :
    Exec.Accepts (verifyGuidedInstallerGpt expected) d (Verified expected d) () := by
  have hread : d.sectorSize = 512 → ∀ lba, Exec.Accepts (Disk.readSectors lba sectorBytes) d
      (lba * d.sectorSize + d.sectorSize ≤ d.bytes.length) (sectorAt d lba) := by
    intro hsize lba
    have h := (readSector_decides d lba).accepts
    rwa [show Disk.readSectors lba d.sectorSize = Disk.readSectors lba sectorBytes by rw [hsize]] at h
  have hlen : d.sectorSize = 512 → ∀ lba, lba * d.sectorSize + d.sectorSize ≤ d.bytes.length →
      (sectorAt d lba).length = 512 := by
    intro hsize lba hon
    rw [length_sectorAt hon, hsize]
  apply Exec.Accepts.bind_ok rfl
  refine Exec.Accepts.congr (.guard fun hsize => .bind (hread hsize 0) fun hon =>
    .bind (.lift (parseMbr_decides (hlen hsize 0 hon).ge).accepts) fun _ => .guard fun _ =>
    .bind (hread hsize 1) fun hon => .bind (.lift (parseGptHeader_decides ?_).accepts) fun _ =>
    .guard fun _ => .bind (.lift (subU64_accepts _ _)) fun _ => .guard fun _ =>
    .bind (verifyLoop_accepts hsize _) fun _ => .guard fun _ => .bind (hread hsize _) fun hon =>
    .bind (.lift (parseGptHeader_decides ?_).accepts) fun _ => .ensure _ _) ?_ fun _ => rfl
  · rw [hlen hsize 1 hon]
    decide
  · rw [hlen hsize _ hon]
    decide
  simp only [not_or, not_not]
  constructor
  · rintro ⟨hsize, hmbrOn, hmbr, hcovers, hheaderOn, hheader, hcurrent, _, hfields, hsectors, hcrc,
      hbackupOn, hfine, hback⟩
    have harray := entryArray_of_counts hsize hfields.2.2.1 hfields.2.2.2
    exact {
      size := hsize
      mbr_on := hmbrOn
      mbr := hmbr
      covers := hcovers
      header_on := hheaderOn
      header := hheader
      primary := {
        current := hcurrent
        backup := hfields.1
        guid := hfields.2.1
        count := hfields.2.2.1
        entry := hfields.2.2.2
        sectors := fun i hi => hsectors i (mem_range.mpr hi)
        checksum := by rw [harray, ← hcrc, Crc32.finish_update] }
      backup := ⟨hbackupOn, hfine, hback.1, hback.2.1, hback.2.2.1, hback.2.2.2⟩ }
  · intro h
    have harray := entryArray_of_counts h.size h.primary.count h.primary.entry
    exact ⟨h.size, h.mbr_on, h.mbr, h.covers, h.header_on, h.header, h.primary.current,
      sectorCount_pos h.size h.header_on,
      ⟨h.primary.backup, h.primary.guid, h.primary.count, h.primary.entry⟩,
      fun i hi => h.primary.sectors i (mem_range.mp hi),
      by rw [Crc32.finish_update, ← harray, h.primary.checksum], h.backup.on_disk, h.backup.fine,
      h.backup.current, h.backup.backup, h.backup.guid, h.backup.checksum⟩

end NexOs.Storage
