import NexOs.Storage.GptEncode
import NexOs.Storage.Sectors
import NexOs.Storage.Windows

/-! Whether the partitions of a GPT leave the backup header alone that its primary header names.
The reader compares neither the usable range nor the entries with that sector. -/
namespace NexOs.Storage
open List hiding Vector
open Bytes

namespace PartitionDevice

/-- Writes through a window, one after another, whatever each of them answers. -/
def writeAll (writes : List (Nat × List UInt8)) (w : PartitionDevice Disk) :
    PartitionDevice Disk :=
  writes.foldl (fun w x => (writeSectors x.1 x.2 w).2) w

structure Confined (w w' : PartitionDevice Disk) : Prop where
  first : w'.firstLba = w.firstLba
  count : w'.sectorCount = w.sectorCount
  size : w'.inner.sectorSize = w.inner.sectorSize
  outside : ∀ lba, ¬(w.firstLba ≤ lba ∧ lba < w.firstLba + w.sectorCount) →
    sectorAt w'.inner lba = sectorAt w.inner lba

variable {w : PartitionDevice Disk}

theorem Confined.refl : Confined w w :=
  ⟨rfl, rfl, rfl, fun _ _ => rfl⟩

theorem Confined.trans {w' w'' : PartitionDevice Disk} (h : Confined w w') (h' : Confined w' w'') :
    Confined w w'' where
  first := h'.first.trans h.first
  count := h'.count.trans h.count
  size := h'.size.trans h.size
  outside := by
    intro lba hlba
    rw [h'.outside lba (by rwa [h.first, h.count]), h.outside lba hlba]

theorem confined_put {data : List UInt8} (htakes : w.inner.Takes (start, data))
    (hge : w.firstLba ≤ start)
    (hle : start + data.length / w.inner.sectorSize ≤ w.firstLba + w.sectorCount) :
    Confined w { w with inner := w.inner.put start data } where
  first := rfl
  count := rfl
  size := rfl
  outside := by
    intro lba hlba
    rw [sectorAt_put htakes]
    exact if_neg (by omega)

theorem confined_writeSectors (lba : Nat) (input : List UInt8) :
    Confined w (writeSectors lba input w).2 := by
  unfold writeSectors
  rw [Exec.get_bind]
  rcases translatedLba_decides w lba input.length with ⟨⟨_, _, hfit, _⟩, htrans⟩ | ⟨_, e, htrans⟩
  · rw [htrans, Exec.lift_ok_bind]
    rcases Disk.writeSectors_cases (w.firstLba + lba) input with ⟨htakes, hrun⟩ | ⟨e, hrun⟩
    · have hinner : (onInner (BlockDevice.writeSectors (w.firstLba + lba) input) w).2 =
          { w with inner := w.inner.put (w.firstLba + lba) input } :=
        congrArg (fun r => { w with inner := Prod.snd r }) hrun
      rw [hinner]
      refine confined_put htakes (Nat.le_add_right _ _) ?_
      rw [Nat.add_assoc]
      exact Nat.add_le_add_left hfit _
    · have hinner : (onInner (BlockDevice.writeSectors (w.firstLba + lba) input) w).2 = w :=
        congrArg (fun r => { w with inner := Prod.snd r }) hrun
      rw [hinner]
      exact .refl
  · rw [htrans]
    exact .refl

theorem confined_writeAll (writes : List (Nat × List UInt8)) (w : PartitionDevice Disk) :
    Confined w (w.writeAll writes) := by
  induction writes generalizing w with
  | nil => exact .refl
  | cons x writes ih => exact (confined_writeSectors x.1 x.2).trans (ih _)

end PartitionDevice

def Partition.Covers (p : Partition) (lba : Nat) : Prop :=
  p.firstLba ≤ lba ∧ lba < p.firstLba + p.sectorCount

/-- The entry spans the sector: it is in use and its first and last sector enclose it. -/
def EntryCovers (entry : List UInt8) (lba : Nat) : Prop :=
  ¬(guidAt entry 0).isZero ∧ le entry 32 8 ≤ lba ∧ lba ≤ entryLast entry

theorem entryOf_covers {header : GptHeader} {entry : List UInt8}
    (hfine : ¬(guidAt entry 0).isZero → EntryFine header entry) :
    (∃ p, entryOf header entry i = some p ∧ p.Covers lba) ↔ EntryCovers entry lba := by
  constructor
  · rintro ⟨p, hsome, hcovers⟩
    obtain ⟨hused, rfl⟩ := entryOf_eq_some.mp hsome
    have hordered := (hfine hused).ordered
    simp only [Partition.Covers, entryPartition] at hcovers
    exact ⟨hused, hcovers.1, by omega⟩
  · rintro ⟨hused, hfirst, hlast⟩
    refine ⟨_, entryOf_eq_some.mpr ⟨hused, rfl⟩, ?_⟩
    simp only [Partition.Covers, entryPartition]
    omega

theorem exists_covers_iff {header : GptHeader} {bytes : List UInt8}
    (hfine : EntriesFine header bytes) (lba : Nat) :
    (∃ p ∈ partitionsOf header bytes, p.Covers lba) ↔
      ∃ i < header.entryCount, EntryCovers (entryAt header bytes i) lba := by
  constructor
  · rintro ⟨p, hp, hcovers⟩
    obtain ⟨i, hi, hsome⟩ := mem_map.mp (reduceOption_mem_iff.mp hp)
    have hlt := mem_range.mp hi
    exact ⟨i, hlt, (entryOf_covers (hfine i hlt)).mp ⟨p, hsome, hcovers⟩⟩
  · rintro ⟨i, hlt, hentry⟩
    obtain ⟨p, hsome, hcovers⟩ := (entryOf_covers (i := i) (hfine i hlt)).mpr hentry
    refine ⟨p, reduceOption_mem_iff.mpr ?_, hcovers⟩
    exact mem_map.mpr ⟨i, mem_range.mpr hlt, hsome⟩

section
variable {d d' : Disk} {table : PartitionTable} {header : GptHeader}

theorem gptDisk_of_read (hread : readPartitionTable d = (.ok table, d'))
    (hkind : table.kind = .gpt) : 512 ≤ d.sectorSize ∧ GptDisk d ∧
      table = gptTableOf d (headerOf (sectorAt d 1)) := by
  obtain ⟨r, hrun, hdec⟩ := readPartitionTable_decides
  rw [hrun, Prod.mk.injEq] at hread
  obtain ⟨hdisk, rfl⟩ := hdec.of_eq_ok hread.1
  have htable := hdisk.table
  unfold tableOf at hkind ⊢
  by_cases hprot : Protected d
  · rw [if_pos hprot] at htable ⊢
    exact ⟨hdisk.size_ge, htable, rfl⟩
  · rw [if_neg hprot] at hkind
    cases hkind

theorem header_eq_of_parse (hdisk : GptDisk d) (hsize : 512 ≤ d.sectorSize)
    (hheader : parseGptHeader (sectorAt d 1) = .ok header) : header = headerOf (sectorAt d 1) := by
  have hlen : 92 ≤ (sectorAt d 1).length := by
    rw [length_sectorAt hdisk.header_on]
    omega
  exact ((parseGptHeader_decides hlen).of_eq_ok hheader).2

theorem not_entryCovers_of_usable (hread : readPartitionTable d = (.ok table, d'))
    (hkind : table.kind = .gpt) (hheader : parseGptHeader (sectorAt d 1) = .ok header)
    (hlba : lba < header.firstUsableLba ∨ header.lastUsableLba < lba) :
    ∀ i < header.entryCount, ¬EntryCovers (entryAt header (entryArray d header) i) lba := by
  obtain ⟨hsize, hdisk, _⟩ := gptDisk_of_read hread hkind
  obtain rfl := header_eq_of_parse hdisk hsize hheader
  rintro i hi ⟨hused, hfirst, hlast⟩
  have hfine := hdisk.table.entries i hi hused
  have hge := hfine.first_ge
  have hle := hfine.last_le
  omega

/-- The partitions that a GPT lists leave the sector of the backup header alone, and so does
every write through their windows, exactly if no entry in use spans that sector. -/
theorem backup_untouched_iff (hread : readPartitionTable d = (.ok table, d'))
    (hkind : table.kind = .gpt) (hheader : parseGptHeader (sectorAt d 1) = .ok header) :
    ((∀ p ∈ table.partitions, ¬p.Covers header.backupLba) ∧
      ∀ p ∈ table.partitions, ∀ w,
        PartitionDevice.new d p.firstLba p.sectorCount = .ok w → ∀ writes,
          sectorAt (w.writeAll writes).inner header.backupLba = sectorAt d header.backupLba) ↔
    ∀ i < header.entryCount,
      ¬EntryCovers (entryAt header (entryArray d header) i) header.backupLba := by
  obtain ⟨hsize, hdisk, rfl⟩ := gptDisk_of_read hread hkind
  obtain rfl := header_eq_of_parse hdisk hsize hheader
  have hcovers := exists_covers_iff hdisk.table.entries (headerOf (sectorAt d 1)).backupLba
  constructor
  · rintro ⟨huncovered, -⟩ i hi hentry
    obtain ⟨p, hp, hcovered⟩ := hcovers.mpr ⟨i, hi, hentry⟩
    exact huncovered p hp hcovered
  · intro hentries
    have huncovered : ∀ p ∈ (gptTableOf d (headerOf (sectorAt d 1))).partitions,
        ¬p.Covers (headerOf (sectorAt d 1)).backupLba := by
      intro p hp hcovered
      obtain ⟨i, hi, hentry⟩ := hcovers.mp ⟨p, hp, hcovered⟩
      exact hentries i hi hentry
    refine ⟨huncovered, ?_⟩
    intro p hp w hnew writes
    obtain ⟨_, rfl⟩ := (PartitionDevice.new_decides d _ _).of_eq_ok hnew
    exact (PartitionDevice.confined_writeAll writes _).outside _ (huncovered p hp)

end

/-! ## A small disk -/

def smallEntry : List UInt8 :=
  GptRow.bytes ⟨Vector.replicate 16 1, Vector.replicate 16 2, 3, 6, ['a']⟩

def smallHeader (backupLba : Nat) : List UInt8 :=
  let header := writeFields (List.replicate 512 0)
    [(0, gptSignature), (8, leBytes 4 0x00010000), (12, leBytes 4 92), (24, leBytes 8 1),
      (32, leBytes 8 backupLba), (40, leBytes 8 3), (48, leBytes 8 6), (56, List.replicate 16 3),
      (72, leBytes 8 2), (80, leBytes 4 1), (84, leBytes 4 128),
      (88, leBytes 4 (crc32 smallEntry).toNat)]
  splice header 16 (leBytes 4 (crc32 (header.take 92)).toNat)

def smallDisk (backupLba : Nat) : Disk where
  sectorSize := 512
  bytes := protectiveMbr 7 ++ smallHeader backupLba ++ smallEntry ++
    List.replicate (384 + 5 * 512) 0
  log := []

structure SmallTable (backupLba : Nat) (table : PartitionTable) (header : GptHeader) : Prop where
  read : readPartitionTable (smallDisk backupLba) = (.ok table, smallDisk backupLba)
  kind : table.kind = .gpt
  spans : table.partitions.map (fun p => (p.firstLba, p.sectorCount)) = [(3, 4)]
  parse : parseGptHeader (sectorAt (smallDisk backupLba) 1) = .ok header
  backup : header.backupLba = backupLba
  last : header.lastUsableLba = 6

theorem eq_ok_of_toOption {ε α : Type} {r : Result ε α} {a : α} (h : r.toOption = some a) :
    r = .ok a := by
  cases r with
  | ok b => exact congrArg Except.ok (Option.some.inj h)
  | error e => cases h

theorem smallTable_of_eval (backupLba : Nat)
    (htable : ((readPartitionTable (smallDisk backupLba)).1.toOption.map fun table =>
      (table.kind, table.partitions.map fun p => (p.firstLba, p.sectorCount))) =
        some (.gpt, [(3, 4)]))
    (hheader : ((parseGptHeader (sectorAt (smallDisk backupLba) 1)).toOption.map fun header =>
      (header.backupLba, header.lastUsableLba)) = some (backupLba, 6)) :
    ∃ table header, SmallTable backupLba table header := by
  obtain ⟨table, hok, heq⟩ := Option.map_eq_some_iff.mp htable
  obtain ⟨header, hparse, hbackup⟩ := Option.map_eq_some_iff.mp hheader
  obtain ⟨r, hrun, _⟩ := readPartitionTable_decides
  have hr : r = .ok table := by
    rw [hrun] at hok
    exact eq_ok_of_toOption hok
  exact ⟨table, header,
    { read := hr ▸ hrun
      kind := congrArg Prod.fst heq
      spans := congrArg Prod.snd heq
      parse := eq_ok_of_toOption hparse
      backup := congrArg Prod.fst hbackup
      last := congrArg Prod.snd hbackup }⟩

theorem SmallTable.mem {table : PartitionTable} {header : GptHeader}
    (h : SmallTable backupLba table header) :
    ∃ p ∈ table.partitions, p.firstLba = 3 ∧ p.sectorCount = 4 := by
  have hmem : (3, 4) ∈ table.partitions.map fun p => (p.firstLba, p.sectorCount) := by
    simp [h.spans]
  obtain ⟨p, hp, heq⟩ := mem_map.mp hmem
  exact ⟨p, hp, congrArg Prod.fst heq, congrArg Prod.snd heq⟩

/-- A header that names the sector in the middle of its only partition is accepted, and a write
through the window of that partition changes the sector. -/
theorem backup_overwritten : ∃ d table header, readPartitionTable d = (.ok table, d) ∧
    table.kind = .gpt ∧ parseGptHeader (sectorAt d 1) = .ok header ∧
    ∃ p ∈ table.partitions, p.Covers header.backupLba ∧
      ∃ w writes, PartitionDevice.new d p.firstLba p.sectorCount = .ok w ∧
        sectorAt (w.writeAll writes).inner header.backupLba ≠ sectorAt d header.backupLba := by
  obtain ⟨table, header, h⟩ := smallTable_of_eval 5 (by decide +kernel)
    (by decide +kernel)
  obtain ⟨p, hp, hfirst, hcount⟩ := h.mem
  refine ⟨smallDisk 5, table, header, h.read, h.kind, h.parse, p, hp, ?_, ?_⟩
  · rw [Partition.Covers, h.backup, hfirst, hcount]
    decide
  · rw [h.backup, hfirst, hcount]
    have hnew := (PartitionDevice.new_decides (smallDisk 5) 3 4).eq_ok
      ⟨by decide, by decide, by decide +kernel⟩
    refine ⟨_, [(2, replicate 512 0xff)], hnew, ?_⟩
    intro heq
    exact absurd (congrArg head? heq) (by decide +kernel)

theorem backup_untouched_small : ∃ table header, SmallTable 7 table header ∧
    ∀ p ∈ table.partitions, ¬p.Covers header.backupLba := by
  obtain ⟨table, header, h⟩ := smallTable_of_eval 7 (by decide +kernel)
    (by decide +kernel)
  refine ⟨table, header, h, ((backup_untouched_iff h.read h.kind h.parse).mpr ?_).1⟩
  refine not_entryCovers_of_usable h.read h.kind h.parse (.inr ?_)
  rw [h.last, h.backup]
  decide

end NexOs.Storage
