import NexOs.Host.Edit
import NexOs.Host.InstallRoot

/-! What the installer does to the bytes of an image: it changes the two selected
partitions and nothing else, so the table that selected them is still there. -/
namespace NexOs.Host
open List Bytes Storage Exec

def PartitionReport.Covers (p : PartitionReport) (i : Nat) : Prop :=
  p.firstLba * 512 ≤ i ∧ i < p.firstLba * 512 + p.sectorCount * 512

def PartitionReport.contents (p : PartitionReport) (image : List UInt8) : List UInt8 :=
  slice image (p.firstLba * 512) (p.sectorCount * 512)

/-! ## The table -/

section
variable {old new : List UInt8} {inside : Nat → Prop}

def Behind (old : List UInt8) (inside : Nat → Prop) : Prop :=
  ∀ i, inside i → ∃ p ∈ (tableOf (diskOf old)).partitions, p.firstLba * 512 ≤ i

theorem slice_same (hbehind : Behind old inside) (hsame : SameOutside inside old new)
    {start length stop : Nat} (hstop : start + length ≤ stop * 512)
    (hfirst : ∀ p ∈ (tableOf (diskOf old)).partitions, stop ≤ p.firstLba) :
    slice new start length = slice old start length := by
  apply hsame.slice
  intro i _ hi hinside
  obtain ⟨p, hp, hle⟩ := hbehind i hinside
  have := hfirst p hp
  omega

structure TableKept (old new : List UInt8) : Prop where
  first : sectorAt (diskOf new) 0 = sectorAt (diskOf old) 0
  header : Protected (diskOf old) → sectorAt (diskOf new) 1 = sectorAt (diskOf old) 1
  entries : Protected (diskOf old) →
    entryArray (diskOf new) (headerOf (sectorAt (diskOf old) 1)) =
      entryArray (diskOf old) (headerOf (sectorAt (diskOf old) 1))

theorem tableKept (h : Inspectable old) (hbehind : Behind old inside)
    (hsame : SameOutside inside old new) : TableKept old new := by
  have hgpt : Protected (diskOf old) → ∀ p ∈ (tableOf (diskOf old)).partitions,
      p.InGpt (diskOf old) (headerOf (sectorAt (diskOf old) 1)) := by
    intro hprot
    have hkind : (tableOf (diskOf old)).kind = .gpt := by
      rw [tableOf, if_pos hprot]
      rfl
    have hdisk := h.table.table
    rw [if_pos hprot] at hdisk
    obtain ⟨header, hparse, -, hin⟩ := h.table.tableFine.gpt hkind
    have hlen := length_sectorAt hdisk.header_on
    have hsize : (diskOf old).sectorSize = 512 := rfl
    obtain ⟨-, rfl⟩ := (parseGptHeader_decides (show 92 ≤ (sectorAt (diskOf old) 1).length by
      omega)).of_eq_ok hparse
    exact hin
  refine ⟨?_, fun hprot => ?_, fun hprot => ?_⟩
  · exact slice_same hbehind hsame (show 0 * 512 + 512 ≤ 1 * 512 by decide)
      h.table.tableFine.first_ge
  · exact slice_same hbehind hsame (show 1 * 512 + 512 ≤ 2 * 512 by decide)
      fun p hp => (hgpt hprot p hp).behind_header
  · apply slice_same hbehind hsame _ fun p hp => (hgpt hprot p hp).behind_entries
    exact (Nat.add_mul ..).ge

theorem TableKept.tableDisk (hkept : TableKept old new) (hlen : new.length = old.length)
    (h : TableDisk (diskOf old)) :
    TableDisk (diskOf new) ∧ tableOf (diskOf new) = tableOf (diskOf old) := by
  have hcount : (diskOf new).sectorCount = (diskOf old).sectorCount := congrArg (· / 512) hlen
  have hprotected : Protected (diskOf new) ↔ Protected (diskOf old) := by
    unfold Protected
    rw [hkept.first]
  have hon : ∀ lba, lba * 512 + 512 ≤ old.length → lba * 512 + 512 ≤ new.length := by
    intro lba
    rw [hlen]
    exact id
  have htable := h.table
  by_cases hprot : Protected (diskOf old)
  · rw [if_pos hprot] at htable
    have hheader := hkept.header hprot
    have hentries := hkept.entries hprot
    have hfine := htable.table
    refine ⟨⟨h.size_ge, hon 0 h.mbr_on, hkept.first ▸ h.mbr, ?_⟩, ?_⟩
    · rw [if_pos (hprotected.mpr hprot)]
      refine ⟨hon 1 htable.header_on, hheader ▸ htable.header, ?_⟩
      rw [hheader]
      exact { hfine with
        backup := hcount ▸ hfine.backup
        last := hcount ▸ hfine.last
        inside := hcount ▸ hfine.inside
        checksum := hentries ▸ hfine.checksum
        entries := hentries ▸ hfine.entries
        apart := hentries ▸ hfine.apart }
    · rw [tableOf, tableOf, if_pos hprot, if_pos (hprotected.mpr hprot), hheader, gptTableOf,
        gptTableOf, hentries]
  · rw [if_neg hprot] at htable
    refine ⟨⟨h.size_ge, hon 0 h.mbr_on, hkept.first ▸ h.mbr, ?_⟩, ?_⟩
    · rw [if_neg fun hp => hprot (hprotected.mp hp)]
      refine ⟨?_, ?_⟩
      · rw [hkept.first, hcount]
        exact htable.slots
      · rw [hkept.first]
        exact htable.apart
    · rw [tableOf, tableOf, if_neg hprot, if_neg fun hp => hprot (hprotected.mp hp), mbrTableOf,
        mbrTableOf, hkept.first]

theorem inspectBytes_same (h : Inspectable old) (hkept : TableKept old new)
    (hlen : new.length = old.length) :
    inspectBytes new = .ok (reportOf new (tableOf (diskOf old))) := by
  obtain ⟨htable, hsame⟩ := hkept.tableDisk hlen h.table
  have hne : new ≠ [] := by
    intro hnil
    rw [hnil] at hlen
    exact h.ne_nil (eq_nil_of_length_eq_zero hlen.symm)
  rw [← hsame]
  exact inspectBytes_decides.eq_ok ⟨hne, hlen ▸ h.aligned, htable⟩

end

/-! ## Partitions of a report -/

section
variable {bytes : List UInt8} {table : PartitionTable} {i : Nat} {r r' : PartitionReport}

theorem findIndex_ok {report : DiskReport} : findIndex report i = .ok r ↔
    report.partitions.find? (fun partition => partition.index = i) = some r := by
  unfold findIndex
  cases report.partitions.find? (fun partition => partition.index = i) with
  | some r' => simp [Result.okOr]
  | none => simp [Result.okOr, Result.fail]

theorem findIndex_reportOf : findIndex (reportOf bytes table) i = .ok r ↔
    ∃ p, table.partitions.find? (fun p => p.index = i) = some p ∧ reportPartition bytes p = r := by
  rw [findIndex_ok, reportOf, find?_map, Option.map_eq_some_iff]
  rfl

theorem findIndex_same {bytes' : List UInt8} (h : findIndex (reportOf bytes table) i = .ok r)
    (h' : findIndex (reportOf bytes' table) i = .ok r') : r'.place = r.place := by
  obtain ⟨p, hp, rfl⟩ := findIndex_reportOf.mp h
  obtain ⟨p', hp', rfl⟩ := findIndex_reportOf.mp h'
  rw [hp] at hp'
  cases hp'
  rfl

theorem findIndex_mem {report : DiskReport} (h : findIndex report i = .ok r) :
    r ∈ report.partitions ∧ r.index = i := by
  have hfind := findIndex_ok.mp h
  exact ⟨mem_of_find?_eq_some hfind, by simpa using find?_some hfind⟩

theorem contents_congr (h : r'.place = r.place) (image : List UInt8) :
    r'.contents image = r.contents image := by
  have hfirst : r'.firstLba = r.firstLba := congrArg Place.firstLba h
  have hcount : r'.sectorCount = r.sectorCount := congrArg Place.sectorCount h
  rw [PartitionReport.contents, PartitionReport.contents, hfirst, hcount]

end

/-! ## Filling a partition -/

variable {fat : FatLibrary} {image : List UInt8}

section
variable {image image' contents : List UInt8} {p : PartitionReport} {range : Nat × Nat}

theorem partitionRange_eq_ok
    (h : partitionRange imageBytes firstLba sectorCount = .ok range) :
    range = (firstLba * 512, firstLba * 512 + sectorCount * 512) ∧
      firstLba * 512 + sectorCount * 512 ≤ imageBytes := by
  obtain ⟨start, hstart, h⟩ := Result.bind_eq_ok h
  obtain ⟨length, hlength, h⟩ := Result.bind_eq_ok h
  obtain ⟨stop, hstop, h⟩ := Result.bind_eq_ok h
  obtain ⟨_, hin, h⟩ := Result.bind_eq_ok h
  obtain ⟨-, rfl⟩ := checkedMul_decides.of_eq_ok hstart
  obtain ⟨-, rfl⟩ := checkedMul_decides.of_eq_ok hlength
  obtain ⟨-, rfl⟩ := checkedAdd_decides.of_eq_ok hstop
  obtain ⟨hin, -⟩ := (Result.Decides.ensure _ _).of_eq_ok hin
  cases h
  dsimp only [sectorSize] at hin
  exact ⟨rfl, by omega⟩

/-- The image with other bytes in one of its partitions. -/
structure Refilled (p : PartitionReport) (image image' contents : List UInt8) : Prop where
  fits : p.firstLba * 512 + p.sectorCount * 512 ≤ image.length
  length : contents.length = p.sectorCount * 512
  image_eq : image' = splice image (p.firstLba * 512) contents

theorem Refilled.sameOutside (h : Refilled p image image' contents) :
    SameOutside p.Covers image image' := by
  have hfits := h.fits
  rw [h.image_eq]
  apply (SameOutside.splice (by rw [h.length]; exact hfits)).mono
  intro i hi
  rwa [h.length] at hi

theorem Refilled.contents_eq (h : Refilled p image image' contents) :
    p.contents image' = contents := by
  have hfits := h.fits
  have hself : slice (splice image (p.firstLba * 512) contents) (p.firstLba * 512)
      contents.length = contents := slice_splice_self (by rw [h.length]; exact hfits)
  rw [h.length] at hself
  rw [h.image_eq]
  exact hself

theorem onDisk_range_ok
    (h : onDisk (partitionRange image.length p.firstLba p.sectorCount) = .ok range) :
    range = (p.firstLba * 512, p.firstLba * 512 + p.sectorCount * 512) ∧
      p.firstLba * 512 + p.sectorCount * 512 ≤ image.length :=
  partitionRange_eq_ok (Result.mapError_eq_ok.mp h)

theorem refilled_of_copy (hfits : p.firstLba * 512 + p.sectorCount * 512 ≤ image.length)
    (h : (copyFromSlice image (p.firstLba * 512) (p.sectorCount * 512) contents :
      Result InstallError (List UInt8)) = .ok image') : Refilled p image image' contents := by
  unfold copyFromSlice at h
  split at h
  · rename_i hcopy
    cases h
    exact ⟨hfits, hcopy.2, rfl⟩
  · cases h

variable {uuid : Guid}

theorem formatPartition_fat (h : formatPartition fat image p .fat32 uuid = .ok image') :
    ∃ contents, Refilled p image image' contents := by
  obtain ⟨range, hrange, h⟩ := Result.bind_eq_ok h
  obtain ⟨rfl, hfits⟩ := onDisk_range_ok hrange
  obtain ⟨_, -, h⟩ := Result.bind_eq_ok h
  obtain ⟨formatted, hformat, h⟩ := Result.bind_eq_ok h
  cases h
  have hlen := fat.length_formatVolume _ _ (Result.mapError_eq_ok.mp hformat)
  rw [Nat.add_sub_cancel_left, length_slice hfits] at hlen
  exact ⟨formatted, hfits, hlen, rfl⟩

theorem formatPartition_nexfs (h : formatPartition fat image p .nexFs uuid = .ok image') :
    ∃ sb d, Refilled p image image' d.bytes ∧
      Nexfs.format uuid (diskOf (p.contents image)) = (.ok sb, d) := by
  obtain ⟨range, hrange, h⟩ := Result.bind_eq_ok h
  obtain ⟨rfl, hfits⟩ := onDisk_range_ok hrange
  obtain ⟨done, hformat, h⟩ := Result.bind_eq_ok h
  have hrun := mapError_eq_ok.mp (finish_eq_ok.mp hformat)
  rw [Nat.add_sub_cancel_left] at hrun h
  exact ⟨done.1, done.2, refilled_of_copy hfits h, hrun⟩

def KeepsLength (fat : FatLibrary) (x : Exec fat.Volume InstallError α) : Prop :=
  ∀ v, (fat.bytes (x v).2).length = (fat.bytes v).length

theorem KeepsLength.bind {f : α → Exec fat.Volume InstallError β} (hx : KeepsLength fat x)
    (hf : ∀ a, KeepsLength fat (f a)) : KeepsLength fat (x >>= f) := by
  intro v
  have hlen := hx v
  rcases hrun : x v with ⟨e | a, t⟩
  · rw [hrun] at hlen
    rw [bind_of_error hrun]
    exact hlen
  · rw [hrun] at hlen
    rw [bind_of_ok hrun]
    exact (hf a t).trans hlen

theorem keepsLength_fatCall (context : String) (c : FatCall) :
    KeepsLength fat (fatCall fat context c) := by
  intro v
  rw [← fat.length_call c v, fatCall, mapError]
  rcases fat.call c v with ⟨(_ | _ | _) | _, _⟩ <;> rfl

theorem keepsLength_writeFatFile (path : String) (contents : List UInt8) :
    KeepsLength fat (writeFatFile fat path contents) :=
  (keepsLength_fatCall _ _).bind fun _ => (keepsLength_fatCall _ _).bind fun _ =>
    (keepsLength_fatCall _ _).bind fun _ _ => rfl

theorem keepsLength_fillEsp (kernel bootX64 biosSys : List UInt8) :
    KeepsLength fat (fillEsp fat kernel bootX64 biosSys) :=
  (keepsLength_fatCall _ _).bind fun _ => (keepsLength_fatCall _ _).bind fun _ =>
    (keepsLength_fatCall _ _).bind fun _ => (keepsLength_writeFatFile _ _).bind fun _ =>
    (keepsLength_writeFatFile _ _).bind fun _ => (keepsLength_writeFatFile _ _).bind fun _ =>
    (keepsLength_writeFatFile _ _).bind fun _ => (keepsLength_fatCall _ _).bind fun _ _ => rfl

theorem populateEsp_ok {kernel bootX64 biosSys : List UInt8}
    (h : populateEsp fat image p kernel bootX64 biosSys = .ok image') :
    ∃ contents, Refilled p image image' contents := by
  obtain ⟨range, hrange, h⟩ := Result.bind_eq_ok h
  obtain ⟨rfl, hfits⟩ := onDisk_range_ok hrange
  obtain ⟨volume, hnew, h⟩ := Result.bind_eq_ok h
  obtain ⟨done, hdone, h⟩ := Result.bind_eq_ok h
  cases h
  have hrun := finish_eq_ok.mp hdone
  have hmounted := fat.length_new _ _ (Result.mapError_eq_ok.mp hnew)
  have hlen := keepsLength_fillEsp kernel bootX64 biosSys volume
  rw [Nat.add_sub_cancel_left, length_slice hfits] at hmounted
  rw [hrun, hmounted] at hlen
  exact ⟨_, hfits, hlen, rfl⟩

theorem populateRoot_ok {files : List (String × List UInt8)}
    (h : populateRoot image p files = .ok image') :
    ∃ fs d fs', Refilled p image image' fs'.device.bytes ∧
      Nexfs.NexFs.mount (diskOf (p.contents image)) = (.ok fs, d) ∧
      fillRoot files fs = (.ok (), fs') := by
  obtain ⟨range, hrange, h⟩ := Result.bind_eq_ok h
  obtain ⟨rfl, hfits⟩ := onDisk_range_ok hrange
  obtain ⟨mounted, hmount, h⟩ := Result.bind_eq_ok h
  obtain ⟨done, hfill, h⟩ := Result.bind_eq_ok h
  have hmount := mapError_eq_ok.mp (finish_eq_ok.mp hmount)
  have hfill := finish_eq_ok.mp hfill
  rw [Nat.add_sub_cancel_left] at hmount h
  exact ⟨mounted.1, mounted.2, done.2, refilled_of_copy hfits h, hmount, hfill⟩

end

/-! ## The whole image -/

structure Built (selection : Selection) (rootUuid : Guid) (files : List (String × List UInt8))
    (esp root : PartitionReport) (image : List UInt8) : Prop where
  esp_found : findIndex selection.report selection.espIndex = .ok esp
  root_found : findIndex selection.report selection.rootIndex = .ok root
  sameOutside : SameOutside (fun i => esp.Covers i ∨ root.Covers i) selection.image image
  filled : RootFilled rootUuid files (root.contents image)

theorem buildImage_ok {selection : Selection} {payload : Payload}
    {rootUuid : Guid} {mode : InstallMode}
    (h : buildImage s selection payload rootUuid mode = .ok image) :
    ∃ files esp root, Built selection rootUuid files esp root image := by
  obtain ⟨esp, hesp, h⟩ := Result.bind_eq_ok h
  obtain ⟨root, hroot, h⟩ := Result.bind_eq_ok h
  obtain ⟨_, -, h⟩ := Result.bind_eq_ok h
  obtain ⟨image₁, hfat, h⟩ := Result.bind_eq_ok h
  obtain ⟨image₂, hesp₂, h⟩ := Result.bind_eq_ok h
  obtain ⟨image₃, hnexfs, h⟩ := Result.bind_eq_ok h
  obtain ⟨_, h₁⟩ := formatPartition_fat hfat
  obtain ⟨_, h₂⟩ := populateEsp_ok hesp₂
  obtain ⟨sb, d, h₃, hformat⟩ := formatPartition_nexfs hnexfs
  obtain ⟨fs, d', fs', h₄, hmount, hfill⟩ := populateRoot_ok h
  rw [h₃.contents_eq] at hmount
  refine ⟨_, esp, root, hesp, hroot, ?_, _, sb, d, fs, d', fs', hformat, hmount, hfill,
    h₄.contents_eq⟩
  have hespSame := (h₁.sameOutside.trans h₂.sameOutside).mono fun i hi =>
    show esp.Covers i ∨ root.Covers i from .inl hi
  have hrootSame := (h₃.sameOutside.trans h₄.sameOutside).mono fun i hi =>
    show esp.Covers i ∨ root.Covers i from .inr hi
  exact hespSame.trans hrootSame

section
variable {path : FilePath}

theorem verifyRoot_ok {result : Guid × Nat} (h : verifyRoot image p = .ok result) :
    ∃ r d, Nexfs.checkDetailed (diskOf (p.contents image)) = (.ok r, d) ∧
      r.superblock.uuid = result.1 := by
  obtain ⟨range, hrange, h⟩ := Result.bind_eq_ok h
  obtain ⟨rfl, -⟩ := onDisk_range_ok hrange
  obtain ⟨checked, hcheck, h⟩ := Result.bind_eq_ok h
  obtain ⟨_, -, h⟩ := Result.bind_eq_ok h
  obtain ⟨_, -, h⟩ := Result.bind_eq_ok h
  cases h
  have hrun := mapError_eq_ok.mp (finish_eq_ok.mp hcheck)
  rw [Nat.add_sub_cancel_left] at hrun
  exact ⟨checked.1, checked.2, hrun, rfl⟩

variable {espIndex rootIndex : Nat} {report : InstallReport}
  (h : verifyBytes fat image path espIndex rootIndex = .ok report)
include h

theorem verifyBytes_path (path' : FilePath) :
    verifyBytes fat image path' espIndex rootIndex = .ok { report with target := path' } := by
  obtain ⟨disk, hdisk, h⟩ := Result.bind_eq_ok h
  obtain ⟨esp, hesp, h⟩ := Result.bind_eq_ok h
  obtain ⟨root, hroot, h⟩ := Result.bind_eq_ok h
  obtain ⟨espFiles, hespFiles, h⟩ := Result.bind_eq_ok h
  obtain ⟨rootResult, hrootResult, h⟩ := Result.bind_eq_ok h
  cases h
  rw [verifyBytes, hdisk, Result.bind_ok, hesp, Result.bind_ok, hroot, Result.bind_ok,
    verifySelected, hespFiles, Result.bind_ok, hrootResult, Result.bind_ok]

theorem verifyBytes_ok :
    ∃ disk root result, inspectBytes image = .ok disk ∧ findIndex disk rootIndex = .ok root ∧
      verifyRoot image root = .ok result ∧ report.rootUuid = result.1 := by
  obtain ⟨disk, hdisk, h⟩ := Result.bind_eq_ok h
  obtain ⟨esp, -, h⟩ := Result.bind_eq_ok h
  obtain ⟨root, hroot, h⟩ := Result.bind_eq_ok h
  obtain ⟨_, -, h⟩ := Result.bind_eq_ok h
  obtain ⟨result, hresult, h⟩ := Result.bind_eq_ok h
  cases h
  exact ⟨disk, root, result, Result.mapError_eq_ok.mp hdisk, hroot, hresult, rfl⟩

end

variable {selection : Selection} {rootUuid : Guid} {files : List (String × List UInt8)}
  {esp root : PartitionReport}

theorem inspected {bytes : List UInt8} {report : DiskReport} (h : inspectBytes bytes = .ok report) :
    Inspectable bytes ∧ report = reportOf bytes (tableOf (diskOf bytes)) :=
  inspectBytes_decides.of_eq_ok h

variable (h : Built selection rootUuid files esp root image)
  (hinspect : inspectBytes selection.image = .ok selection.report)
include h hinspect

theorem Built.tableKept : TableKept selection.image image := by
  obtain ⟨hfine, hreport⟩ := inspected hinspect
  refine Host.tableKept hfine ?_ h.sameOutside
  intro i hi
  have hmem : ∀ {index : Nat} {r : PartitionReport}, findIndex selection.report index = .ok r →
      r.Covers i → ∃ p ∈ (tableOf (diskOf selection.image)).partitions, p.firstLba * 512 ≤ i := by
    intro index r hr hcovers
    have hr := (findIndex_mem hr).1
    rw [hreport] at hr
    obtain ⟨p, hp, rfl⟩ := mem_reportOf hr
    exact ⟨p, hp, hcovers.1⟩
  rcases hi with hi | hi
  · exact hmem h.esp_found hi
  · exact hmem h.root_found hi

theorem Built.inspectBytes_eq :
    inspectBytes image = .ok (reportOf image (tableOf (diskOf selection.image))) :=
  inspectBytes_same (inspected hinspect).1 (h.tableKept hinspect) h.sameOutside.length

/-- A built image that passes the verification has the root that was selected, with the
identifier that was generated. -/
theorem Built.verified {path : FilePath} {report : InstallReport}
    (hverify : verifyBytes fat image path selection.espIndex selection.rootIndex = .ok report) :
    report.rootUuid = rootUuid ∧
      ∃ r d, Nexfs.checkDetailed (diskOf (root.contents image)) = (.ok r, d) := by
  obtain ⟨disk, root', result, hdisk, hroot', hresult, huuid⟩ := verifyBytes_ok hverify
  rw [h.inspectBytes_eq hinspect] at hdisk
  cases hdisk
  have hroot := h.root_found
  rw [(inspected hinspect).2] at hroot
  obtain ⟨r, d, hcheck, hr⟩ := verifyRoot_ok hresult
  rw [contents_congr (findIndex_same hroot hroot')] at hcheck
  exact ⟨by rw [huuid, ← hr, h.filled.uuid_eq hcheck], r, d, hcheck⟩

end NexOs.Host
