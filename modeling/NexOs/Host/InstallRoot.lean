import NexOs.Host.Install
import NexOs.Nexfs.Session

/-! The root filesystem of an installation: a formatted partition on which a fixed
list of operations is run. -/
namespace NexOs.Host
open Bytes Storage Nexfs Exec

variable {d : Disk} {sb : Superblock} {bytes : List UInt8} {uuid : Guid}
  {files : List (String × List UInt8)}

theorem diskOf_bytes (h : d.sectorSize = 512) : diskOf d.bytes = { d with log := [] } := by
  rw [diskOf, h]

theorem accepted_copy (h : Accepted d sb) : Accepted { d with log := [] } sb :=
  { decoded := h.decoded, clean := h.clean, size_lt := h.size_lt, room := h.room,
    sector_pos := h.sector_pos, sector_dvd := h.sector_dvd }

theorem diskOf_aligned (bytes : List UInt8) : Aligned (diskOf bytes) where
  sector_pos := show 0 < 512 by decide
  sector_dvd := show 512 ∣ 4096 by decide

/-! ## Formatting -/

structure Formatted (uuid : Guid) (sb : Superblock) (d : Disk) : Prop where
  accepted : Accepted d sb
  wellFormed : WellFormed sb (viewOf sb d)
  uuid_eq : sb.uuid = uuid
  sectorSize : d.sectorSize = 512

theorem formatted_of_ok (h : format uuid (diskOf bytes) = (.ok sb, d)) : Formatted uuid sb d := by
  rcases format_cases with ⟨-, e, hrun⟩ | ⟨-, hnew, hrun⟩
  · cases hrun.symm.trans h
  · cases hrun.symm.trans h
    exact ⟨hnew.accepted, hnew.wellFormed, rfl, sectorSize_formatted⟩

/-! ## Filling -/

def rootOps (files : List (String × List UInt8)) : List Op :=
  rootDirectories.map Op.createDir ++
    files.flatMap fun file => [Op.createFile file.1, Op.writeFile file.1 0 file.2]

section
variable {fs fs' : NexFs}

theorem runOps_append (ops ops' : List Op) :
    runOps (ops ++ ops') fs = (.ok (), fs') ↔
      ∃ fs₁, runOps ops fs = (.ok (), fs₁) ∧ runOps ops' fs₁ = (.ok (), fs') := by
  induction ops generalizing fs with
  | nil =>
    constructor
    · intro h
      exact ⟨fs, rfl, h⟩
    · rintro ⟨_, h, h'⟩
      cases h
      exact h'
  | cons op ops ih =>
    constructor
    · intro h
      obtain ⟨_, fs₁, hop, hrest⟩ := bind_eq_ok (f := fun _ => runOps (ops ++ ops')) h
      obtain ⟨fs₂, hops, hops'⟩ := ih.mp hrest
      exact ⟨fs₂, (bind_of_ok hop).trans hops, hops'⟩
    · rintro ⟨fs₂, h, h'⟩
      obtain ⟨_, fs₁, hop, hrest⟩ := bind_eq_ok (f := fun _ => runOps ops) h
      exact (bind_of_ok hop).trans (ih.mpr ⟨fs₂, hrest, h'⟩)

theorem forM_runOps {γ : Type} {body : γ → RootCall Unit} {ops : γ → List Op}
    (h : ∀ c fs fs', body c fs = (.ok (), fs') ↔ runOps (ops c) fs = (.ok (), fs'))
    (l : List γ) : l.forM body fs = (.ok (), fs') ↔ runOps (l.flatMap ops) fs = (.ok (), fs') := by
  induction l generalizing fs with
  | nil =>
    constructor
    · rintro ⟨⟩
      rfl
    · rintro ⟨⟩
      rfl
  | cons c l ih =>
    rw [List.flatMap_cons, runOps_append]
    constructor
    · intro hrun
      obtain ⟨_, fs₁, hc, hl⟩ := bind_eq_ok (f := fun _ => l.forM body) hrun
      exact ⟨fs₁, (h c fs fs₁).mp hc, ih.mp hl⟩
    · rintro ⟨fs₁, hc, hl⟩
      exact (bind_of_ok ((h c fs fs₁).mpr hc)).trans (ih.mpr hl)

theorem dropValue_ok {ε α : Type} {x : Exec NexFs ε α} :
    (do let _ ← x : Exec NexFs ε Unit) fs = (.ok (), fs') ↔ ∃ a, x fs = (.ok a, fs') := by
  constructor
  · intro h
    obtain ⟨a, fs₁, hx, hrest⟩ := bind_eq_ok h
    cases hrest
    exact ⟨a, hx⟩
  · rintro ⟨a, hx⟩
    exact bind_of_ok hx

theorem runOps_singleton (op : Op) : runOps [op] fs = (.ok (), fs') ↔ op.run fs = (.ok (), fs') := by
  constructor
  · intro h
    obtain ⟨a, fs₁, hx, hrest⟩ := bind_eq_ok (f := fun _ => runOps []) h
    cases hrest
    exact hx
  · intro hx
    exact bind_of_ok hx

theorem createDir_ok (directory : String) (fs fs' : NexFs) :
    (do let _ ← (NexFs.createDir directory).mapError (.nexfs ("cannot create " ++ directory)) :
      RootCall Unit) fs = (.ok (), fs') ↔ runOps [.createDir directory] fs = (.ok (), fs') := by
  rw [dropValue_ok, runOps_singleton, Op.run, dropValue_ok]
  exact exists_congr fun _ => mapError_eq_ok

theorem writeNexfsFile_ok (file : String × List UInt8) (fs fs' : NexFs) :
    writeNexfsFile file.1 file.2 fs = (.ok (), fs') ↔
      runOps [.createFile file.1, .writeFile file.1 0 file.2] fs = (.ok (), fs') := by
  constructor
  · intro h
    obtain ⟨n, fs₁, hcreate, hwrite⟩ := bind_eq_ok h
    obtain ⟨m, hwrite⟩ := dropValue_ok.mp hwrite
    have hcreate' : (Op.createFile file.1).run fs = (.ok (), fs₁) :=
      dropValue_ok.mpr ⟨n, mapError_eq_ok.mp hcreate⟩
    have hwrite' : (Op.writeFile file.1 0 file.2).run fs₁ = (.ok (), fs') :=
      dropValue_ok.mpr ⟨m, mapError_eq_ok.mp hwrite⟩
    exact (bind_of_ok hcreate').trans ((runOps_singleton _).mpr hwrite')
  · intro h
    obtain ⟨_, fs₁, hcreate, hwrite⟩ :=
      bind_eq_ok (f := fun _ => runOps [.writeFile file.1 0 file.2]) h
    obtain ⟨n, hcreate⟩ := dropValue_ok.mp hcreate
    obtain ⟨m, hwrite⟩ := dropValue_ok.mp ((runOps_singleton _).mp hwrite)
    exact (bind_of_ok (mapError_eq_ok.mpr hcreate)).trans
      (dropValue_ok.mpr ⟨m, mapError_eq_ok.mpr hwrite⟩)

theorem fillRoot_ok : fillRoot files fs = (.ok (), fs') ↔
    ∃ fs₁ sb, runOps (rootOps files) fs = (.ok (), fs₁) ∧ NexFs.unmount fs₁ = (.ok sb, fs') := by
  have hdirs : rootDirectories.map Op.createDir =
      rootDirectories.flatMap fun directory => [Op.createDir directory] := rfl
  constructor
  · intro h
    obtain ⟨_, fs₁, hcreate, hrest⟩ := bind_eq_ok h
    obtain ⟨_, fs₂, hwrite, hunmount⟩ := bind_eq_ok hrest
    obtain ⟨sb, hunmount⟩ := dropValue_ok.mp hunmount
    have hops : runOps (rootOps files) fs = (.ok (), fs₂) := by
      rw [rootOps, runOps_append]
      exact ⟨fs₁, (forM_runOps createDir_ok _).mp hcreate, (forM_runOps writeNexfsFile_ok _).mp hwrite⟩
    exact ⟨fs₂, sb, hops, mapError_eq_ok.mp hunmount⟩
  · rintro ⟨fs₂, sb, hops, hunmount⟩
    rw [rootOps, hdirs, runOps_append] at hops
    obtain ⟨fs₁, hcreate, hwrite⟩ := hops
    exact (bind_of_ok ((forM_runOps createDir_ok _).mpr hcreate)).trans
      ((bind_of_ok ((forM_runOps writeNexfsFile_ok _).mpr hwrite)).trans
        (dropValue_ok.mpr ⟨sb, mapError_eq_ok.mpr hunmount⟩))

end

def RootFilled (uuid : Guid) (files : List (String × List UInt8)) (bytes : List UInt8) : Prop :=
  ∃ start sb d fs d' fs', format uuid (diskOf start) = (.ok sb, d) ∧
    NexFs.mount (diskOf d.bytes) = (.ok fs, d') ∧ fillRoot files fs = (.ok (), fs') ∧
    bytes = fs'.device.bytes

theorem RootFilled.uuid_eq (h : RootFilled uuid files bytes)
    (hcheck : checkDetailed (diskOf bytes) = (.ok r, t)) : r.superblock.uuid = uuid := by
  obtain ⟨start, sb, d, fs, d', fs', hformat, hmount, hfill, rfl⟩ := h
  have hf := formatted_of_ok hformat
  have hacc : Accepted (diskOf d.bytes) sb := by
    rw [diskOf_bytes hf.sectorSize]
    exact accepted_copy hf.accepted
  have hwell : WellFormed sb (viewOf sb (diskOf d.bytes)) := by
    exact hf.wellFormed
  rw [mount_run hacc hwell] at hmount
  cases hmount
  obtain ⟨fs₁, sb₁, hrun, hunmount⟩ := fillRoot_ok.mp hfill
  have hconsistent := mountedFrom_consistent hacc hwell
  obtain ⟨hs, hc, -⟩ := runOps_ok hconsistent hrun
  rw [unmount_run hc.toMounted] at hunmount
  cases hunmount
  obtain ⟨hacc', -⟩ := session_accepted hc (hs.size_lt (mountedFrom_size hacc))
  have hsector : (unmountedFrom fs₁).device.sectorSize = 512 := hs.sectorSize
  rw [diskOf_bytes hsector] at hcheck
  have hreport := (checkDetailed_accepted (accepted_copy hacc')).of_run_ok hcheck
  rw [hreport.2.1]
  obtain ⟨g, -, hsb⟩ := hs.superblock
  rw [hsb]
  exact hf.uuid_eq

end NexOs.Host
