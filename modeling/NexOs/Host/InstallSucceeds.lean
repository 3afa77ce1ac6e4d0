import NexOs.Host.Commit
import NexOs.Host.Create
import NexOs.Host.InstallImage
import NexOs.Nexfs.Readers
import NexOs.Nexfs.Room

/-! An installation that nothing disturbs succeeds: the root filesystem has room for
its files, and the checks find what the installer has written. -/
namespace NexOs.Host
open List Bytes Storage Nexfs Directory Exec

/-! ## The root filesystem -/

variable {files : List (String × List UInt8)} {s : Surroundings} {selection : Selection}
  {payload : Payload}

section
variable {b : Nat}

theorem rootOps_adds (hnames : files.map Prod.fst = rootPaths)
    (hsmall : ∀ file ∈ files, file.2.length ≤ b) : ∀ op ∈ rootOps files, op.Adds b := by
  have hsplit : ∀ path ∈ rootDirectories ++ rootPaths,
      ∃ parts, NexFs.splitParent path = .ok parts := by
    intro path hpath
    have hok : ∀ path ∈ rootDirectories ++ rootPaths, (NexFs.splitParent path).isOk = true := by
      decide
    have := hok path hpath
    cases hp : NexFs.splitParent path with
    | ok parts => exact ⟨parts, rfl⟩
    | error e =>
      rw [hp] at this
      cases this
  intro op hop
  rcases mem_append.mp hop with hop | hop
  · obtain ⟨path, hpath, rfl⟩ := mem_map.mp hop
    exact hsplit path (mem_append_left _ hpath)
  · obtain ⟨file, hfile, hop⟩ := mem_flatMap.mp hop
    rcases mem_pair.mp hop with rfl | rfl
    · refine hsplit file.1 (mem_append_right _ ?_)
      rw [← hnames]
      exact mem_map_of_mem hfile
    · exact (Nat.zero_add _).trans_le (hsmall file hfile)

theorem treeRun_newFile {path : String} {contents : List UInt8} {ops : List Op}
    (hvacant : Vacant T (pathNames path))
    (hrest : TreeRun (Function.update T (pathNames path) (some (.file contents))) ops T') :
    TreeRun T (.createFile path :: .writeFile path 0 contents :: ops) T' := by
  refine .cons (.createFile hvacant) (.cons (.writeFile (Function.update_self ..)) ?_)
  have hwhole : overwrite [] 0 contents = contents := by simp [overwrite, splice]
  rwa [hwhole, Function.update_idem]

theorem rootOps_treeRun (hnames : files.map Prod.fst = rootPaths) :
    ∃ T, TreeRun emptyTree (rootOps files) T ∧
      ∀ file ∈ files, T (pathNames file.1) = some (.file file.2) := by
  match files, hnames with
  | [(p₁, c₁), (p₂, c₂), (p₃, c₃), (p₄, c₄)], hnames =>
  obtain ⟨rfl, rfl, rfl, rfl⟩ := hnames
  have hsystem : pathNames "/system" = ["system"] := by decide
  have hetc : pathNames "/etc" = ["etc"] := by decide
  have hbin : pathNames "/bin" = ["bin"] := by decide
  have hvar : pathNames "/var" = ["var"] := by decide
  have hhome : pathNames "/home" = ["home"] := by decide
  have hlocation : pathNames "/system/kernel-location" = ["system", "kernel-location"] := by decide
  have hrelease : pathNames "/etc/nexos-release" = ["etc", "nexos-release"] := by decide
  have hfstab : pathNames "/etc/fstab" = ["etc", "fstab"] := by decide
  have hmanifest : pathNames "/system/install-manifest" = ["system", "install-manifest"] := by
    decide
  refine ⟨_, .cons (.createDir ⟨?_, [], "system", hsystem, ?_⟩) <|
    .cons (.createDir ⟨?_, [], "etc", hetc, ?_⟩) <|
    .cons (.createDir ⟨?_, [], "bin", hbin, ?_⟩) <|
    .cons (.createDir ⟨?_, [], "var", hvar, ?_⟩) <|
    .cons (.createDir ⟨?_, [], "home", hhome, ?_⟩) <|
    treeRun_newFile ⟨?_, ["system"], "kernel-location", hlocation, ?_⟩ <|
    treeRun_newFile ⟨?_, ["etc"], "nexos-release", hrelease, ?_⟩ <|
    treeRun_newFile ⟨?_, ["etc"], "fstab", hfstab, ?_⟩ <|
    treeRun_newFile ⟨?_, ["system"], "install-manifest", hmanifest, ?_⟩ .nil, ?_⟩
  all_goals simp [emptyTree, hsystem, hetc, hbin, hvar, hhome, hlocation,
    hrelease, hfstab, hmanifest]

theorem formatSuperblock_roomy (uuid : Guid) (h : 2048 ≤ total) :
    Roomy (formatSuperblock total uuid) 14 4096 where
  inodes := by
    simp only [Superblock.slots, formatSuperblock]
    omega
  blocks := by
    have hblock : footprint (dataBlocksForSize 4096) = 1 := by decide
    simp only [formatSuperblock, Nexfs.divCeil, bitmapBitsPerBlock, blockSize]
    omega
  entries := by decide
  size_le := by decide

def RootHolds (files : List (String × List UInt8)) (bytes : List UInt8) : Prop :=
  ∃ sb, Accepted (diskOf bytes) sb ∧ WellFormed sb (viewOf sb (diskOf bytes)) ∧
    ∀ file ∈ files,
      pathsOf (viewOf sb (diskOf bytes)).flat (pathNames file.1) = some (.file file.2)

variable {d : Disk} {sb : Superblock} {fs : NexFs}

theorem fillRoot_succeeds (hacc : Accepted d sb) (hwell : WellFormed sb (viewOf sb d))
    (hfresh : Fresh sb (viewOf sb d)) (hsector : d.sectorSize = 512) (hroom : Roomy sb 14 4096)
    (hnames : files.map Prod.fst = rootPaths) (hsmall : ∀ file ∈ files, file.2.length ≤ 4096) :
    ∃ fs', fillRoot files (mountedFrom d sb) = (.ok (), fs') ∧
      fs'.device.bytes.length = d.bytes.length ∧ RootHolds files fs'.device.bytes := by
  have hc := mountedFrom_consistent hacc hwell
  have hview := mountedFrom_view hacc
  obtain ⟨T, hrun, hT⟩ := rootOps_treeRun hnames
  have hlight : Light (mountedFrom d sb).view.flat 1 4096 := hview ▸ hfresh.light 4096
  have htree : TreeRun (pathsOf (mountedFrom d sb).view.flat) (rootOps files) T := by
    rwa [hview, hfresh.paths]
  have hcount : (rootOps files).length = 13 := by
    have hlen : files.length = 4 := by
      rw [← length_map, hnames]
      rfl
    simp [rootOps, rootDirectories, hlen]
  have hroom' : Roomy (mountedFrom d sb).superblock (1 + (rootOps files).length) 4096 := by
    rw [hcount]
    exact hroom.of_layout ⟨rfl, rfl, rfl⟩
  obtain ⟨fs, hops, hpaths⟩ := runOps_succeeds hc hlight hroom' (rootOps_adds hnames hsmall) htree
  obtain ⟨hs, hc', -⟩ := runOps_ok hc hops
  obtain ⟨hacc', hwell'⟩ := session_accepted hc' (hs.size_lt (mountedFrom_size hacc))
  have hsector' : (unmountedFrom fs).device.sectorSize = 512 := hs.sectorSize.trans hsector
  have hlen : (unmountedFrom fs).device.bytes.length = fs.device.bytes.length :=
    length_putBlock (hc'.toReady.inside hc'.toReady.one_lt) fs.superblock.unmounted.length_record
  refine ⟨_, fillRoot_ok.mpr ⟨fs, _, hops, unmount_run hc'.toMounted⟩, ?_,
    fs.superblock.unmounted, ?_⟩
  · rw [hlen, hs.length]
    exact length_putBlock (hacc.ready.inside hacc.ready.one_lt) sb.mounted.length_record
  · rw [diskOf_bytes hsector']
    refine ⟨accepted_copy hacc', hwell', fun file hfile => ?_⟩
    change pathsOf (unmountedFrom fs).view.flat _ = _
    rw [unmountedFrom_view hc'.toMounted, hpaths]
    exact hT file hfile

theorem root_filled {start : List UInt8} (uuid : Guid) (hsize : 8 * mib ≤ start.length)
    (hlt : start.length < 2 ^ 64) (hnames : files.map Prod.fst = rootPaths)
    (hsmall : ∀ file ∈ files, file.2.length ≤ 4096) :
    ∃ sb d fs d' fs', format uuid (diskOf start) = (.ok sb, d) ∧
      d.bytes.length = start.length ∧ NexFs.mount (diskOf d.bytes) = (.ok fs, d') ∧
      fillRoot files fs = (.ok (), fs') ∧ fs'.device.bytes.length = start.length ∧
      RootHolds files fs'.device.bytes := by
  have hsectors : (diskOf start).sectorCount = start.length / 512 := rfl
  have hblocks : blockCount (diskOf start) = start.length / 512 * 512 / 4096 := rfl
  have hbytes : (diskOf start).sectorCount * 512 < 2 ^ 64 := by
    omega
  have hmany : 2048 ≤ blockCount (diskOf start) := by
    dsimp only [mib] at hsize
    omega
  have h32 : 32 ≤ blockCount (diskOf start) := by omega
  have hnew : NewVolume (diskOf start) (formatSuperblock (blockCount (diskOf start)) uuid) :=
    newVolume_of_size (diskOf_aligned start) hbytes h32
  have hformat : format uuid (diskOf start) = _ := format_run (diskOf_aligned start) hbytes h32
  have hf := formatted_of_ok hformat
  have hlen := length_formatted hnew.toReady
  obtain ⟨fs', hfill, hlen', hholds⟩ := fillRoot_succeeds (accepted_copy hf.accepted) hf.wellFormed
    hnew.fresh hf.sectorSize (formatSuperblock_roomy uuid hmany) hnames hsmall
  have hmount := mount_run (accepted_copy hf.accepted) hf.wellFormed
  rw [← diskOf_bytes hf.sectorSize] at hmount hfill
  exact ⟨_, _, _, _, fs', hformat, hlen, hmount, hfill, hlen'.trans hlen, hholds⟩

theorem countRootFile_run (hc : Consistent fs) {path : String} {contents : List UInt8}
    (hne : contents ≠ []) (hfile : pathsOf fs.view.flat (pathNames path) = some (.file contents))
    (count : Nat) : countRootFile count path fs = (.ok (addCount count 1), fs) := by
  obtain ⟨n, hf, hn⟩ := file_of_paths hfile
  obtain ⟨I, hI, hk, rfl⟩ := View.flat_eq_some.mp hn
  have hsize : I.size ≠ 0 := by
    rw [← hc.length_content hI]
    exact fun h => hne (eq_nil_of_length_eq_zero h)
  have hvalid : ¬((statOf n I).kind ≠ .regular ∨ (statOf n I).size = 0) := by
    rintro (h | h)
    · exact h hk
    · exact hsize h
  rw [countRootFile, bind_of_ok (mapError_of_ok (hc.stat_found hf hI)), ensure_bind_pos hvalid]
  rfl

theorem countRootFiles_run (hc : Consistent fs)
    (hholds : ∀ path ∈ rootPaths, ∃ contents ≠ [],
      pathsOf fs.view.flat (pathNames path) = some (.file contents)) :
    ∃ count fs', countRootFiles fs = (.ok count, fs') := by
  have hfold : ∀ (paths : List String) (count : Nat), (∀ path ∈ paths, path ∈ rootPaths) →
      ∃ count', paths.foldlM countRootFile count fs = (.ok count', fs) := by
    intro paths
    induction paths with
    | nil => exact fun count _ => ⟨count, rfl⟩
    | cons path paths ih =>
      intro count hmem
      obtain ⟨contents, hne, hfile⟩ := hholds path (hmem path mem_cons_self)
      obtain ⟨count', hrest⟩ := ih (addCount count 1) fun q hq => hmem q (mem_cons_of_mem _ hq)
      refine ⟨count', ?_⟩
      rw [foldlM_cons, bind_of_ok (countRootFile_run hc hne hfile count)]
      exact hrest
  obtain ⟨count, hcount⟩ := hfold rootPaths 0 fun _ h => h
  refine ⟨count, unmountedFrom fs, ?_⟩
  rw [countRootFiles, bind_of_ok hcount, bind_of_ok (mapError_of_ok (unmount_run hc.toMounted))]
  rfl

end

/-! ## The image -/

section
variable {image : List UInt8} {p : PartitionReport}

structure PartitionReport.Inside (p : PartitionReport) (image : List UInt8) : Prop where
  pos : 0 < p.sectorCount
  fits : p.firstLba * 512 + p.sectorCount * 512 ≤ image.length
  length_lt : image.length < 2 ^ 64

theorem PartitionReport.Inside.congr {image' : List UInt8} (h : p.Inside image)
    (hlen : image'.length = image.length) : p.Inside image' :=
  ⟨h.pos, hlen ▸ h.fits, hlen ▸ h.length_lt⟩

theorem PartitionReport.Inside.length_contents (h : p.Inside image) :
    (p.contents image).length = p.sectorCount * 512 := length_slice h.fits

theorem PartitionReport.Inside.range (h : p.Inside image) :
    onDisk (partitionRange image.length p.firstLba p.sectorCount) =
      .ok (p.firstLba * 512, p.firstLba * 512 + p.sectorCount * 512) := by
  obtain ⟨hpos, hfits, hlt⟩ := h
  have hok : partitionRange image.length p.firstLba p.sectorCount =
      .ok (p.firstLba * 512, p.firstLba * 512 + p.sectorCount * 512) := by
    rw [partitionRange, checkedMul_decides.eq_ok (by dsimp only [sectorSize]; omega),
      Result.bind_ok, checkedMul_decides.eq_ok (by dsimp only [sectorSize]; omega),
      Result.bind_ok, checkedAdd_decides.eq_ok (by dsimp only [sectorSize]; omega),
      Result.bind_ok, Result.ensure_pos (by dsimp only [sectorSize]; omega)]
    rfl
  rw [hok]
  rfl

variable {fat : FatLibrary} {v : fat.Volume}

structure FatLibrary.Works (fat : FatLibrary) : Prop where
  formats : ∀ bytes, ∃ bytes', fat.formatVolume bytes = .ok bytes'
  mounts : ∀ bytes, ∃ v, fat.new bytes = .ok v
  calls : ∀ c v, ∃ n v', n ≠ 0 ∧ fat.call c v = (.ok n, v')

theorem FatLibrary.Works.fatCall_ends (h : fat.Works) (context : String) (c : FatCall) :
    Ends (fatCall fat context c) v (fun n _ => n ≠ 0) fun _ _ => False := by
  obtain ⟨n, v', hn, hrun⟩ := h.calls c v
  exact .of_ok (mapError_of_ok hrun) hn

theorem FatLibrary.Works.writeFatFile_ends (h : fat.Works) (path : String) (contents : List UInt8) :
    Ends (writeFatFile fat path contents) v (fun _ _ => True) fun _ _ => False :=
  (h.fatCall_ends _ _).bind fun _ _ _ => (h.fatCall_ends _ _).bind fun _ _ _ =>
    (h.fatCall_ends _ _).bind fun _ _ _ => .pure trivial

theorem FatLibrary.Works.fillEsp_ends (h : fat.Works) (kernel bootX64 biosSys : List UInt8) :
    Ends (fillEsp fat kernel bootX64 biosSys) v (fun _ _ => True) fun _ _ => False :=
  (h.fatCall_ends _ _).bind fun _ _ _ => (h.fatCall_ends _ _).bind fun _ _ _ =>
    (h.fatCall_ends _ _).bind fun _ _ _ => (h.writeFatFile_ends _ _).bind fun _ _ _ =>
    (h.writeFatFile_ends _ _).bind fun _ _ _ => (h.writeFatFile_ends _ _).bind fun _ _ _ =>
    (h.writeFatFile_ends _ _).bind fun _ _ _ => (h.fatCall_ends _ _).bind fun _ _ _ =>
    .pure trivial

theorem FatLibrary.Works.countEspFile_ends (h : fat.Works) (count : Nat) (path : String) :
    Ends (countEspFile fat count path) v (fun _ _ => True) fun _ _ => False :=
  (h.fatCall_ends _ _).bind fun _ _ _ => (h.fatCall_ends _ _).bind fun _ _ hn =>
    .ensure_bind (fun _ => .pure trivial) fun hzero => hzero hn

section
variable (hworks : fat.Works) (h : p.Inside image)
include hworks h

theorem formatPartition_fat_succeeds (hsize : 32 * mib ≤ p.sectorCount * 512) (uuid : Guid) :
    ∃ image', formatPartition fat image p .fat32 uuid = .ok image' := by
  obtain ⟨formatted, hformat⟩ := hworks.formats (p.contents image)
  have hlen : ¬(p.contents image).length < 32 * mib := by
    rw [h.length_contents]
    exact Nat.not_lt.mpr hsize
  refine ⟨splice image (p.firstLba * 512) formatted, ?_⟩
  rw [formatPartition, h.range, Result.bind_ok]
  dsimp only
  rw [Nat.add_sub_cancel_left, ← PartitionReport.contents, Result.ensure_pos hlen, hformat]
  rfl

theorem populateEsp_succeeds (kernel bootX64 biosSys : List UInt8) :
    ∃ image', populateEsp fat image p kernel bootX64 biosSys = .ok image' := by
  obtain ⟨v, hmount⟩ := hworks.mounts (p.contents image)
  obtain ⟨_, v', hfill, -⟩ := (hworks.fillEsp_ends kernel bootX64 biosSys).returns
  have hfinish := finish_of_ok hfill
  refine ⟨splice image (p.firstLba * 512) (fat.bytes v'), ?_⟩
  rw [populateEsp, h.range, Result.bind_ok]
  rw [Nat.add_sub_cancel_left, ← PartitionReport.contents,
    Result.bind_of_ok (Result.mapError_eq_ok.mpr hmount), Result.bind_of_ok hfinish]

theorem verifyEsp_succeeds : ∃ count, verifyEsp fat image p = .ok count := by
  obtain ⟨v, hmount⟩ := hworks.mounts (p.contents image)
  have hfold : ∀ (paths : List String) (count : Nat) (v : fat.Volume),
      Ends (paths.foldlM (countEspFile fat) count) v (fun _ _ => True) fun _ _ => False := by
    intro paths
    induction paths with
    | nil => exact fun count v => .pure trivial
    | cons path paths ih => exact fun count v => (hworks.countEspFile_ends _ _).bind fun _ _ _ => ih _ _
  obtain ⟨count, v', hcount, -⟩ := (hfold espPaths 0 v).returns
  have hfinish := finish_of_ok hcount
  refine ⟨count, ?_⟩
  rw [verifyEsp, h.range, Result.bind_ok]
  rw [Nat.add_sub_cancel_left, ← PartitionReport.contents,
    Result.bind_of_ok (Result.mapError_eq_ok.mpr hmount), Result.bind_of_ok hfinish]

end

theorem root_populated (h : p.Inside image) (hsize : 8 * mib ≤ p.sectorCount * 512) (uuid : Guid)
    (hnames : files.map Prod.fst = rootPaths) (hsmall : ∀ file ∈ files, file.2.length ≤ 4096) :
    ∃ image₁ image', formatPartition fat image p .nexFs uuid = .ok image₁ ∧
      populateRoot image₁ p files = .ok image' ∧ RootHolds files (p.contents image') := by
  have hlen := h.length_contents
  obtain ⟨sb, d, fs, d', fs', hformat, hlen₁, hmount, hfill, hlen₂, hholds⟩ :=
    root_filled uuid (by rwa [hlen]) (by rw [hlen]; have := h.fits; have := h.length_lt; omega)
      hnames hsmall
  rw [hlen] at hlen₁ hlen₂
  have h₁ : Refilled p image (splice image (p.firstLba * 512) d.bytes) d.bytes :=
    ⟨h.fits, hlen₁, rfl⟩
  have hinside := h.congr h₁.sameOutside.length
  have h₂ : Refilled p (splice image (p.firstLba * 512) d.bytes)
      (splice (splice image (p.firstLba * 512) d.bytes) (p.firstLba * 512) fs'.device.bytes)
      fs'.device.bytes := ⟨hinside.fits, hlen₂, rfl⟩
  have hformat := finish_of_ok
    (mapError_of_ok (g := InstallError.nexfs "NexFS format failed") hformat)
  have hmount := finish_of_ok
    (mapError_of_ok (g := InstallError.nexfs "cannot mount NexFS root") hmount)
  have hfill := finish_of_ok hfill
  refine ⟨splice image (p.firstLba * 512) d.bytes, _, ?_, ?_, h₂.contents_eq ▸ hholds⟩
  · rw [formatPartition, h.range, Result.bind_ok]
    dsimp only
    rw [Nat.add_sub_cancel_left, ← PartitionReport.contents, Result.bind_of_ok hformat]
    exact copyFromSlice_eq h.fits hlen₁
  · rw [populateRoot, hinside.range, Result.bind_ok]
    rw [Nat.add_sub_cancel_left, ← PartitionReport.contents, h₁.contents_eq,
      Result.bind_of_ok hmount, Result.bind_of_ok hfill]
    exact copyFromSlice_eq hinside.fits hlen₂

theorem verifyRoot_succeeds (h : p.Inside image) (hnames : files.map Prod.fst = rootPaths)
    (hne : ∀ file ∈ files, file.2 ≠ []) (hholds : RootHolds files (p.contents image)) :
    ∃ result, verifyRoot image p = .ok result := by
  obtain ⟨sb, hacc, hwell, hfiles⟩ := hholds
  have hc := mountedFrom_consistent hacc hwell
  have hpaths : ∀ path ∈ rootPaths, ∃ contents ≠ [],
      pathsOf (mountedFrom (diskOf (p.contents image)) sb).view.flat (pathNames path) =
        some (.file contents) := by
    intro path hpath
    rw [← hnames] at hpath
    obtain ⟨file, hfile, rfl⟩ := mem_map.mp hpath
    rw [mountedFrom_view hacc]
    exact ⟨file.2, hne file hfile, hfiles file hfile⟩
  obtain ⟨count, fs', hcount⟩ := countRootFiles_run hc hpaths
  have hcheck := finish_of_ok (mapError_of_ok
    (g := InstallError.nexfs "installed root check failed") (hacc.check_ok hwell))
  have hmount := finish_of_ok (mapError_of_ok
    (g := InstallError.nexfs "cannot mount installed root") (mount_run hacc hwell))
  have hdone := finish_of_ok hcount
  refine ⟨((Nexfs.reportOf sb (diskOf (p.contents image))).superblock.uuid, count), ?_⟩
  rw [verifyRoot, h.range, Result.bind_ok]
  rw [Nat.add_sub_cancel_left, ← PartitionReport.contents, Result.bind_of_ok hcheck,
    Result.bind_of_ok hmount, Result.bind_of_ok hdone]

end

section
variable {rootUuid : Guid} {mode : InstallMode} {esp root : PartitionReport}

structure Selection.Fine (selection : Selection) (esp root : PartitionReport) : Prop where
  inspected : inspectBytes selection.image = .ok selection.report
  esp_found : findIndex selection.report selection.espIndex = .ok esp
  root_found : findIndex selection.report selection.rootIndex = .ok root
  valid : validateSelectedPartitions esp root = .ok ()
  esp_inside : esp.Inside selection.image
  root_inside : root.Inside selection.image

theorem validateSelectedPartitions_sizes (h : validateSelectedPartitions esp root = .ok ()) :
    32 * mib ≤ esp.sectorCount * 512 ∧ 8 * mib ≤ root.sectorCount * 512 := by
  obtain ⟨_, hesp, h⟩ := Result.bind_eq_ok h
  obtain ⟨_, hroot, -⟩ := Result.bind_eq_ok h
  have hesp := ((Result.Decides.ensure _ _).of_eq_ok hesp).1
  have hroot := ((Result.Decides.ensure _ _).of_eq_ok hroot).1
  dsimp only [saturatingMul, minEspBytes, minRootBytes] at *
  omega

theorem rootFiles_names (kernel : List UInt8) (espIndex rootIndex : Nat) :
    (rootFiles kernel rootUuid espIndex rootIndex mode).map Prod.fst = rootPaths := rfl

theorem inside_of_place {p p' : PartitionReport} {image : List UInt8} (h : p.Inside image)
    (hplace : p'.place = p.place) : p'.Inside image := by
  have hfirst : p'.firstLba = p.firstLba := congrArg (·.firstLba) hplace
  have hcount : p'.sectorCount = p.sectorCount := congrArg (·.sectorCount) hplace
  refine ⟨hcount ▸ h.pos, ?_, h.length_lt⟩
  rw [hfirst, hcount]
  exact h.fits

theorem buildImage_succeeds (h : selection.Fine esp root) (hworks : s.fat.Works)
    (hfiles : ∀ file ∈ rootFiles payload.kernel rootUuid selection.espIndex selection.rootIndex mode,
      file.2 ≠ [] ∧ file.2.length ≤ 4096) :
    ∃ image, buildImage s selection payload rootUuid mode = .ok image ∧
      ∀ path, ∃ report,
        verifyBytes s.fat image path selection.espIndex selection.rootIndex = .ok report ∧
        report.espPartition = selection.espIndex ∧ report.rootPartition = selection.rootIndex := by
  obtain ⟨hesp, hroot⟩ := validateSelectedPartitions_sizes h.valid
  obtain ⟨image₁, h₁⟩ := formatPartition_fat_succeeds hworks h.esp_inside hesp
    (generateGuid s.source (selection.counter + 1))
  obtain ⟨_, hrefilled₁⟩ := formatPartition_fat h₁
  have hin₁ := h.esp_inside.congr hrefilled₁.sameOutside.length
  obtain ⟨image₂, h₂⟩ := populateEsp_succeeds hworks hin₁ payload.kernel payload.bootX64
    payload.biosSys
  obtain ⟨_, hrefilled₂⟩ := populateEsp_ok h₂
  have hin₂ := h.root_inside.congr
    (hrefilled₂.sameOutside.length.trans hrefilled₁.sameOutside.length)
  obtain ⟨image₃, image, h₃, h₄, hholds⟩ := root_populated hin₂ hroot rootUuid
    (rootFiles_names payload.kernel selection.espIndex selection.rootIndex)
    fun file hfile => (hfiles file hfile).2
  have hbuild : buildImage s selection payload rootUuid mode = .ok image := by
    rw [buildImage, h.esp_found, Result.bind_ok, h.root_found, Result.bind_ok, h.valid,
      Result.bind_ok, h₁, Result.bind_ok, h₂, Result.bind_ok, h₃]
    exact h₄
  refine ⟨image, hbuild, fun path => ?_⟩
  obtain ⟨files, esp', root', hbuilt⟩ := buildImage_ok hbuild
  have hinspect := hbuilt.inspectBytes_eq h.inspected
  have hreport := (inspected h.inspected).2
  have hlen := hbuilt.sameOutside.length
  have hfind : ∀ {index : Nat} {p : PartitionReport}, findIndex selection.report index = .ok p →
      ∃ p', findIndex (reportOf image (tableOf (diskOf selection.image))) index = .ok p' ∧
        p'.place = p.place := by
    intro index p hp
    rw [hreport] at hp
    obtain ⟨q, hq, rfl⟩ := findIndex_reportOf.mp hp
    exact ⟨_, findIndex_reportOf.mpr ⟨q, hq, rfl⟩, rfl⟩
  obtain ⟨esp₁, hesp₁, hespPlace⟩ := hfind h.esp_found
  obtain ⟨root₁, hroot₁, hrootPlace⟩ := hfind h.root_found
  have hespIn := inside_of_place (h.esp_inside.congr hlen) hespPlace
  have hrootIn := inside_of_place (h.root_inside.congr hlen) hrootPlace
  rw [← contents_congr hrootPlace] at hholds
  obtain ⟨count, hcount⟩ := verifyEsp_succeeds hworks hespIn
  obtain ⟨result, hresult⟩ := verifyRoot_succeeds hrootIn
    (rootFiles_names payload.kernel selection.espIndex selection.rootIndex)
    (fun file hfile => (hfiles file hfile).1) hholds
  refine ⟨{ target := path, mode := "verified", espPartition := esp₁.index,
            rootPartition := root₁.index, rootUuid := result.1, kernelBytes := 0,
            verifiedFiles := addCount count result.2, biosStageInstalled := false },
    ?_, (findIndex_mem hesp₁).2, (findIndex_mem hroot₁).2⟩
  rw [verifyBytes, hinspect]
  change (findIndex _ _ >>= _) = _
  rw [hesp₁, Result.bind_ok, hroot₁, Result.bind_ok, verifySelected, hcount, Result.bind_ok,
    hresult, Result.bind_ok]

end

/-! ## The calls -/

section
variable {request : InstallRequest} {listing : Listing FilePath FileEntry}

/-- A request for a manual installation that the installer accepts, with the files it
names. The target is in the current directory. -/
structure Requested (request : InstallRequest) (listing : Listing FilePath FileEntry)
    (payload : Payload) (old : List UInt8) (temporary backup : FilePath) : Prop where
  path : validateImagePath request.target = .ok ()
  here : request.target.parents = []
  source : ¬(request.target = request.kernel ∨
    request.target.startsWith request.limineDirectory = true)
  confirmed : requireConfirmation request.target request.yes request.confirmation = .ok ()
  kernel : listing request.kernel = some (.file payload.kernel)
  directory : listing request.limineDirectory = some .directory
  bootX64 : listing (request.limineDirectory.join "BOOTX64.EFI".toList) =
    some (.file payload.bootX64)
  biosSys : listing (request.limineDirectory.join "limine-bios.sys".toList) =
    some (.file payload.biosSys)
  target : listing request.target = some (.file old)
  temporary_eq : Files.siblingPath request.target "nexos-new" = .ok temporary
  backup_eq : Files.siblingPath request.target "nexos-backup" = .ok backup
  temporary_path : validateImagePath temporary = .ok ()
  temporary_free : listing temporary = none
  backup_free : listing backup = none

variable {old image : List UInt8} {temporary backup : FilePath} {bios : Bool}

section
variable (h : Requested request listing payload old temporary backup)
include h

theorem Requested.validateRequest_does
    (hmode : request.mode = .manual esp root bios) :
    Does (validateRequest request) listing 3 () listing := by
  have hpresent : (listing request.target).isSome = true := by
    rw [h.target]
    rfl
  rw [validateRequest, h.path, hmode]
  refine .lift_bind rfl <| .ensure_bind h.source ?_
  refine (Does.get h.kernel).mapError.bind <| .ensure_bind rfl ?_
  refine (Does.get h.directory).mapError.bind <| .ensure_bind rfl ?_
  exact (Does.contains listing request.target).bind <| .lift (Result.ensure_pos hpresent _)

theorem Requested.readPayload_does : Does (readPayload request) listing 3 payload listing :=
  (Files.read_does h.kernel).mapError.bind <| (Files.read_does h.bootX64).mapError.bind <|
    (Files.read_does h.biosSys).mapError.bind <| .pure _ _

theorem Requested.select_does (hmode : request.mode = .manual esp root bios)
    (hne : esp ≠ root) (hselect : manualSelection s old esp root = .ok selection) :
    Does (select s request) listing 2 selection listing := by
  rw [select, hmode]
  exact .ensure_bind hne <| (Files.readImage_does h.path h.target).mapError.bind (.lift hselect)

theorem Requested.preparedPath_does :
    Does (Files.preparedPath request.target) listing 2 temporary listing := by
  have htemporary := Does.contains (ε := HostError) listing temporary
  have hbackup := Does.contains (ε := HostError) listing backup
  rw [h.temporary_free] at htemporary
  rw [h.backup_free] at hbackup
  have hstale : Does (Files.eitherExists temporary backup) listing 2 false listing :=
    htemporary.bind hbackup
  exact .lift_bind h.temporary_eq <| .lift_bind h.backup_eq <| hstale.bind <|
    .ensure_bind rfl <| .pure _ _

end

theorem writePrepared_does (hhere : temporary.parents = []) (hfree : listing temporary = none)
    (image : List UInt8) :
    Does (Files.writePrepared temporary image) listing 3 ()
      (Function.update listing temporary (some (.file image))) := by
  have hreplace := Does.replace (Function.update_self temporary (some (.file [])) listing)
    (.file image)
  rw [Function.update_idem] at hreplace
  rw [Files.writePrepared, Files.createParent, if_pos hhere]
  exact (Does.pure () listing).bind <| (Does.create hfree (.file [])).mapError.bind <|
    hreplace.mapError.bind (Does.call rfl).mapError

theorem commitPrepared_does {path : FilePath} (hvalid : validateImagePath path = .ok ())
    (hbackup : Files.siblingPath path "nexos-backup" = .ok backup)
    (htemporary : Files.siblingPath path "nexos-new" = .ok temporary)
    (htarget : listing path = some (.file old))
    (hfile : listing temporary = some (.file image)) {report : DiskReport}
    (hinspect : inspectBytes image = .ok report) :
    Does (Files.commitPrepared path temporary) listing 7 () (Function.update
      ((listing.moved path backup).moved temporary path) backup none) := by
  have hne := Files.siblingPath_ne hbackup
  have hother := Files.siblingPath_ne_of_ne hbackup htemporary (by decide)
  have hfile₁ : listing.moved path backup temporary = some (.file image) := by
    rw [Listing.moved_other (Files.siblingPath_ne htemporary).symm hother.symm, hfile]
  have hfile₂ : (listing.moved path backup).moved temporary path path = some (.file image) := by
    rw [Listing.moved_destination, hfile₁]
  have hbackup₂ : (listing.moved path backup).moved temporary path backup = some (.file old) := by
    rw [Listing.moved_other hother hne.symm, Listing.moved_destination, htarget]
  have hpresent := Does.contains (ε := HostError) listing path
  rw [htarget] at hpresent
  have hsettle : Does (Files.settle path backup) _ 3 () _ :=
    (Files.inspectImage_does hvalid hfile₂ hinspect).outcome.bind (Does.remove hbackup₂).mapError
  have hexchange : Does (Files.exchange path temporary backup) _ 4 () _ :=
    (Does.rename hfile₁ path).outcome.bind hsettle
  have haway := (Does.rename htarget backup).mapError (g := HostError.io)
  exact .lift_bind hbackup <| hpresent.bind <| (Does.get htarget).mapError.bind <|
    haway.bind hexchange

/-- A manual installation without the BIOS stage whose calls do not fail reaches the end of
the exchange: the target holds an image that passes the verification, and the old one is
gone. -/
theorem stageAndCommit_succeeds (h : Requested request listing payload old temporary backup) (hmode : request.mode = .manual espIndex rootIndex bios)
    (hbios : request.biosStage = false) (hne : espIndex ≠ rootIndex) {esp root : PartitionReport}
    (hselect : manualSelection s old espIndex rootIndex = .ok selection)
    (hfine : selection.Fine esp root) (hworks : s.fat.Works)
    (hfiles : ∀ file ∈ rootFiles payload.kernel (generateGuid s.source selection.counter)
      selection.espIndex selection.rootIndex request.mode, file.2 ≠ [] ∧ file.2.length ≤ 4096) :
    ∃ staged listing', Does (stageAndCommit s request) listing 22 staged listing' ∧
      listing' backup = none := by
  obtain ⟨image, hbuild, hverify⟩ := buildImage_succeeds hfine hworks hfiles
  obtain ⟨files, esp', root', hbuilt⟩ := buildImage_ok hbuild
  have hinspect := hbuilt.inspectBytes_eq hfine.inspected
  obtain ⟨report, hreport, hespIndex, hrootIndex⟩ := hverify temporary
  have hhere : temporary.parents = [] := by
    rw [Files.siblingPath_parents h.temporary_eq]
    exact h.here
  have hwrite := writePrepared_does hhere h.temporary_free image
  generalize hprepared : Function.update listing temporary (some (.file image)) = prepared at hwrite
  have hfile : prepared temporary = some (.file image) := by
    rw [← hprepared, Function.update_self]
  have htarget : prepared request.target = some (.file old) := by
    rw [← hprepared, Function.update_of_ne (Files.siblingPath_ne h.temporary_eq), h.target]
  have hprepare : Does (prepare s request temporary selection) prepared 2 report prepared := by
    rw [prepare, biosStep, hbios]
    exact (Does.pure () _).bind <|
      (Files.readImage_does h.temporary_path hfile).mapError.bind (.lift hreport)
  have hstage : Does (stage s request) listing 15
      { temporary := temporary, espIndex := selection.espIndex, rootIndex := selection.rootIndex,
        rootUuid := generateGuid s.source selection.counter,
        kernelBytes := payload.kernel.length } prepared := by
    refine (h.validateRequest_does hmode).bind <|
      .lift_bind (Result.mapError_eq_ok.mpr h.confirmed) ?_
    refine h.readPayload_does.bind <| (h.select_does hmode hne hselect).bind ?_
    refine .lift_bind hbuild <| h.preparedPath_does.mapError.bind ?_
    refine hwrite.mapError.bind <| hprepare.outcome.bind ?_
    dsimp only
    rw [if_neg (by rw [hespIndex, hrootIndex]; simp)]
    exact .pure _ _
  have hcommit := commitPrepared_does h.path h.backup_eq h.temporary_eq htarget hfile hinspect
  exact ⟨_, _, hstage.bind <| hcommit.mapError.bind <| .pure _ _, Function.update_self ..⟩

end

/-! ## A run -/

def plainFat : FatLibrary where
  Volume := List UInt8
  bytes := id
  formatVolume := .ok
  new := .ok
  call := fun _ v => (.ok 1, v)
  length_formatVolume := fun _ _ h => by cases h; rfl
  length_new := fun _ _ h => by cases h; rfl
  length_call := fun _ _ => rfl

theorem plainFat_works : plainFat.Works where
  formats := fun bytes => ⟨bytes, rfl⟩
  mounts := fun bytes => ⟨bytes, rfl⟩
  calls := fun _ v => ⟨1, v, by decide, rfl⟩

def sampleSurroundings : Surroundings where
  fat := plainFat
  limine := fun _ _ _ => { left := none, success := false, output := "" }
  source := sampleSource
  counter := 0
  windows := false

def sampleRequest : InstallRequest where
  target := Files.sampleTarget
  kernel := { parents := [], fileName := some "kernel".toList }
  limineDirectory := { parents := [], fileName := some "limine".toList }
  sizeMib := 64
  mode := .manual 1 2 false
  yes := true
  confirmation := "disk.img".toList
  installBiosStage := false

def samplePayload : Payload where
  kernel := [1]
  bootX64 := [2]
  biosSys := [3]

def sampleFiles : Listing FilePath FileEntry := fun name =>
  if name = Files.sampleTarget then some (.file sampleImage)
  else if name = sampleRequest.kernel then some (.file samplePayload.kernel)
  else if name = sampleRequest.limineDirectory then some .directory
  else if name = sampleRequest.limineDirectory.join "BOOTX64.EFI".toList then
    some (.file samplePayload.bootX64)
  else if name = sampleRequest.limineDirectory.join "limine-bios.sys".toList then
    some (.file samplePayload.biosSys)
  else none

def sampleSelection : Selection where
  image := sampleImage
  report := reportOf sampleImage (planTable samplePlan)
  espIndex := 1
  rootIndex := 2
  counter := 0

theorem sampleRequest_requested : Requested sampleRequest sampleFiles samplePayload sampleImage
    Files.sampleNew Files.sampleBackup where
  path := rfl
  here := rfl
  source := by decide
  confirmed := rfl
  kernel := rfl
  directory := rfl
  bootX64 := rfl
  biosSys := rfl
  target := rfl
  temporary_eq := rfl
  backup_eq := rfl
  temporary_path := rfl
  temporary_free := rfl
  backup_free := rfl

theorem inspectBytes_sampleImage :
    inspectBytes sampleImage = .ok (reportOf sampleImage (planTable samplePlan)) :=
  inspectBytes_layoutImage samplePlan_writable length_blankImage length_blankImage_lt (by decide)

theorem sampleSelection_fine : ∃ esp root, sampleSelection.Fine esp root ∧ root.firstLba = 67584 ∧
    root.sectorCount = 40000 := by
  have hesp : ∃ p, (planTable samplePlan).partitions.find? (fun p => p.index = 1) = some p ∧
      p.firstLba = 2048 ∧ p.sectorCount = 65536 := ⟨_, rfl, rfl, rfl⟩
  have hroot : ∃ p, (planTable samplePlan).partitions.find? (fun p => p.index = 2) = some p ∧
      p.firstLba = 67584 ∧ p.sectorCount = 40000 := ⟨_, rfl, rfl, rfl⟩
  obtain ⟨p, hp, hfirst, hcount⟩ := hesp
  obtain ⟨q, hq, hfirst', hcount'⟩ := hroot
  refine ⟨reportPartition sampleImage p, reportPartition sampleImage q,
    ⟨inspectBytes_sampleImage, findIndex_reportOf.mpr ⟨p, hp, rfl⟩,
      findIndex_reportOf.mpr ⟨q, hq, rfl⟩, ?_, ⟨?_, ?_, length_sampleImage_lt⟩,
      ⟨?_, ?_, length_sampleImage_lt⟩⟩, hfirst', hcount'⟩
  · dsimp only [validateSelectedPartitions, reportPartition]
    rw [hfirst, hcount, hfirst', hcount', Result.ensure_pos (by decide), Result.bind_ok,
      Result.ensure_pos (by decide), Result.bind_ok, Result.ensure_pos (by decide)]
  · dsimp only [reportPartition]
    omega
  · dsimp only [reportPartition, sampleSelection]
    rw [hfirst, hcount, length_sampleImage]
    decide
  · dsimp only [reportPartition]
    omega
  · dsimp only [reportPartition, sampleSelection]
    rw [hfirst', hcount', length_sampleImage]
    decide

theorem manualSelection_sample :
    manualSelection sampleSurroundings sampleImage 1 2 = .ok sampleSelection := by
  obtain ⟨esp, root, h, -⟩ := sampleSelection_fine
  have hesp : findIndex (reportOf sampleImage (planTable samplePlan)) 1 = .ok esp := h.esp_found
  have hroot : findIndex (reportOf sampleImage (planTable samplePlan)) 2 = .ok root := h.root_found
  rw [manualSelection, onDisk,
    Result.bind_of_ok (Result.mapError_eq_ok.mpr inspectBytes_sampleImage), Result.bind_of_ok hesp,
    Result.bind_of_ok hroot, h.valid]
  rfl

theorem stageAndCommit_sample {faults : Nat → Bool} (hfaults : ∀ n < 22, faults n = false) :
    ∃ staged t, stageAndCommit sampleSurroundings sampleRequest (start sampleFiles faults) =
        (.ok staged, t) ∧ t.faults = faults ∧ t.calls = 22 ∧
      t.listing Files.sampleBackup = none := by
  obtain ⟨esp, root, h, -⟩ := sampleSelection_fine
  obtain ⟨staged, listing, hdoes, hgone⟩ := stageAndCommit_succeeds sampleRequest_requested rfl rfl
    (by decide) manualSelection_sample h plainFat_works (by decide +kernel)
  obtain ⟨t, hrun, rfl, hsame, hcalls⟩ := hdoes (start sampleFiles faults) rfl fun n hn => by
    rw [start, Nat.zero_add]
    exact hfaults n hn
  exact ⟨staged, t, hrun, hsame, hcalls, hgone⟩

end NexOs.Host
