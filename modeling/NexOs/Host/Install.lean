import NexOs.Host.Files
import NexOs.Nexfs.Volume

/-! The installer of the host: it builds an image with a boot partition and a root
filesystem beside the target, checks it, and lets it take the target's place. -/
namespace NexOs.Host
open Bytes Storage Nexfs

def version : String := "0.11.1-dev"

abbrev alignmentSectors : Nat := 2048
abbrev minEspBytes : Nat := 32 * mib
abbrev minRootBytes : Nat := 8 * mib

inductive GuidedMode where
  | combined
  | uefi
  | bios
  deriving DecidableEq

namespace GuidedMode

def hasUefi : GuidedMode → Bool
  | combined | uefi => true
  | bios => false

def hasBios : GuidedMode → Bool
  | combined | bios => true
  | uefi => false

end GuidedMode

inductive InstallMode where
  | guided (mode : GuidedMode)
  | manual (espPartition rootPartition : Nat) (bios : Bool)

namespace InstallMode

def hasBios : InstallMode → Bool
  | guided mode => mode.hasBios
  | manual _ _ bios => bios

def name : InstallMode → String
  | guided .combined => "guided-combined"
  | guided .uefi => "guided-uefi"
  | guided .bios => "guided-bios"
  | manual _ _ _ => "manual"

end InstallMode

structure InstallRequest where
  target : FilePath
  kernel : FilePath
  limineDirectory : FilePath
  sizeMib : Nat
  mode : InstallMode
  yes : Bool
  confirmation : List Char
  installBiosStage : Bool

structure InstallReport where
  target : FilePath
  mode : String
  espPartition : Nat
  rootPartition : Nat
  rootUuid : Guid
  kernelBytes : Nat
  verifiedFiles : Nat
  biosStageInstalled : Bool

/-- The errors of the installer. The first four pass on the error of a call, the last
three of them under a text of their own. -/
inductive InstallError where
  | host (error : HostError)
  | io (context : String) (error : IoError)
  | fat (context : String) (error : String)
  | nexfs (context : String) (error : FsError)
  | blankTooSmall
  | imageTooLarge
  | guidedTooSmall
  | diskTooSmall
  | noRootSpace
  | fatTooSmall
  | unsupportedFilesystem
  | samePartitions
  | sourceFile
  | kernelNotRegular
  | limineNotDirectory
  | needsImage
  | espTooSmall
  | rootTooSmall
  | selectedOverlap
  | noRole (role : PartitionRole)
  | emptyEspFile (path : String)
  | invalidRootFile (path : String)
  | noLimineTool
  | limineFailed (output : String)
  | preparation (error : InstallError)
  | selectionChanged
  | rootUuidChanged

/-! ## What the installer does not contain itself -/

inductive FatCall where
  | createDir (path : String)
  | createFile (path : String)
  | truncate (path : String)
  | writeAll (path : String) (contents : List UInt8)
  | openFile (path : String)
  | read (path : String) (length : Nat)
  | unmount

/-- The FAT library. It works inside the bytes it is given and leaves as many. -/
structure FatLibrary where
  Volume : Type
  bytes : Volume → List UInt8
  formatVolume : List UInt8 → Result String (List UInt8)
  new : List UInt8 → Result String Volume
  call : FatCall → Exec Volume String Nat
  length_formatVolume : ∀ b b', formatVolume b = .ok b' → b'.length = b.length
  length_new : ∀ b v, new b = .ok v → (bytes v).length = b.length
  length_call : ∀ c v, (bytes (call c v).2).length = (bytes v).length

structure LimineRun where
  left : Option FileEntry
  success : Bool
  output : String

/-- The surroundings of an installation. `counter` is the number of the next call of
`generate_guid`. -/
structure Surroundings where
  fat : FatLibrary
  limine : FilePath → FilePath → Listing FilePath FileEntry → LimineRun
  source : GuidSource
  counter : Nat
  windows : Bool

abbrev InstallCall := Exec HostFiles InstallError

def onDisk (r : Result DiskError α) : Result InstallError α := r.mapError fun e => .host (.disk e)

/-! ## Layouts -/

def createBlankBytes (sizeMib : Nat) : Result InstallError (List UInt8) := do
  Result.ensure (¬sizeMib < minDiskMib) .blankTooSmall
  let byteCount ← Result.okOr (checkedMul sizeMib mib) .imageTooLarge
  .ok (List.replicate byteCount 0)

def alignUp (value alignment : Nat) : Nat :=
  saturatingAdd value (alignment - 1) / alignment * alignment

/-- The plan and the number of the next call of `generate_guid`: the partitions take an
identifier each, then the disk takes one. -/
def guidedLayout (source : GuidSource) (counter sizeMib : Nat) (mode : GuidedMode) :
    Result InstallError (LayoutPlan × Nat) := do
  let byteCount ← Result.okOr (checkedMul sizeMib mib) .imageTooLarge
  Result.ensure (¬sizeMib < 96) .guidedTooSmall
  let totalSectors := byteCount / sectorSize
  let espSectors := 32 * 1024 * 1024 / sectorSize
  let biosBoot : List PartitionPlan :=
    if mode.hasBios ∧ mode ≠ .bios then
      [{ role := .biosBoot, name := "NexOS BIOS".toList, firstLba := alignmentSectors,
         sectorCount := alignmentSectors, uniqueGuid := generateGuid source counter,
         bootable := false }]
    else []
  let nextLba := alignmentSectors + biosBoot.length * alignmentSectors
  let esp : List PartitionPlan :=
    if mode.hasUefi ∨ mode = .bios then
      [{ role := .efiSystem, name := "NexOS boot".toList, firstLba := nextLba,
         sectorCount := espSectors, uniqueGuid := generateGuid source (counter + biosBoot.length),
         bootable := mode = .bios }]
    else []
  let nextLba := if mode.hasUefi ∨ mode = .bios then
    alignUp (nextLba + espSectors) alignmentSectors else nextLba
  let lastUsable ← Result.okOr
    (checkedSub totalSectors (if mode = .bios then 1 else gptFirstUsableLba)) .diskTooSmall
  Result.ensure (¬nextLba ≥ lastUsable) .noRootSpace
  let counter := counter + (biosBoot ++ esp).length
  let root : PartitionPlan :=
    { role := .nexFs, name := "NexOS root".toList, firstLba := nextLba,
      sectorCount := lastUsable - nextLba + 1, uniqueGuid := generateGuid source counter,
      bootable := false }
  let plan : LayoutPlan :=
    { kind := if mode = .bios then .mbr else .gpt, totalSectors := totalSectors,
      diskGuid := generateGuid source (counter + 1), partitions := biosBoot ++ esp ++ [root] }
  onDisk (validateLayout plan)
  .ok (plan, counter + 2)

def findRole (report : DiskReport) (role : PartitionRole) : Result InstallError PartitionReport :=
  Result.okOr (report.partitions.find? fun partition => partition.role = role) (.noRole role)

def findIndex (report : DiskReport) (index : Nat) : Result InstallError PartitionReport :=
  Result.okOr (report.partitions.find? fun partition => partition.index = index)
    (.host (.disk (.missingPartition index)))

def saturatingMul (a b : Nat) : Nat := min (a * b) (2 ^ 64 - 1)

def validateSelectedPartitions (esp root : PartitionReport) : Result InstallError Unit := do
  Result.ensure (¬saturatingMul esp.sectorCount 512 < minEspBytes) .espTooSmall
  Result.ensure (¬saturatingMul root.sectorCount 512 < minRootBytes) .rootTooSmall
  let espEnd := saturatingAdd esp.firstLba esp.sectorCount
  let rootEnd := saturatingAdd root.firstLba root.sectorCount
  Result.ensure (¬(esp.firstLba < rootEnd ∧ root.firstLba < espEnd)) .selectedOverlap

/-! ## The contents of the two partitions -/

def formatPartition (fat : FatLibrary) (image : List UInt8) (partition : PartitionReport)
    (filesystem : FilesystemKind) (uuid : Guid) : Result InstallError (List UInt8) := do
  let range ← onDisk (partitionRange image.length partition.firstLba partition.sectorCount)
  let partitionBytes := slice image range.1 (range.2 - range.1)
  match filesystem with
  | .fat32 => do
    Result.ensure (¬partitionBytes.length < 32 * mib) .fatTooSmall
    let formatted ← (fat.formatVolume partitionBytes).mapError (.fat "FAT32 format failed")
    .ok (splice image range.1 formatted)
  | .nexFs => do
    let done ← (Exec.mapError (.nexfs "NexFS format failed") (format uuid)).finish
      (diskOf partitionBytes)
    copyFromSlice image range.1 (range.2 - range.1) done.2.bytes
  | .unknown => Result.fail .unsupportedFilesystem

def fatCall (fat : FatLibrary) (error : String) (c : FatCall) :
    Exec fat.Volume InstallError Nat :=
  (fat.call c).mapError (.fat error)

def writeFatFile (fat : FatLibrary) (path : String) (contents : List UInt8) :
    Exec fat.Volume InstallError Unit := do
  let _ ← fatCall fat ("cannot create " ++ path) (.createFile path)
  let _ ← fatCall fat ("cannot truncate " ++ path) (.truncate path)
  let _ ← fatCall fat ("cannot write " ++ path) (.writeAll path contents)

def limineConf : String :=
  "timeout: 0\n\n/NexOS\n    protocol: limine\n    path: boot():/boot/nexos-kernel\n"

def fillEsp (fat : FatLibrary) (kernel bootX64 biosSys : List UInt8) :
    Exec fat.Volume InstallError Unit := do
  let _ ← fatCall fat "cannot create EFI" (.createDir "EFI")
  let _ ← fatCall fat "cannot create EFI/BOOT" (.createDir "EFI/BOOT")
  let _ ← fatCall fat "cannot create boot" (.createDir "boot")
  writeFatFile fat "EFI/BOOT/BOOTX64.EFI" bootX64
  writeFatFile fat "boot/limine-bios.sys" biosSys
  writeFatFile fat "boot/nexos-kernel" kernel
  writeFatFile fat "limine.conf" (Text.utf8 limineConf)
  let _ ← fatCall fat "cannot finalize EFI filesystem" .unmount

def populateEsp (fat : FatLibrary) (image : List UInt8) (partition : PartitionReport)
    (kernel bootX64 biosSys : List UInt8) : Result InstallError (List UInt8) := do
  let range ← onDisk (partitionRange image.length partition.firstLba partition.sectorCount)
  let volume ← (fat.new (slice image range.1 (range.2 - range.1))).mapError
    (.fat "cannot mount new EFI filesystem")
  let done ← (fillEsp fat kernel bootX64 biosSys).finish volume
  .ok (splice image range.1 (fat.bytes done.2))

def hex (width value : Nat) : List Char :=
  let digits := Nat.toDigits 16 value
  List.replicate (width - digits.length) '0' ++ digits

def hexGuid (guid : Guid) : String :=
  let digits (start stop : Nat) : List Char :=
    ((guid.toList.take stop).drop start).flatMap fun byte => hex 2 byte.toNat
  String.ofList (digits 0 4 ++ '-' :: digits 4 6 ++ '-' :: digits 6 8 ++ '-' :: digits 8 10 ++
    '-' :: digits 10 16)

abbrev RootCall := Exec NexFs InstallError

def writeNexfsFile (path : String) (contents : List UInt8) : RootCall Unit := do
  let _ ← (NexFs.createFile path).mapError (.nexfs ("cannot create " ++ path))
  let _ ← (NexFs.writeFile path 0 contents).mapError (.nexfs ("cannot write " ++ path))

def rootDirectories : List String := ["/system", "/etc", "/bin", "/var", "/home"]

def rootFiles (kernel : List UInt8) (rootUuid : Guid) (espIndex rootIndex : Nat)
    (mode : InstallMode) : List (String × List UInt8) :=
  [("/system/kernel-location", Text.utf8 "esp:/boot/nexos-kernel\n"),
   ("/etc/nexos-release", Text.utf8 ("NAME=NexOS\nVERSION=" ++ version ++
      "\nARCH=x86_64\nINSTALL_MODE=" ++ mode.name ++ "\n")),
   ("/etc/fstab", Text.utf8 ("UUID=" ++ hexGuid rootUuid ++ " / nexfs rw 0 1\npartition:" ++
      toString espIndex ++ " /boot fat32 rw 0 2\n")),
   ("/system/install-manifest", Text.utf8 ("format=1\nversion=" ++ version ++
      "\nesp_partition=" ++ toString espIndex ++ "\nroot_partition=" ++ toString rootIndex ++
      "\nkernel_bytes=" ++ toString kernel.length ++ "\nkernel_crc32=" ++
      String.ofList (hex 8 (crc32 kernel).toNat) ++ "\n"))]

def fillRoot (files : List (String × List UInt8)) : RootCall Unit := do
  rootDirectories.forM fun directory => do
    let _ ← (NexFs.createDir directory).mapError (.nexfs ("cannot create " ++ directory))
  files.forM fun file => writeNexfsFile file.1 file.2
  let _ ← NexFs.unmount.mapError (.nexfs "cannot finalize NexFS root")

def populateRoot (image : List UInt8) (partition : PartitionReport)
    (files : List (String × List UInt8)) : Result InstallError (List UInt8) := do
  let range ← onDisk (partitionRange image.length partition.firstLba partition.sectorCount)
  let mounted ← (Exec.mapError (.nexfs "cannot mount NexFS root") NexFs.mount).finish
    (diskOf (slice image range.1 (range.2 - range.1)))
  let done ← (fillRoot files).finish mounted.1
  copyFromSlice image range.1 (range.2 - range.1) done.2.device.bytes

/-! ## Verification -/

def addCount (count more : Nat) : Nat := min (count + more) 255

def espPaths : List String :=
  ["EFI/BOOT/BOOTX64.EFI", "boot/limine-bios.sys", "boot/nexos-kernel", "limine.conf"]

def countEspFile (fat : FatLibrary) (count : Nat) (path : String) :
    Exec fat.Volume InstallError Nat := do
  let _ ← fatCall fat ("installed EFI file " ++ path ++ " is missing") (.openFile path)
  let bytes ← fatCall fat ("cannot read installed EFI file " ++ path) (.read path 1)
  Exec.ensure (bytes ≠ 0) (.emptyEspFile path)
  pure (addCount count 1)

def verifyEsp (fat : FatLibrary) (image : List UInt8) (partition : PartitionReport) :
    Result InstallError Nat := do
  let range ← onDisk (partitionRange image.length partition.firstLba partition.sectorCount)
  let volume ← (fat.new (slice image range.1 (range.2 - range.1))).mapError
    (.fat "cannot verify EFI filesystem")
  let done ← (espPaths.foldlM (countEspFile fat) 0).finish volume
  .ok done.1

def rootPaths : List String :=
  ["/system/kernel-location", "/etc/nexos-release", "/etc/fstab", "/system/install-manifest"]

def countRootFile (count : Nat) (path : String) : RootCall Nat := do
  let stat ← (NexFs.stat path).mapError (.nexfs ("installed root file " ++ path ++ " is missing"))
  Exec.ensure (¬(stat.kind ≠ .regular ∨ stat.size = 0)) (.invalidRootFile path)
  pure (addCount count 1)

def countRootFiles : RootCall Nat := do
  let count ← rootPaths.foldlM countRootFile 0
  let _ ← NexFs.unmount.mapError (.nexfs "cannot finish root verification")
  pure count

def verifyRoot (image : List UInt8) (partition : PartitionReport) :
    Result InstallError (Guid × Nat) := do
  let range ← onDisk (partitionRange image.length partition.firstLba partition.sectorCount)
  let checked ← (Exec.mapError (.nexfs "installed root check failed") checkDetailed).finish
    (diskOf (slice image range.1 (range.2 - range.1)))
  let mounted ← (Exec.mapError (.nexfs "cannot mount installed root") NexFs.mount).finish checked.2
  let counted ← countRootFiles.finish mounted.1
  .ok (checked.1.superblock.uuid, counted.1)

def verifySelected (fat : FatLibrary) (image : List UInt8) (path : FilePath)
    (esp root : PartitionReport) : Result InstallError InstallReport := do
  let espFiles ← verifyEsp fat image esp
  let rootResult ← verifyRoot image root
  .ok { target := path, mode := "verified", espPartition := esp.index, rootPartition := root.index,
        rootUuid := rootResult.1, kernelBytes := 0,
        verifiedFiles := addCount espFiles rootResult.2, biosStageInstalled := false }

def verifyBytes (fat : FatLibrary) (image : List UInt8) (path : FilePath)
    (espIndex rootIndex : Nat) : Result InstallError InstallReport := do
  let report ← onDisk (inspectBytes image)
  let esp ← findIndex report espIndex
  let root ← findIndex report rootIndex
  verifySelected fat image path esp root

def verifySelectedPartitions (fat : FatLibrary) (path : FilePath) (espIndex rootIndex : Nat) :
    InstallCall InstallReport := do
  let image ← (Files.readImage path).mapError .host
  Exec.lift (verifyBytes fat image path espIndex rootIndex)

/-! ## The installation -/

def validateRequest (request : InstallRequest) : InstallCall Unit := do
  Exec.lift ((validateImagePath request.target).mapError .host)
  Exec.ensure (¬(request.target = request.kernel ∨
    request.target.startsWith request.limineDirectory = true)) .sourceFile
  let kernel ← (Directory.get request.kernel).mapError (.io "cannot inspect kernel")
  Exec.ensure (kernel.isFile = true) .kernelNotRegular
  let limine ← (Directory.get request.limineDirectory).mapError
    (.io "cannot inspect Limine directory")
  Exec.ensure (limine = .directory) .limineNotDirectory
  match request.mode with
  | .manual _ _ _ => do
    let present ← Directory.contains request.target
    Exec.ensure (present = true) .needsImage
  | .guided _ => pure ()

structure Payload where
  kernel : List UInt8
  bootX64 : List UInt8
  biosSys : List UInt8

def readPayload (request : InstallRequest) : InstallCall Payload := do
  let kernel ← (Files.read request.kernel).mapError
    (.io ("cannot read kernel " ++ String.ofList request.kernel.text))
  let bootX64 ← readRequired (request.limineDirectory.join "BOOTX64.EFI".toList)
  let biosSys ← readRequired (request.limineDirectory.join "limine-bios.sys".toList)
  pure { kernel := kernel, bootX64 := bootX64, biosSys := biosSys }
where
  readRequired (path : FilePath) : InstallCall (List UInt8) :=
    (Files.read path).mapError (.io ("cannot read " ++ String.ofList path.text))

structure Selection where
  image : List UInt8
  report : DiskReport
  espIndex : Nat
  rootIndex : Nat
  counter : Nat

def guidedSelection (s : Surroundings) (sizeMib : Nat) (mode : GuidedMode) :
    Result InstallError Selection := do
  let image ← createBlankBytes sizeMib
  let layout ← guidedLayout s.source s.counter sizeMib mode
  let image ← onDisk (writeLayout image layout.1)
  let report ← onDisk (inspectBytes image)
  let esp ← findRole report .efiSystem
  let root ← findRole report .nexFs
  .ok { image := image, report := report, espIndex := esp.index, rootIndex := root.index,
        counter := layout.2 }

def manualSelection (s : Surroundings) (image : List UInt8) (espPartition rootPartition : Nat) :
    Result InstallError Selection := do
  let report ← onDisk (inspectBytes image)
  let esp ← findIndex report espPartition
  let root ← findIndex report rootPartition
  validateSelectedPartitions esp root
  .ok { image := image, report := report, espIndex := espPartition, rootIndex := rootPartition,
        counter := s.counter }

def select (s : Surroundings) (request : InstallRequest) : InstallCall Selection :=
  match request.mode with
  | .guided mode => Exec.lift (guidedSelection s request.sizeMib mode)
  | .manual espPartition rootPartition _ => do
    Exec.ensure (espPartition ≠ rootPartition) .samePartitions
    let image ← (Files.readImage request.target).mapError .host
    Exec.lift (manualSelection s image espPartition rootPartition)

def buildImage (s : Surroundings) (selection : Selection) (payload : Payload) (rootUuid : Guid)
    (mode : InstallMode) : Result InstallError (List UInt8) := do
  let esp ← findIndex selection.report selection.espIndex
  let root ← findIndex selection.report selection.rootIndex
  validateSelectedPartitions esp root
  let image ← formatPartition s.fat selection.image esp .fat32
    (generateGuid s.source (selection.counter + 1))
  let image ← populateEsp s.fat image esp payload.kernel payload.bootX64 payload.biosSys
  let image ← formatPartition s.fat image root .nexFs rootUuid
  populateRoot image root
    (rootFiles payload.kernel rootUuid selection.espIndex selection.rootIndex mode)

def isFile (path : FilePath) : InstallCall Bool := fun d =>
  (.ok (!d.faults d.calls && ((d.listing path).map FileEntry.isFile).getD false),
    d.after d.listing)

def findTool : List FilePath → InstallCall FilePath
  | [] => Exec.fail .noLimineTool
  | candidate :: rest => do
    let found ← isFile candidate
    if found = true then pure candidate else findTool rest

def limineCandidates (s : Surroundings) (limineDirectory : FilePath) : List FilePath :=
  let windowsTool := (limineDirectory.join "limine-tool-windows-x86".toList).join
    "limine.exe".toList
  let windowsFallback := limineDirectory.join "limine.exe".toList
  let unixTool := limineDirectory.join "limine".toList
  if s.windows then [windowsTool, windowsFallback, unixTool]
  else [unixTool, windowsFallback, windowsTool]

def installLimineBios (s : Surroundings) (image limineDirectory : FilePath) : InstallCall Unit := do
  let tool ← findTool (limineCandidates s limineDirectory)
  let run ← (Directory.call fun l =>
    .ok (s.limine tool image l, Function.update l image (s.limine tool image l).left)).mapError
      (.io "cannot start Limine installer")
  Exec.ensure (run.success = true) (.limineFailed run.output)

def InstallRequest.biosStage (request : InstallRequest) : Bool :=
  request.mode.hasBios && request.installBiosStage

def biosStep (s : Surroundings) (request : InstallRequest) (temporary : FilePath) :
    InstallCall Unit :=
  if request.biosStage = true then installLimineBios s temporary request.limineDirectory
  else pure ()

/-- The steps on the prepared file, whose errors leave the target unchanged. -/
def prepare (s : Surroundings) (request : InstallRequest) (temporary : FilePath)
    (selection : Selection) : InstallCall InstallReport := do
  biosStep s request temporary
  verifySelectedPartitions s.fat temporary selection.espIndex selection.rootIndex

structure Staged where
  temporary : FilePath
  espIndex : Nat
  rootIndex : Nat
  rootUuid : Guid
  kernelBytes : Nat

/-- The installation up to the verified file beside the target. -/
def stage (s : Surroundings) (request : InstallRequest) : InstallCall Staged := do
  validateRequest request
  Exec.lift ((requireConfirmation request.target request.yes request.confirmation).mapError .host)
  let payload ← readPayload request
  let selection ← select s request
  let rootUuid := generateGuid s.source selection.counter
  let image ← Exec.lift (buildImage s selection payload rootUuid request.mode)
  let temporary ← (Files.preparedPath request.target).mapError .host
  (Files.writePrepared temporary image).mapError .host
  match ← (prepare s request temporary selection).outcome with
  | .error error =>
    let _ ← (Directory.remove temporary).outcome
    Exec.fail (.preparation error)
  | .ok verified =>
    if verified.espPartition ≠ selection.espIndex ∨ verified.rootPartition ≠ selection.rootIndex then
      let _ ← (Directory.remove temporary).outcome
      Exec.fail .selectionChanged
    else
      pure { temporary := temporary, espIndex := selection.espIndex,
             rootIndex := selection.rootIndex, rootUuid := rootUuid,
             kernelBytes := payload.kernel.length }

def stageAndCommit (s : Surroundings) (request : InstallRequest) : InstallCall Staged := do
  let staged ← stage s request
  (Files.commitPrepared request.target staged.temporary).mapError .host
  pure staged

def finalVerification (s : Surroundings) (request : InstallRequest) (staged : Staged) :
    InstallCall InstallReport := do
  let verified ← verifySelectedPartitions s.fat request.target staged.espIndex staged.rootIndex
  Exec.ensure (verified.rootUuid = staged.rootUuid) .rootUuidChanged
  pure { target := request.target, mode := request.mode.name, espPartition := staged.espIndex,
         rootPartition := staged.rootIndex, rootUuid := staged.rootUuid,
         kernelBytes := staged.kernelBytes, verifiedFiles := verified.verifiedFiles,
         biosStageInstalled := request.biosStage }

def install (s : Surroundings) (request : InstallRequest) : InstallCall InstallReport := do
  let staged ← stageAndCommit s request
  finalVerification s request staged

end NexOs.Host
