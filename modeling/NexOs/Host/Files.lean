import NexOs.Host.Disk
import NexOs.Lib.Directory

/-! The image files of the host tools: which paths they accept, how an image is
read, and how a prepared image takes the place of the target. -/
namespace NexOs.Host

/-- A path in its normal form. The last component is the file name, which a path that
ends in `..` does not have. -/
structure FilePath where
  parents : List (List Char)
  fileName : Option (List Char)
  deriving DecidableEq

namespace FilePath

def components (path : FilePath) : List (List Char) := path.parents ++ path.fileName.toList

/-- `path.as_os_str().to_string_lossy()`; a path from the root has an empty first
component. -/
def text (path : FilePath) : List Char := ['/'].intercalate path.components

def join (path : FilePath) (name : List Char) : FilePath where
  parents := path.components
  fileName := some name

/-- `path.starts_with(other)` -/
def startsWith (path other : FilePath) : Bool := other.components.isPrefixOf path.components

def ancestors (path : FilePath) : List FilePath :=
  path.parents.inits.tail.map fun c => { parents := c.dropLast, fileName := c.getLast? }

end FilePath

inductive FileEntry where
  | file (bytes : List UInt8)
  | directory
  /-- A symbolic link or a device. -/
  | other
  deriving DecidableEq

def FileEntry.isFile : FileEntry → Bool
  | .file _ => true
  | _ => false

inductive HostError where
  | disk (error : DiskError)
  | io (error : IoError)
  | rawPath
  | emptyPath
  | unconfirmed
  | mismatch (expected : List Char)
  | noFileName
  | stale
  | existingTarget
  | notRegular
  | cannotCommit (error : IoError)
  | verificationFailed (error : HostError)
  | preparedFailed (error : HostError)

abbrev HostFiles := Directory FilePath FileEntry

abbrev HostCall := Exec HostFiles HostError

/-- `c.is_whitespace()` -/
def isWhitespace (c : Char) : Bool :=
  let n := c.toNat
  (9 ≤ n && n ≤ 13) || n == 0x20 || n == 0x85 || n == 0xa0 || n == 0x1680 ||
    (0x2000 ≤ n && n ≤ 0x200a) || n == 0x2028 || n == 0x2029 || n == 0x202f || n == 0x205f ||
    n == 0x3000

def validateImagePath (path : FilePath) : Result HostError Unit := do
  let text := path.text
  let lower := text.map Char.toLower
  Result.ensure (¬("\\\\.\\".toList.isPrefixOf lower = true ∨
    "\\\\?\\".toList.isPrefixOf lower = true ∨ lower = "/dev".toList ∨
    "/dev/".toList.isPrefixOf lower = true)) .rawPath
  Result.ensure (¬text.all isWhitespace = true) .emptyPath

def requireConfirmation (target : FilePath) (yes : Bool) (confirmation : List Char) :
    Result HostError Unit := do
  Result.ensure (yes = true) .unconfirmed
  Result.ensure (confirmation = target.text) (.mismatch target.text)

namespace Files

/-- `fs::read(path)` -/
def read (path : FilePath) : Exec HostFiles IoError (List UInt8) :=
  Directory.call fun l => match l path with
    | some (.file bytes) => .ok (bytes, l)
    | some .directory => .error .isADirectory
    | _ => .error .notFound

/-- `fs::create_dir_all` of the directory that a path is in. -/
def createDirAll (path : FilePath) : Exec HostFiles IoError Unit :=
  Directory.call fun l =>
    if path.ancestors.any fun name => ((l name).map FileEntry.isFile).getD false then
      .error .notADirectory
    else
      .ok ((), fun name =>
        if l name = none ∧ name ∈ path.ancestors then some .directory else l name)

def createParent (path : FilePath) : HostCall Unit :=
  if path.parents = [] then pure () else (createDirAll path).mapError .io

def validateExistingImage (path : FilePath) : HostCall Unit := do
  Exec.lift (validateImagePath path)
  let metadata ← (Directory.get path).mapError .io
  Exec.ensure (metadata.isFile = true) .notRegular

def readImage (path : FilePath) : HostCall (List UInt8) := do
  validateExistingImage path
  (read path).mapError .io

def inspectImage (path : FilePath) : HostCall DiskReport := do
  validateExistingImage path
  let bytes ← (read path).mapError .io
  Exec.mapError .disk (Exec.lift (inspectBytes bytes))

def siblingPath (path : FilePath) (suffix : String) : Result HostError FilePath :=
  match path.fileName with
  | some name => .ok { path with fileName := some (name ++ '.' :: suffix.toList) }
  | none => Result.fail .noFileName

/-- `first.exists() || second.exists()` -/
def eitherExists (first second : FilePath) : HostCall Bool := do
  let present ← Directory.contains first
  if present = true then pure true else Directory.contains second

def preparedPath (path : FilePath) : HostCall FilePath := do
  let temporary ← Exec.lift (siblingPath path "nexos-new")
  let backup ← Exec.lift (siblingPath path "nexos-backup")
  let stale ← eitherExists temporary backup
  Exec.ensure (stale = false) .stale
  pure temporary

def writeNew (path : FilePath) (bytes : List UInt8) : HostCall Unit := do
  (Directory.create path (.file [])).mapError .io
  (Directory.replace path (.file bytes)).mapError .io
  Directory.sync.mapError .io

def writePrepared (path : FilePath) (bytes : List UInt8) : HostCall Unit := do
  createParent path
  writeNew path bytes

/-- The end of `commit_prepared`, where the target holds the prepared image. -/
def settle (path backup : FilePath) : HostCall Unit := do
  match ← (inspectImage path).outcome with
  | .error error =>
    let failed ← Exec.lift (siblingPath path "nexos-failed")
    let _ ← (Directory.rename path failed).outcome
    let _ ← (Directory.rename backup path).outcome
    Exec.fail (.verificationFailed error)
  | .ok _ => (Directory.remove backup).mapError .io

/-- `commit_prepared` from where the original has its backup name. -/
def exchange (path temporary backup : FilePath) : HostCall Unit := do
  match ← (Directory.rename temporary path).outcome with
  | .error error =>
    let _ ← (Directory.rename backup path).outcome
    Exec.fail (.cannotCommit error)
  | .ok () => settle path backup

def commitPrepared (path temporary : FilePath) : HostCall Unit := do
  let backup ← Exec.lift (siblingPath path "nexos-backup")
  let present ← Directory.contains path
  if present = false then
    (Directory.rename temporary path).mapError .io
  else
    let metadata ← (Directory.get path).mapError .io
    if metadata.isFile = true then
      (Directory.rename path backup).mapError .io
      exchange path temporary backup
    else
      let _ ← (Directory.remove temporary).outcome
      Exec.fail .existingTarget

def writeTransactional (path : FilePath) (bytes : List UInt8) : HostCall Unit := do
  Exec.lift (validateImagePath path)
  createParent path
  let temporary ← preparedPath path
  writePrepared temporary bytes
  match ← (inspectImage temporary).outcome with
  | .error error =>
    let _ ← (Directory.remove temporary).outcome
    Exec.fail (.preparedFailed error)
  | .ok _ => commitPrepared path temporary

end Files

end NexOs.Host
