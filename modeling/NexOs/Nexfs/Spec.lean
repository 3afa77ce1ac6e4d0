import Mathlib.Data.Set.Finite.Basic
import NexOs.Nexfs.Layout

/-! What a NexFS volume is for: a finite tree of directories and files, and the
change each operation makes to it. Nothing here mentions blocks, inodes or
bitmaps. -/
namespace NexOs.Nexfs
open List Bytes Function

inductive Node where
  | file (content : List UInt8)
  | directory
  deriving DecidableEq

def Node.kind : Node → FileType
  | file _ => .regular
  | directory => .directory

/-- What stands at each path, the root being the empty path. -/
abbrev Paths := List String → Option Node

/-- The largest file: 12 direct and 512 indirect blocks of 4096 bytes. -/
def maxFileSize : Nat := 524 * 4096

structure Tree where
  node : Paths
  root : node [] = some .directory
  parent : ∀ path name, node (path ++ [name]) ≠ none → node path = some .directory
  name_valid : ∀ path name, node (path ++ [name]) ≠ none → ValidName name
  bounded : ∀ path content, node path = some (.file content) → content.length ≤ maxFileSize
  finite : {path | node path ≠ none}.Finite

/-- The names on a path. Empty pieces and `.` say nothing. -/
def pathNames (path : String) : List String :=
  ((path.toList.splitOn '/').map String.ofList).filter fun name => name ≠ "" ∧ name ≠ "."

/-- `old` extended by zeros up to `offset` and overwritten there by `data`. -/
def overwrite (old : List UInt8) (offset : Nat) (data : List UInt8) : List UInt8 :=
  splice (old ++ List.replicate (offset - old.length) 0) offset data

/-- `old` cut or extended by zeros to `size` bytes. -/
def resize (old : List UInt8) (size : Nat) : List UInt8 :=
  old.take size ++ List.replicate (size - old.length) 0

/-- The subtree at `source` stands at `destination` instead. -/
def relocate (T : Paths) (source destination : List String) : Paths := fun path =>
  if destination <+: path then T (source ++ path.drop destination.length)
  else if source <+: path then none
  else T path

/-- The operations that change a volume. -/
inductive Op where
  | createFile (path : String)
  | createDir (path : String)
  | writeFile (path : String) (offset : Nat) (data : List UInt8)
  | truncate (path : String) (newSize : Nat)
  | remove (path : String)
  | rename (source destination : String)

def Vacant (T : Paths) (path : List String) : Prop :=
  T path = none ∧ ∃ parent name, path = parent ++ [name] ∧ T parent = some .directory

/-- The tree `T` becomes `T'` when the operation succeeds. -/
inductive TreeStep (T : Paths) : Op → Paths → Prop
  | createFile {path : String} (vacant : Vacant T (pathNames path)) :
      TreeStep T (.createFile path) (update T (pathNames path) (some (.file [])))
  | createDir {path : String} (vacant : Vacant T (pathNames path)) :
      TreeStep T (.createDir path) (update T (pathNames path) (some .directory))
  | writeFile {path : String} {offset : Nat} {data old : List UInt8}
      (file : T (pathNames path) = some (.file old)) :
      TreeStep T (.writeFile path offset data)
        (update T (pathNames path) (some (.file (overwrite old offset data))))
  | truncate {path : String} {newSize : Nat} {old : List UInt8}
      (file : T (pathNames path) = some (.file old)) :
      TreeStep T (.truncate path newSize)
        (update T (pathNames path) (some (.file (resize old newSize))))
  | remove {path : String} (found : T (pathNames path) ≠ none) (named : pathNames path ≠ [])
      (empty : ∀ name, T (pathNames path ++ [name]) = none) :
      TreeStep T (.remove path) (update T (pathNames path) none)
  | rename {source destination : String} (found : T (pathNames source) ≠ none)
      (named : pathNames source ≠ []) (vacant : Vacant T (pathNames destination))
      (outside : ¬pathNames source <+: pathNames destination) :
      TreeStep T (.rename source destination)
        (relocate T (pathNames source) (pathNames destination))

variable {old data : List UInt8} {offset size : Nat}

theorem overwrite_inside (h : offset ≤ old.length) :
    overwrite old offset data = splice old offset data := by
  rw [overwrite, Nat.sub_eq_zero_of_le h, replicate_zero, append_nil]

theorem overwrite_behind (h : old.length ≤ offset) :
    overwrite old offset data = old ++ replicate (offset - old.length) 0 ++ data := by
  have hlen : (old ++ replicate (offset - old.length) (0 : UInt8)).length = offset := by
    rw [length_append, length_replicate]
    omega
  rw [overwrite, splice, take_of_length_le hlen.le, drop_of_length_le (by omega), append_nil]

theorem length_overwrite : (overwrite old offset data).length =
    max old.length (offset + data.length) := by
  simp only [overwrite, splice, length_append, length_take, length_drop, length_replicate]
  omega

theorem length_resize : (resize old size).length = size := by
  simp only [resize, length_append, length_take, length_replicate]
  omega

end NexOs.Nexfs
