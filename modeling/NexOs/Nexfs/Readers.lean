import NexOs.Nexfs.Session

/-! The operations that read. They change nothing, what they return is what
stands in the tree, and the checker reads the same bytes. -/
namespace NexOs.Nexfs
open Bytes Storage Function NamedTree NexFs Exec

def statOf (n : Nat) (I : Inode) : FileStat where
  inode := n
  kind := I.kind
  permissions := I.permissions
  size := I.size
  created := I.created
  modified := I.modified
  blocks := I.blockCount

/-- The bytes from `offset` on, as many as `output` can take, and how many they are. -/
def readRange (content : List UInt8) (offset : Nat) (output : List UInt8) : Nat × List UInt8 :=
  let count := min output.length (content.length - offset)
  (count, slice content offset count ++ output.drop count)

/-- An error that says that the path names nothing of the kind asked for. -/
def ReadError (e : FsError) : Prop := PathError e ∨ e = .isDirectory

section
variable {fs : NexFs} (h : Consistent fs) {path : String} {n offset : Nat} {output : List UInt8}
include h

theorem Consistent.stat_found (hf : follow (childOf fs.view.flat) 1 (pathNames path) = some n)
    (hI : fs.view.inode n = some I) : stat path fs = (.ok (statOf n I), fs) := by
  rw [stat, bind_of_ok (h.resolve_of_follow hf), bind_of_ok (h.readInode_run hI)]
  rfl

theorem Consistent.stat_cases :
    (∃ e, ReadError e ∧ stat path fs = (Result.fail e, fs)) ∨
    ∃ n I, follow (childOf fs.view.flat) 1 (pathNames path) = some n ∧ fs.view.inode n = some I ∧
      stat path fs = (.ok (statOf n I), fs) := by
  rcases h.file_cases with ⟨e, he, hres⟩ | ⟨n, I, hres, hI, hf⟩
  · exact .inl ⟨e, .inl he, bind_of_error hres⟩
  · exact .inr ⟨n, I, hf, hI, h.stat_found hf hI⟩

theorem Consistent.readDir_cases :
    (∃ e, ReadError e ∧ readDir path fs = (Result.fail e, fs)) ∨
    ∃ n I, follow (childOf fs.view.flat) 1 (pathNames path) = some n ∧ fs.view.inode n = some I ∧
      I.kind = .directory ∧ readDir path fs = (.ok (entriesAt fs.view.flat n), fs) := by
  rcases h.file_cases with ⟨e, he, hres⟩ | ⟨n, I, hres, hI, hf⟩
  · exact .inl ⟨e, .inl he, bind_of_error hres⟩
  rw [readDir, bind_of_ok hres, bind_of_ok (h.readInode_run hI)]
  cases hk : I.kind with
  | regular => exact .inl ⟨.notDirectory, .inl (.inr (.inl rfl)), readDirectory_file hk⟩
  | directory => exact .inr ⟨n, I, hf, hI, hk, h.readDirectory_run hI hk⟩

theorem Consistent.readInodeData_run (hI : fs.view.inode n = some I)
    (offset : Nat) (output : List UInt8) :
    readInodeData I offset output fs = (.ok (readRange (fs.view.content I) offset output), fs) := by
  rw [NexFs.readInodeData_run h.toMounted (h.owned.intact n I hI)
    (size_le_of_count (h.owned.count n I hI)), readRange, h.length_content hI]

theorem Consistent.readFile_cases :
    (∃ e, ReadError e ∧ readFile path offset output fs = (Result.fail e, fs)) ∨
    ∃ n I, follow (childOf fs.view.flat) 1 (pathNames path) = some n ∧ fs.view.inode n = some I ∧
      I.kind = .regular ∧
      readFile path offset output fs = (.ok (readRange (fs.view.content I) offset output), fs) := by
  rcases h.file_cases with ⟨e, he, hres⟩ | ⟨n, I, hres, hI, hf⟩
  · exact .inl ⟨e, .inl he, bind_of_error hres⟩
  rw [readFile, bind_of_ok hres, bind_of_ok (h.readInode_run hI)]
  by_cases hk : I.kind = .regular
  · rw [ensure_bind_pos hk]
    exact .inr ⟨n, I, hf, hI, hk, h.readInodeData_run hI offset output⟩
  · exact .inl ⟨.isDirectory, .inr rfl, ensure_bind_neg hk ..⟩

theorem Consistent.mem_entriesAt (hf : follow (childOf fs.view.flat) 1 P = some n)
    (name : String) (kind : FileType) :
    (∃ e ∈ entriesAt fs.view.flat n, e.name = name ∧ e.kind = kind) ↔
      ∃ node, pathsOf fs.view.flat (P ++ [name]) = some node ∧ node.kind = kind := by
  rw [pathsOf, follow_concat_of_some hf]
  constructor
  · rintro ⟨e, he, rfl, rfl⟩
    obtain ⟨bytes, ht⟩ := h.linked.target n e he
    refine ⟨nodeOf (e.kind, bytes), ?_, by cases e.kind <;> rfl⟩
    rw [h.linked.childOf_eq_some.mpr ⟨e, he, rfl, rfl⟩, Option.bind_some, ht, Option.map_some]
  · rintro ⟨node, hnode, rfl⟩
    obtain ⟨m, hm, hnode⟩ := Option.bind_eq_some_iff.mp hnode
    obtain ⟨e, he, rfl, rfl⟩ := h.linked.childOf_eq_some.mp hm
    obtain ⟨bytes, ht⟩ := h.linked.target n e he
    rw [ht, Option.map_some, Option.some_inj] at hnode
    exact ⟨e, he, rfl, by rw [← hnode]; cases e.kind <;> rfl⟩

end

/-- The volume refines the tree it holds: an operation that succeeds makes its step
there, and what is read is what stands there. -/
theorem volume_refines_tree (fs : NexFs) (h : Consistent fs) :
    (∀ op fs', op.run fs = (.ok (), fs') →
      ∃ h' : Consistent fs', TreeStep h.tree.node op h'.tree.node) ∧
    (∀ path offset output r fs', readFile path offset output fs = (.ok r, fs') → fs' = fs ∧
      ∃ content, h.tree.node (pathNames path) = some (.file content) ∧
        r = readRange content offset output) ∧
    (∀ path r fs', stat path fs = (.ok r, fs') → fs' = fs ∧
      ∃ node, h.tree.node (pathNames path) = some node ∧ r.kind = node.kind ∧
        ∀ content, node = .file content → r.size = content.length) ∧
    ∀ path r fs', readDir path fs = (.ok r, fs') → fs' = fs ∧
      h.tree.node (pathNames path) = some .directory ∧ (r.map DirectoryEntry.name).Nodup ∧
      ∀ name kind, (∃ e ∈ r, e.name = name ∧ e.kind = kind) ↔
        ∃ node, h.tree.node (pathNames path ++ [name]) = some node ∧ node.kind = kind := by
  refine ⟨?_, ?_, ?_, ?_⟩
  · intro op fs' hrun
    obtain ⟨-, h', hstep⟩ := Op.run_ok h hrun
    exact ⟨h', hstep⟩
  · intro path offset output r fs' hrun
    rcases h.readFile_cases with ⟨e, -, hfail⟩ | ⟨n, I, hf, hI, hk, hok⟩
    · rw [hfail] at hrun
      cases hrun
    · rw [hok] at hrun
      cases hrun
      refine ⟨rfl, fs.view.content I, ?_, rfl⟩
      exact (pathsOf_of_follow hf).trans (by rw [View.flat_of_inode hI, hk]; rfl)
  · intro path r fs' hrun
    rcases h.stat_cases with ⟨e, -, hfail⟩ | ⟨n, I, hf, hI, hok⟩
    · rw [hfail] at hrun
      cases hrun
    · rw [hok] at hrun
      cases hrun
      refine ⟨rfl, nodeOf (I.kind, fs.view.content I), ?_, ?_, ?_⟩
      · exact (pathsOf_of_follow hf).trans (by rw [View.flat_of_inode hI]; rfl)
      · cases hk : I.kind <;> simp [statOf, nodeOf, Node.kind, hk]
      · intro content hnode
        cases hk : I.kind with
        | directory => simp [hk, nodeOf] at hnode
        | regular =>
          rw [hk] at hnode
          cases hnode
          exact (h.length_content hI).symm
  · intro path r fs' hrun
    rcases h.readDir_cases with ⟨e, -, hfail⟩ | ⟨n, I, hf, hI, hk, hok⟩
    · rw [hfail] at hrun
      cases hrun
    · rw [hok] at hrun
      cases hrun
      refine ⟨rfl, ?_, h.linked.names n, fun name kind => h.mem_entriesAt hf name kind⟩
      exact (pathsOf_of_follow hf).trans (by rw [View.flat_of_inode hI, hk]; rfl)

/-- The smallest volume, just mounted, as a tree. -/
theorem volume_refines_tree_smallest : ∃ sb, ∃ h : Consistent (mountedFrom smallDisk sb),
    ∀ op fs', op.run (mountedFrom smallDisk sb) = (.ok (), fs') →
      ∃ h' : Consistent fs', TreeStep h.tree.node op h'.tree.node := by
  have h := mountedFrom_consistent smallDisk_accepted smallDisk_wellFormed
  exact ⟨_, h, (volume_refines_tree _ h).1⟩

end NexOs.Nexfs
