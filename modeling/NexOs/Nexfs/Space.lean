import NexOs.Nexfs.Session

/-! When an operation runs out of space: the free blocks are fewer than those
that the file or the directory has to take on. -/
namespace NexOs.Nexfs
open Storage NamedTree NexFs

def Lacks (fs : NexFs) (old new : Nat) : Prop :=
  (fs.view.freeBlocks fs.superblock).card < footprint new - footprint old

/-- The same for a directory of `count` entries that is to get one more. -/
def LacksEntry (fs : NexFs) (count : Nat) : Prop :=
  Lacks fs (divCeil count 16) (divCeil (count + 1) 16)

section
variable {fs : NexFs} {n d count : Nat} {I : Inode}

theorem short_iff : Short fs I count ↔ Lacks fs I.blockCount count := by
  rw [Short, Lacks]
  omega

theorem Consistent.short_size (h : Consistent fs) (hI : fs.view.inode n = some I) (stop : Nat) :
    Short fs I (max I.blockCount (dataBlocksForSize stop)) ↔
      Lacks fs (dataBlocksForSize I.size) (dataBlocksForSize (max I.size stop)) := by
  rw [short_iff, h.owned.count n I hI, dataBlocksForSize_max]

theorem dataBlocksForSize_entries : dataBlocksForSize (256 * count) = divCeil count 16 := by
  simp only [dataBlocksForSize, divCeil, blockSize]
  omega

theorem count_le_of_size (h : dirEntrySize * count ≤ maxFileSize) : count ≤ 8384 := by
  simp only [dirEntrySize, maxFileSize] at h
  omega

theorem Consistent.short_entries (h : Consistent fs) (hI : fs.view.inode d = some I)
    (hk : I.kind = .directory) :
    Short fs I (dataBlocksForSize (256 * ((entriesAt fs.view.flat d).length + 1))) ↔
      LacksEntry fs (entriesAt fs.view.flat d).length := by
  rw [short_iff, h.owned.count d I hI, h.size_eq hI hk, dataBlocksForSize_entries,
    dataBlocksForSize_entries, LacksEntry]

theorem freeInode_eq_none :
    fs.freeInode = none ↔ ∀ m, 2 ≤ m → m < fs.superblock.slots → fs.view.inodeBit m = true := by
  simp only [freeInode, List.find?_eq_none, List.mem_range'_1, Bool.not_eq_true', Bool.not_eq_false]
  constructor
  · intro h m hm hlt
    exact h m ⟨hm, by omega⟩
  · rintro h m ⟨hm, hlt⟩
    exact h m hm (by omega)

end

section
variable {fs : NexFs} {path source destination name a b : String} {n d d₁ d₂ : Nat}
  {I I₁ I₂ : Inode} {e : DirectoryEntry} (h : Consistent fs)
include h

section
variable (hf : follow (childOf fs.view.flat) 1 (pathNames path) = some n)
  (hI : fs.view.inode n = some I) (hk : I.kind = .regular)
include hf hI hk

theorem Consistent.writeFile_noSpace {input : List UInt8}
    (hend : offset + input.length ≤ maxFileSize) :
    (writeFile path offset input fs).1 = Result.fail .noSpace ↔
      Lacks fs (dataBlocksForSize I.size)
        (dataBlocksForSize (max I.size (offset + input.length))) := by
  rw [← h.short_size hI]
  rcases h.writeFile_found hf hI hk hend with ⟨hroom, fs', hrun, -⟩ | ⟨hshort, fs', hrun⟩
  · simp [hrun, hroom, Result.fail]
  · simp [hrun, hshort]

theorem Consistent.truncate_noSpace (hend : newSize ≤ maxFileSize) :
    (truncate path newSize fs).1 = Result.fail .noSpace ↔
      Lacks fs (dataBlocksForSize I.size) (dataBlocksForSize (max I.size newSize)) := by
  rw [← h.short_size hI]
  rcases h.truncate_found hf hI hk hend with ⟨hroom, fs', hrun, -⟩ | ⟨hshort, fs', hrun⟩
  · simp [hrun, hroom, Result.fail]
  · simp [hrun, hshort]

end

theorem Consistent.create_noSpace (hN : Names fs path d I name)
    (hfresh : lookup (entriesAt fs.view.flat d) name = none)
    (hmany : dirEntrySize * ((entriesAt fs.view.flat d).length + 1) ≤ maxFileSize) (kind : FileType)
    (hp : permissions < 2 ^ 16) :
    (create path kind permissions fs).1 = Result.fail .noSpace ↔
      (∀ m, 2 ≤ m → m < fs.superblock.slots → fs.view.inodeBit m = true) ∨
        LacksEntry fs (entriesAt fs.view.flat d).length := by
  rw [← freeInode_eq_none, ← h.short_entries hN.inode hN.kind]
  rcases h.create_named hN hfresh kind hp with ⟨hfree, hrun⟩ |
    ⟨m, hfree, ⟨hroom, fs', hrun, -⟩ | ⟨hroom, x, fs', hrun, hx⟩⟩
  · simp [hrun, hfree]
  · have hshort := (not_or.mp hroom).2
    simp [hrun, hfree, hshort, Result.fail]
  · have hle := count_le_of_size hmany
    have hshort := hroom.resolve_left (Nat.not_lt.mpr hle)
    simp [hrun, hx hle, hshort]

theorem Consistent.names_unique {name' : String}
    (hN : Names fs path d I name) (hN' : Names fs path d' I' name') : d' = d ∧ I' = I := by
  rcases h.parent_cases with ⟨_, -, -, hno⟩ |
    ⟨_, _, -, -, ⟨_, -, -, hno⟩ | ⟨_, _, -, -, -, honly⟩⟩
  · exact absurd hN (hno d I name)
  · exact absurd hN (hno d I name)
  · obtain ⟨rfl, rfl, -⟩ := honly d I name hN
    obtain ⟨rfl, rfl, -⟩ := honly d' I' name' hN'
    exact ⟨rfl, rfl⟩

/-- `rename` is out of space only where it adds an entry to another directory. -/
theorem Consistent.rename_noSpace (hN₁ : Names fs source d₁ I₁ a)
    (hN₂ : Names fs destination d₂ I₂ b)
    (hrun : (rename source destination fs).1 = Result.fail .noSpace) : Full fs d₁ d₂ I₂ := by
  rcases rename_run h source destination with ⟨x, hx, hrun', -⟩ |
    ⟨d₁', I₁', d₂', I₂', e, b', hR, ⟨-, F', fs', hrun', -⟩ | ⟨hfull, -⟩⟩
  · rw [hrun'] at hrun
    simp [Result.fail, hx] at hrun
  · rw [hrun'] at hrun
    cases hrun
  · obtain ⟨rfl, rfl⟩ := h.names_unique hN₁ hR.source
    obtain ⟨rfl, rfl⟩ := h.names_unique hN₂ hR.destination
    exact hfull

theorem Consistent.rename_across_noSpace (hR : Renames fs source destination d₁ I₁ d₂ I₂ e b)
    (hne : d₁ ≠ d₂)
    (hmany : dirEntrySize * ((entriesAt fs.view.flat d₂).length + 1) ≤ maxFileSize) :
    (rename source destination fs).1 = Result.fail .noSpace ↔
      LacksEntry fs (entriesAt fs.view.flat d₂).length := by
  rw [← h.short_entries hR.destination.inode hR.kind₂]
  refine ⟨fun hrun => (h.rename_noSpace hR.source hR.destination hrun).short, fun hshort => ?_⟩
  have hfull : Full fs d₁ d₂ I₂ := ⟨hne, count_le_of_size hmany, hshort⟩
  rcases rename_run h source destination with ⟨x, -, -, hno⟩ |
    ⟨d₁', I₁', d₂', I₂', e', b', hR', ⟨hno, -⟩ | ⟨-, fs', hrun⟩⟩
  · exact absurd hfull (hno d₁ I₁ d₂ I₂ e b hR)
  · obtain ⟨rfl, rfl⟩ := h.names_unique hR.source hR'.source
    obtain ⟨rfl, rfl⟩ := h.names_unique hR.destination hR'.destination
    exact absurd hfull hno
  · rw [hrun]

theorem Consistent.remove_noSpace (path : String) : (remove path fs).1 ≠ Result.fail .noSpace := by
  rcases remove_run h path with ⟨x, hx, hrun⟩ | ⟨d, I, name, e, rest, fs', -, -, -, -, hrun, -⟩
  · simp [hrun, Result.fail, hx]
  · simp [hrun, Result.fail]

end

/-- Each operation is out of space exactly when what it would add takes more
blocks than are free, or needs an inode and there is none. -/
theorem space_exact (fs : NexFs) (h : Consistent fs) :
    (∀ path n I offset input, follow (childOf fs.view.flat) 1 (pathNames path) = some n →
      fs.view.inode n = some I → I.kind = .regular → offset + input.length ≤ maxFileSize →
      ((writeFile path offset input fs).1 = Result.fail .noSpace ↔
        Lacks fs (dataBlocksForSize I.size)
          (dataBlocksForSize (max I.size (offset + input.length))))) ∧
    (∀ path n I newSize, follow (childOf fs.view.flat) 1 (pathNames path) = some n →
      fs.view.inode n = some I → I.kind = .regular → newSize ≤ maxFileSize →
      ((truncate path newSize fs).1 = Result.fail .noSpace ↔
        Lacks fs (dataBlocksForSize I.size) (dataBlocksForSize (max I.size newSize)))) ∧
    (∀ path kind permissions d I name, permissions < 2 ^ 16 → Names fs path d I name →
      lookup (entriesAt fs.view.flat d) name = none →
      dirEntrySize * ((entriesAt fs.view.flat d).length + 1) ≤ maxFileSize →
      ((create path kind permissions fs).1 = Result.fail .noSpace ↔
        (∀ m, 2 ≤ m → m < fs.superblock.slots → fs.view.inodeBit m = true) ∨
          LacksEntry fs (entriesAt fs.view.flat d).length)) ∧
    (∀ source destination d₁ I₁ d₂ I₂ e b, Renames fs source destination d₁ I₁ d₂ I₂ e b →
      d₁ ≠ d₂ → dirEntrySize * ((entriesAt fs.view.flat d₂).length + 1) ≤ maxFileSize →
      ((rename source destination fs).1 = Result.fail .noSpace ↔
        LacksEntry fs (entriesAt fs.view.flat d₂).length)) ∧
    (∀ path, (remove path fs).1 ≠ Result.fail .noSpace) ∧
    ∀ source destination d I a b, Names fs source d I a → Names fs destination d I b →
      (rename source destination fs).1 ≠ Result.fail .noSpace :=
  ⟨fun _ _ _ _ _ hf hI hk hend => h.writeFile_noSpace hf hI hk hend,
    fun _ _ _ _ hf hI hk hend => h.truncate_noSpace hf hI hk hend,
    fun _ kind _ _ _ _ hp hN hfresh hmany => h.create_noSpace hN hfresh hmany kind hp,
    fun _ _ _ _ _ _ _ _ hR hne hmany => h.rename_across_noSpace hR hne hmany,
    h.remove_noSpace,
    fun _ _ _ _ _ _ hN₁ hN₂ hrun => (h.rename_noSpace hN₁ hN₂ hrun).ne rfl⟩

/-- The accounting on the smallest volume, just mounted. -/
theorem space_exact_smallest :
    ∃ sb, Consistent (mountedFrom smallDisk sb) ∧
      ∀ path, (remove path (mountedFrom smallDisk sb)).1 ≠ Result.fail .noSpace := by
  have h := mountedFrom_consistent smallDisk_accepted smallDisk_wellFormed
  exact ⟨_, h, (space_exact _ h).2.2.2.2.1⟩

end NexOs.Nexfs
