import Mathlib.Algebra.Order.BigOperators.Group.Finset
import NexOs.Nexfs.Session

/-! When the operations that build a tree cannot fail: few inodes with little data
each leave an inode and enough blocks for the next one. -/
namespace NexOs.Nexfs
open List Bytes Storage Function NamedTree NexFs Exec

/-! ## Counting blocks -/

theorem Owned.blocks_le {V : View} (h : Owned sb V) {S : Finset Nat} {K : Nat}
    (hS : ∀ n I, V.inode n = some I → n ∈ S ∧ footprint I.blockCount ≤ K) :
    sb.totalBlocks - sb.dataStartBlock ≤ (V.freeBlocks sb).card + S.card * K := by
  let taken : Nat → Finset Nat := fun n =>
    match V.inode n with
    | some I => (V.owned I).toFinset
    | none => ∅
  have hcard : ∀ n ∈ S, (taken n).card ≤ K := by
    intro n _
    cases hn : V.inode n with
    | none => simp [taken, hn]
    | some I =>
      have hlen := View.length_owned (V := V) (h.tight n I hn)
      simp only [taken, hn]
      exact (toFinset_card_le _).trans (hlen.trans_le (hS n I hn).2)
  have hcover : Finset.Ico sb.dataStartBlock sb.totalBlocks ⊆ V.freeBlocks sb ∪ S.biUnion taken := by
    intro b hb
    rw [Finset.mem_Ico] at hb
    rw [Finset.mem_union, View.mem_freeBlocks, Finset.mem_biUnion]
    cases hbit : V.blockBit b with
    | false => exact .inl ⟨hb, rfl⟩
    | true =>
      rcases h.owner b hbit with hlow | ⟨n, I, hn, hmem⟩
      · omega
      · refine .inr ⟨n, (hS n I hn).1, ?_⟩
        simp only [taken, hn]
        exact mem_toFinset.mpr hmem
  calc sb.totalBlocks - sb.dataStartBlock
      = (Finset.Ico sb.dataStartBlock sb.totalBlocks).card := (Nat.card_Ico ..).symm
    _ ≤ (V.freeBlocks sb ∪ S.biUnion taken).card := Finset.card_le_card hcover
    _ ≤ (V.freeBlocks sb).card + (S.biUnion taken).card := Finset.card_union_le ..
    _ ≤ _ := Nat.add_le_add_left (Finset.card_biUnion_le_card_mul S taken K hcard) _

/-! ## Light volumes -/

/-- At most `k` inodes are in use. A directory has an entry for each of them at most, and a
file has no more than `b` bytes. -/
structure Light (F : Flat) (k b : Nat) : Prop where
  inodes : ∃ S : Finset Nat, S.card ≤ k ∧ ∀ n, F n ≠ none → n ∈ S
  directory : ∀ n bytes, F n = some (.directory, bytes) → bytes.length ≤ 256 * k
  file : ∀ n bytes, F n = some (.regular, bytes) → bytes.length ≤ b

/-- The volume has room for `k` inodes with `b` bytes each. -/
structure Roomy (sb : Superblock) (k b : Nat) : Prop where
  inodes : k + 1 < sb.slots
  blocks : (k + 1) * footprint (dataBlocksForSize b) ≤ sb.totalBlocks - sb.dataStartBlock
  entries : 256 * k ≤ b
  size_le : b ≤ maxFileSize

theorem Roomy.mono (h : Roomy sb k b) (hk : k' ≤ k) : Roomy sb k' b where
  inodes := by
    have := h.inodes
    omega
  blocks := (Nat.mul_le_mul_right _ (Nat.succ_le_succ hk)).trans h.blocks
  entries := (Nat.mul_le_mul_left 256 hk).trans h.entries
  size_le := h.size_le

theorem Roomy.of_layout (h : Roomy sb k b) (hl : SameLayout sb sb') : Roomy sb' k b where
  inodes := by
    rw [hl.slots]
    exact h.inodes
  blocks := by
    rw [hl.totalBlocks, hl.dataStartBlock]
    exact h.blocks
  entries := h.entries
  size_le := h.size_le

variable {F : Flat} {fs : NexFs} {k b : Nat}

section
variable {k b n d : Nat} {bytes : List UInt8}

variable (h : Light F k b)
include h

theorem Light.length_le (hk : 256 * k ≤ b) {kind : FileType}
    (hn : F n = some (kind, bytes)) : bytes.length ≤ b := by
  cases kind with
  | directory => exact (h.directory n bytes hn).trans hk
  | regular => exact h.file n bytes hn

theorem Light.withChild (hl : Linked F) (hd : F d = some (.directory, bytes)) (he : e.Valid) : Light (withChild F d e) (k + 1) b := by
  obtain ⟨S, hcard, hS⟩ := h.inodes
  have hlen : 256 * (entriesAt F d).length = bytes.length := by
    have hm := hl.whole d bytes hd
    obtain ⟨entries, hdec⟩ := hl.decoded d bytes hd
    rw [entriesAt_dir hd hdec, length_decodeEntries hdec]
    omega
  have hdir := h.directory d bytes hd
  refine ⟨⟨insert e.inode S, ?_, ?_⟩, ?_, ?_⟩
  · exact (Finset.card_insert_le ..).trans (Nat.succ_le_succ hcard)
  · intro n hn
    rw [Finset.mem_insert]
    by_cases hne : n = e.inode
    · exact .inl hne
    refine .inr (hS n ?_)
    by_cases hnd : n = d
    · rw [hnd, hd]
      simp
    · rwa [Nexfs.withChild, withEntries_of_ne hnd, update_of_ne hne] at hn
  · intro n bytes' hn
    by_cases hnd : n = d
    · rw [hnd, Nexfs.withChild, withEntries_self] at hn
      cases hn
      rw [length_encodeEntries (valid_concat he), length_append, length_singleton]
      omega
    rw [Nexfs.withChild, withEntries_of_ne hnd] at hn
    by_cases hne : n = e.inode
    · rw [hne, update_self] at hn
      obtain ⟨-, rfl⟩ := Prod.mk.inj (Option.some.inj hn)
      exact Nat.zero_le _
    · rw [update_of_ne hne] at hn
      have := h.directory n bytes' hn
      omega
  · intro n bytes' hn
    by_cases hnd : n = d
    · rw [hnd, Nexfs.withChild, withEntries_self] at hn
      cases hn
    rw [Nexfs.withChild, withEntries_of_ne hnd] at hn
    by_cases hne : n = e.inode
    · rw [hne, update_self] at hn
      obtain ⟨-, rfl⟩ := Prod.mk.inj (Option.some.inj hn)
      exact Nat.zero_le _
    · rw [update_of_ne hne] at hn
      exact h.file n bytes' hn

theorem Light.write (hn : F n ≠ none) (hb : bytes.length ≤ b) :
    Light (update F n (some (.regular, bytes))) k b := by
  obtain ⟨S, hcard, hS⟩ := h.inodes
  refine ⟨⟨S, hcard, ?_⟩, ?_, ?_⟩
  · intro m hm
    by_cases hne : m = n
    · exact hS m (hne ▸ hn)
    · rw [update_of_ne hne] at hm
      exact hS m hm
  · intro m bytes' hm
    by_cases hne : m = n
    · rw [hne, update_self] at hm
      cases hm
    · rw [update_of_ne hne] at hm
      exact h.directory m bytes' hm
  · intro m bytes' hm
    by_cases hne : m = n
    · rw [hne, update_self] at hm
      cases hm
      exact hb
    · rw [update_of_ne hne] at hm
      exact h.file m bytes' hm

theorem Light.mono (hk : k ≤ k') : Light F k' b := by
  obtain ⟨S, hcard, hS⟩ := h.inodes
  refine ⟨⟨S, hcard.trans hk, hS⟩, fun n bytes hn => ?_, h.file⟩
  exact (h.directory n bytes hn).trans (Nat.mul_le_mul_left 256 hk)

end

theorem Consistent.free_of_light (h : Consistent fs) (hl : Light fs.view.flat k b)
    (hroom : Roomy fs.superblock k b) :
    footprint (dataBlocksForSize b) ≤ (fs.view.freeBlocks fs.superblock).card := by
  obtain ⟨S, hcard, hS⟩ := hl.inodes
  have hsmall : ∀ n I, fs.view.inode n = some I →
      n ∈ S ∧ footprint I.blockCount ≤ footprint (dataBlocksForSize b) := by
    intro n I hn
    have hF := View.flat_of_inode hn
    have hle := hl.length_le hroom.entries hF
    rw [h.length_content hn] at hle
    refine ⟨hS n (by rw [hF]; simp), ?_⟩
    rw [h.owned.count n I hn]
    exact footprint_mono (dataBlocksForSize_mono hle)
  have hblocks := h.owned.blocks_le hsmall
  have hused := Nat.mul_le_mul_right (footprint (dataBlocksForSize b)) hcard
  have hroomy := hroom.blocks
  rw [Nat.succ_mul] at hroomy
  omega

theorem Consistent.freeInode_of_light (h : Consistent fs) (hl : Light fs.view.flat k b)
    (hroom : Roomy fs.superblock (k + 1) b) : ∃ n, fs.freeInode = some n := by
  obtain ⟨S, hcard, hS⟩ := hl.inodes
  cases hfree : fs.freeInode with
  | some n => exact ⟨n, rfl⟩
  | none =>
    have hsub : Finset.Ico 2 fs.superblock.slots ⊆ S := by
      intro n hn
      rw [Finset.mem_Ico] at hn
      have hbit := find?_eq_none.mp hfree n (mem_range'_1.mpr (by omega))
      apply hS
      rw [Ne, h.owned.flat_eq_none (by omega)]
      simpa using hbit
    have hcount := Finset.card_le_card hsub
    rw [Nat.card_Ico] at hcount
    have := hroom.inodes
    omega

/-! ## Operations that succeed -/

/-- The operations that only add to a tree, none of them beyond `b` bytes of a file. -/
def Op.Adds (b : Nat) : Op → Prop
  | createFile path => ∃ parts, splitParent path = .ok parts
  | createDir path => ∃ parts, splitParent path = .ok parts
  | writeFile _ offset data => offset + data.length ≤ b
  | _ => False

theorem TreeStep.unique (h₁ : TreeStep T op T₁) (h₂ : TreeStep T op T₂) : T₁ = T₂ := by
  cases h₁ with
  | createFile _ => cases h₂; rfl
  | createDir _ => cases h₂; rfl
  | remove _ _ _ => cases h₂; rfl
  | rename _ _ _ _ => cases h₂; rfl
  | writeFile hfile =>
    cases h₂ with
    | writeFile hfile' =>
      rw [hfile] at hfile'
      cases hfile'
      rfl
  | truncate hfile =>
    cases h₂ with
    | truncate hfile' =>
      rw [hfile] at hfile'
      cases hfile'
      rfl

section
variable {path : String} {T : Paths}

variable {P : List String} {old : List UInt8} {parts : String × String}

theorem directory_of_paths (h : pathsOf F P = some .directory) :
    ∃ d bytes, follow (childOf F) 1 P = some d ∧ F d = some (.directory, bytes) := by
  obtain ⟨d, hf, -⟩ := pathsOf_ne_none (F := F) (P := P) (by rw [h]; simp)
  rw [pathsOf_of_follow hf, Option.map_eq_some_iff] at h
  obtain ⟨⟨kind, bytes⟩, hd, hnode⟩ := h
  cases kind with
  | directory => exact ⟨d, bytes, hf, hd⟩
  | regular => cases hnode

theorem file_of_paths (h : pathsOf F P = some (.file old)) :
    ∃ n, follow (childOf F) 1 P = some n ∧ F n = some (.regular, old) := by
  obtain ⟨n, hf, -⟩ := pathsOf_ne_none (F := F) (P := P) (by rw [h]; simp)
  rw [pathsOf_of_follow hf, Option.map_eq_some_iff] at h
  obtain ⟨⟨kind, bytes⟩, hn, hnode⟩ := h
  cases kind with
  | directory => cases hnode
  | regular =>
    cases hnode
    exact ⟨n, hf, hn⟩

theorem Consistent.names_of_vacant (h : Consistent fs) (hsplit : splitParent path = .ok parts)
    (hvacant : Vacant (pathsOf fs.view.flat) (pathNames path)) :
    ∃ d I, Names fs path d I parts.2 ∧ lookup (entriesAt fs.view.flat d) parts.2 = none := by
  obtain ⟨parent, name⟩ := parts
  obtain ⟨hfree, P, last, hP, hdir⟩ := hvacant
  have hnames := (splitParent_names hsplit).1
  rw [hnames] at hP
  obtain ⟨rfl, -⟩ := append_inj' hP rfl
  obtain ⟨d, bytes, hf, hd⟩ := directory_of_paths hdir
  obtain ⟨I, hI, hk, -⟩ := View.flat_eq_some.mp hd
  refine ⟨d, I, ⟨⟨parent, hsplit, hf⟩, hI, hk⟩, ?_⟩
  cases hc : childOf fs.view.flat d name with
  | none => exact hc
  | some m =>
    have hm : pathsOf fs.view.flat (pathNames path) = (fs.view.flat m).map nodeOf := by
      rw [hnames, pathsOf_of_follow ((follow_concat_of_some hf).trans hc)]
    rw [hm, Option.map_eq_none_iff] at hfree
    exact absurd hfree (h.linked.target_of_child hc)

variable (h : Consistent fs) (hl : Light fs.view.flat k b)
include h hl

theorem Consistent.create_succeeds (hroom : Roomy fs.superblock (k + 1) b)
    (hsplit : splitParent path = .ok parts)
    (hvacant : Vacant (pathsOf fs.view.flat) (pathNames path)) (kind : FileType)
    (hp : permissions < 2 ^ 16) :
    ∃ n fs', create path kind permissions fs = (.ok n, fs') ∧ Light fs'.view.flat (k + 1) b := by
  obtain ⟨d, I, hN, hfresh⟩ := h.names_of_vacant hsplit hvacant
  obtain ⟨n, hfree⟩ := h.freeInode_of_light hl hroom
  have hlen : 256 * ((entriesAt fs.view.flat d).length + 1) ≤ b := by
    have hdir := hl.directory d _ hN.flat
    rw [h.length_content hN.inode, h.size_eq hN.inode hN.kind] at hdir
    have := hroom.entries
    omega
  have hfits : ¬NoRoom fs I ((entriesAt fs.view.flat d).length + 1) := by
    have hblocks := h.free_of_light hl (hroom.mono (Nat.le_succ k))
    have hgrown := footprint_mono (dataBlocksForSize_mono hlen)
    have hmax := hroom.size_le
    simp only [maxFileSize] at hmax
    rw [NoRoom, Short]
    omega
  rcases h.create_named hN hfresh kind hp with ⟨hnone, -⟩ | ⟨m, hm, ⟨-, fs', hrun, -, hc⟩ | ⟨hno, -⟩⟩
  · rw [hfree] at hnone
    cases hnone
  · obtain ⟨hm2, hlt, -⟩ := freeInode_spec hm
    have hslots := h.valid.slots_le
    have hvalid : (⟨m, kind, parts.2⟩ : DirectoryEntry).Valid :=
      ⟨by dsimp only; omega, by dsimp only; omega, hN.valid⟩
    refine ⟨m, fs', hrun, ?_⟩
    rw [hc.flat]
    exact hl.withChild h.linked hN.flat hvalid
  · exact absurd hno hfits

theorem Consistent.write_succeeds (hroom : Roomy fs.superblock k b) {data : List UInt8} (hfile : pathsOf fs.view.flat (pathNames path) = some (.file old))
    (hend : offset + data.length ≤ b) :
    ∃ fs', writeFile path offset data fs = (.ok data.length, fs') ∧ Light fs'.view.flat k b := by
  obtain ⟨n, hf, hn⟩ := file_of_paths hfile
  obtain ⟨I, hI, hk, rfl⟩ := View.flat_eq_some.mp hn
  have hold := hl.file n _ hn
  rw [h.length_content hI] at hold
  rcases h.writeFile_found hf hI hk (hend.trans hroom.size_le) with ⟨-, fs', hrun, -, hc⟩ |
    ⟨hshort, -⟩
  · refine ⟨fs', hrun, ?_⟩
    rw [hc.flat]
    refine hl.write (by rw [hn]; simp) ?_
    rw [length_overwrite, h.length_content hI]
    exact Nat.max_le.mpr ⟨hold, hend⟩
  · have hblocks := h.free_of_light hl hroom
    rw [Short, h.owned.count n I hI, ← dataBlocksForSize_max] at hshort
    have hgrown := footprint_mono (dataBlocksForSize_mono (Nat.max_le.mpr ⟨hold, hend⟩))
    omega

theorem Op.run_succeeds (hroom : Roomy fs.superblock (k + 1) b) (hop : op.Adds b)
    (hstep : TreeStep (pathsOf fs.view.flat) op T) :
    ∃ fs', op.run fs = (.ok (), fs') ∧ Light fs'.view.flat (k + 1) b := by
  cases hstep with
  | createFile hvacant =>
    obtain ⟨parts, hsplit⟩ := hop
    obtain ⟨n, fs', hrun, hl'⟩ := h.create_succeeds hl hroom hsplit hvacant .regular
      (show defaultFilePermissions < 2 ^ 16 by decide)
    exact ⟨fs', bind_of_ok hrun, hl'⟩
  | createDir hvacant =>
    obtain ⟨parts, hsplit⟩ := hop
    obtain ⟨n, fs', hrun, hl'⟩ := h.create_succeeds hl hroom hsplit hvacant .directory
      (show defaultDirectoryPermissions < 2 ^ 16 by decide)
    exact ⟨fs', bind_of_ok hrun, hl'⟩
  | writeFile hfile =>
    obtain ⟨fs', hrun, hl'⟩ := h.write_succeeds hl (hroom.mono (Nat.le_succ k)) hfile hop
    exact ⟨fs', bind_of_ok hrun, hl'.mono (Nat.le_succ k)⟩
  | truncate _ => exact hop.elim
  | remove _ _ _ => exact hop.elim
  | rename _ _ _ _ => exact hop.elim

theorem runOps_succeeds {ops : List Op} (hroom : Roomy fs.superblock (k + ops.length) b)
    (hops : ∀ op ∈ ops, op.Adds b) (hrun : TreeRun (pathsOf fs.view.flat) ops T) :
    ∃ fs', runOps ops fs = (.ok (), fs') ∧ pathsOf fs'.view.flat = T := by
  induction ops generalizing fs k with
  | nil =>
    cases hrun
    exact ⟨fs, rfl, rfl⟩
  | cons op ops ih =>
    cases hrun with
    | cons hstep hrest =>
    rw [length_cons, Nat.add_comm ops.length, ← Nat.add_assoc] at hroom
    obtain ⟨fs₁, hop, hl₁⟩ := Op.run_succeeds h hl (hroom.mono (Nat.le_add_right ..))
      (hops op mem_cons_self) hstep
    obtain ⟨hs₁, h₁, hstep₁⟩ := Op.run_ok h hop
    rw [hstep.unique hstep₁] at hrest
    obtain ⟨fs', hrun, hT⟩ := ih h₁ hl₁ (hroom.of_layout hs₁.layout)
      (fun op hmem => hops op (mem_cons_of_mem _ hmem)) hrest
    exact ⟨fs', (bind_of_ok hop).trans hrun, hT⟩

end

/-! ## A new volume -/

variable {sb : Superblock} {V : View}

theorem Fresh.light (h : Fresh sb V) (b : Nat) : Light V.flat 1 b := by
  refine ⟨⟨{1}, le_refl 1, ?_⟩, ?_, ?_⟩
  · intro n hn
    rw [Finset.mem_singleton]
    by_contra hne
    exact hn (by rw [h.flat, if_neg hne])
  · intro n bytes hn
    rw [h.flat] at hn
    split at hn
    · cases hn
      exact Nat.zero_le _
    · cases hn
  · intro n bytes hn
    rw [h.flat] at hn
    split at hn <;> cases hn

def emptyTree : Paths := fun path => if path = [] then some .directory else none

theorem Fresh.paths (h : Fresh sb V) : pathsOf V.flat = emptyTree := by
  funext path
  cases path with
  | nil =>
    rw [pathsOf_of_follow rfl, h.flat]
    rfl
  | cons name rest =>
    have hc : childOf V.flat 1 name = none := by rw [childOf, h.entriesAt, lookup_nil]
    rw [pathsOf, follow, hc]
    rfl

end NexOs.Nexfs
