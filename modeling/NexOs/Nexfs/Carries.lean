import NexOs.Nexfs.Search

/-! The steps that the operations are made of: a new inode, new contents for an
inode, and the end of an inode. Each keeps the blocks in order and changes what
the inodes hold in one place. -/
namespace NexOs.Nexfs
open Bytes Storage Function NexFs

section
variable {sb sb' : Superblock} {V : View} {I : Inode}

/-- What the ownership of blocks depends on in a superblock. -/
structure SameLayout (sb sb' : Superblock) : Prop where
  inodeTableBlock : sb'.inodeTableBlock = sb.inodeTableBlock
  dataStartBlock : sb'.dataStartBlock = sb.dataStartBlock
  totalBlocks : sb'.totalBlocks = sb.totalBlocks

theorem SameLayout.slots (h : SameLayout sb sb') : sb'.slots = sb.slots := by
  rw [Superblock.slots, h.dataStartBlock, h.inodeTableBlock, Superblock.slots]

theorem SameLayout.inData (h : SameLayout sb sb') (b : Nat) : sb'.InData b ↔ sb.InData b := by
  rw [Superblock.InData, h.dataStartBlock, h.totalBlocks, Superblock.InData]

theorem SameLayout.freeBlocks (h : SameLayout sb sb') : V.freeBlocks sb' = V.freeBlocks sb := by
  rw [View.freeBlocks, h.dataStartBlock, h.totalBlocks, View.freeBlocks]

theorem Intact.of_layout (h : Intact sb V I) (hl : SameLayout sb sb') : Intact sb' V I :=
  { h with range := fun b hb => (hl.inData b).mpr (h.range b hb) }

theorem Owned.of_layout (h : Owned sb V) (hl : SameLayout sb sb') : Owned sb' V :=
  { h with
    intact := fun n I hn => (h.intact n I hn).of_layout hl
    reserved := by rw [hl.dataStartBlock]; exact h.reserved
    owner := by rw [hl.dataStartBlock]; exact h.owner
    inodeBits := by rw [hl.slots]; exact h.inodeBits }

theorem Steps.layout (h : Steps fs fs') : SameLayout fs.superblock fs'.superblock := by
  obtain ⟨g, -, hg⟩ := h.superblock
  rw [hg]
  exact ⟨rfl, rfl, rfl⟩

end

/-- A mounted volume in order whose inodes hold `F`. -/
structure Carries (fs : NexFs) (F : Flat) : Prop extends Mounted fs where
  owned : Owned fs.superblock fs.view
  flat : fs.view.flat = F

theorem Consistent.carries (h : Consistent fs) : Carries fs fs.view.flat :=
  { h with flat := rfl }

theorem Carries.consistent (h : Carries fs F) (hl : Linked F) : Consistent fs :=
  { h with linked := h.flat ▸ hl }

namespace Carries
variable {fs fs' : NexFs} {F : Flat} {n t : Nat} {I I' J : Inode} {content : List UInt8}

theorem steps (h : Carries fs F) (hs : Steps fs fs') (hv : fs'.view = fs.view) : Carries fs' F where
  toMounted := hs.mounted h.toMounted
  owned := hv ▸ h.owned.of_layout hs.layout
  flat := hv ▸ h.flat

theorem freeBlocks_steps (hs : Steps fs fs') (hv : fs'.view.blockBit = fs.view.blockBit) :
    fs'.view.freeBlocks fs'.superblock = fs.view.freeBlocks fs.superblock := by
  rw [hs.layout.freeBlocks, View.freeBlocks, hv, View.freeBlocks]

theorem finishMutation_run (h : Carries fs F) :
    ∃ fs', finishMutation fs = (.ok (), fs') ∧ Steps fs fs' ∧ Carries fs' F := by
  obtain ⟨fs', hrun, hs, hv⟩ := NexFs.finishMutation_run h.toMounted
  exact ⟨fs', hrun, hs, h.steps hs hv⟩

structure Stores (I I' J : Inode) (content : List UInt8) : Prop where
  fits : J.Fits
  kind : J.kind = I.kind
  directBlocks : J.directBlocks = I'.directBlocks
  indirectBlock : J.indirectBlock = I'.indirectBlock
  blockCount : J.blockCount = I'.blockCount
  size : J.size = content.length

theorem writeInode_run (h : Carries fs F) (hn : fs.view.inode n = some I)
    (hw : Rewrites fs I fs' I' content) (hJ : Stores I I' J content)
    (hs : Steps fs' fs₁) (hv : fs₁.view = fs'.view) :
    ∃ fs₂, writeInode n J fs₁ = (.ok (), fs₂) ∧ Steps fs fs₂ ∧
      Carries fs₂ (update F n (some (I.kind, content))) ∧
      fs₂.view.blockBit = fs'.view.blockBit ∧ fs₂.view.inode = update fs.view.inode n (some J) := by
  have hs₁ : Steps fs fs₁ := hw.writes.steps.trans hs
  have hm₁ := hs₁.mounted h.toMounted
  have hlt : n < fs₁.superblock.slots := by
    rw [hs₁.layout.slots]
    exact h.owned.lt_slots hn
  obtain ⟨fs₂, hrun, hw₂⟩ := NexFs.writeInode_run hm₁ hlt hJ.fits
  rw [hv] at hw₂
  have hrep : Claims.Replaces I' J :=
    ⟨hJ.fits, hJ.directBlocks, hJ.indirectBlock, hJ.blockCount, by
      rw [hJ.blockCount, hw.count, hJ.size]⟩
  obtain ⟨howned, hflat⟩ := h.owned.edit h.sized hn hw.edit hw.tight hrep
  have hs₂ : Steps fs fs₂ := hs₁.trans hw₂.steps
  have hview : fs₂.view = { fs'.view with slot := update fs'.view.slot n (.ok J) } := hw₂.view
  rw [← hview] at howned hflat
  refine ⟨fs₂, hrun, hs₂, ⟨hs₂.mounted h.toMounted, howned.of_layout hs₂.layout, ?_⟩, ?_, ?_⟩
  · rw [hflat, h.flat, hJ.kind, hJ.size, hw.bytes]
  · rw [hview]
  · rw [hview]
    exact View.inode_put_slot hw.edit.slot hw.edit.inodeBit hn

variable {entries : List DirectoryEntry} {kind : FileType} {permissions : Nat} {V : View}

theorem stores_entries (hw : Rewrites fs I fs' I' (encodeEntries entries))
    (hv : ∀ e ∈ entries, e.Valid) (hsize : I'.size = 256 * entries.length) (ht : t < 2 ^ 64) :
    Stores I I' { I' with modified := t, generation := t } (encodeEntries entries) where
  fits := { hw.edit.after.fits with modified := ht, generation := ht }
  kind := hw.kind
  directBlocks := rfl
  indirectBlock := rfl
  blockCount := rfl
  size := by rw [length_encodeEntries hv, ← hsize]

theorem replaceDirectory_run (h : Carries fs F) (hn : fs.view.inode n = some I)
    (hk : I.kind = .directory) (hv : ∀ e ∈ entries, e.Valid) (hlen : entries.length ≤ 8384)
    (hfit : footprint (dataBlocksForSize (256 * entries.length)) ≤
      (fs.view.freeBlocks fs.superblock).card + footprint I.blockCount) :
    ∃ I' fs', replaceDirectory I entries fs = (.ok I', fs') ∧ Steps fs fs' ∧
      ∀ {fs₁ : NexFs} {t : Nat}, Steps fs' fs₁ → fs₁.view = fs'.view → t < 2 ^ 64 →
        ∃ fs₂ J, writeInode n { I' with modified := t, generation := t } fs₁ = (.ok (), fs₂) ∧
          Steps fs fs₂ ∧ Carries fs₂ (withEntries F n entries) ∧
          fs₂.view.inode = update fs.view.inode n (some J) := by
  rcases NexFs.replaceDirectory_run h.toMounted (h.owned.intact n I hn) (h.owned.tight n I hn) hk hv
    (by omega) with ⟨-, I', fs', hrun, hsize, hw⟩ | ⟨hlt, -⟩
  · refine ⟨I', fs', hrun, hw.writes.steps, fun {fs₁ t} hs hview ht => ?_⟩
    obtain ⟨fs₂, hrun₂, hs₂, hc, -, hinode⟩ :=
      h.writeInode_run hn hw (stores_entries hw hv hsize ht) hs hview
    rw [hk] at hc
    exact ⟨fs₂, _, hrun₂, hs₂, hc, hinode⟩
  · omega

theorem fits_new (hp : permissions < 2 ^ 16) (ht : t < 2 ^ 64) :
    (Inode.new kind permissions t).Fits := by
  refine ⟨hp, by simp [Inode.new], ht, ht, ?_, by simp [Inode.new], by simp [Inode.new], ht⟩
  intro b hb
  simp only [Inode.new, Vector.mem_replicate] at hb
  rw [hb.2]
  exact Nat.two_pow_pos 64

theorem owned_new : V.owned (Inode.new kind permissions t) = [] := by
  simp [View.owned, View.blocks, Inode.new]

theorem intact_new (hs : Sized sb V) (hp : permissions < 2 ^ 16) (ht : t < 2 ^ 64) :
    Intact sb V (Inode.new kind permissions t) := by
  have hdata : V.data 0 = [] := hs.outside 0 fun hr => hs.ne_zero hr rfl
  refine ⟨fits_new hp ht, Nat.zero_le _, ?_, ?_, ?_, ?_⟩
  · intro i _ _
    rw [View.pointer]
    split
    · simp [Inode.new]
    · simp only [Inode.new, hdata, le_nil]
  all_goals simp [owned_new]

theorem newInode_run (h : Carries fs F) (hfree : fs.freeInode = some n)
    (hp : permissions < 2 ^ 16) :
    ∃ t fs₁ fs₂ fs₃, allocateInode fs = (.ok n, fs₁) ∧ nextTimestamp fs₁ = (.ok t, fs₂) ∧
      writeInode n (Inode.new kind permissions t) fs₂ = (.ok (), fs₃) ∧ t < 2 ^ 64 ∧
      Steps fs fs₃ ∧ Carries fs₃ (update F n (some (kind, []))) ∧
      fs₃.view.blockBit = fs.view.blockBit ∧
      fs₃.view.inode = update fs.view.inode n (some (Inode.new kind permissions t)) := by
  obtain ⟨hn, hlt, hbit⟩ := freeInode_spec hfree
  obtain ⟨fs₁, hrun₁, hw₁⟩ := allocateInode_some h.toMounted hfree
  obtain ⟨t, fs₂, hrun₂, ht, hs₂, hv₂⟩ := nextTimestamp_run
  have hs : Steps fs fs₂ := hw₁.steps.trans hs₂
  have hlt₂ : n < fs₂.superblock.slots := by rwa [hs.layout.slots]
  obtain ⟨fs₃, hrun₃, hw₃⟩ := NexFs.writeInode_run (hs.mounted h.toMounted) hlt₂
    (show (Inode.new kind permissions t).Fits from fits_new hp ht)
  have hs₃ : Steps fs fs₃ := hs.trans hw₃.steps
  have hview : fs₃.view = { fs.view with
      inodeBit := update fs.view.inodeBit n true
      slot := update fs.view.slot n (.ok (Inode.new kind permissions t)) } := by
    rw [hw₃.view, hv₂, hw₁.view]
  obtain ⟨howned, hflat⟩ := h.owned.insert (by omega) hlt hbit
    (show Intact _ _ (Inode.new kind permissions t) from intact_new h.sized hp ht) (fun _ => rfl) rfl rfl
  rw [← hview] at howned hflat
  refine ⟨t, fs₁, fs₂, fs₃, hrun₁, hrun₂, hrun₃, ht, hs₃,
    ⟨hs₃.mounted h.toMounted, howned.of_layout hs₃.layout, by rw [hflat, h.flat]; rfl⟩, ?_, ?_⟩
  · rw [hview]
  · rw [hview]
    exact View.inode_insert (by omega)

theorem eraseInode_run (h : Carries fs F) (hn : fs.view.inode n = some I) :
    ∃ I' fs₁ fs₂ fs₃, truncateInodeBlocks I 0 fs = (.ok I', fs₁) ∧
      clearInode n fs₁ = (.ok (), fs₂) ∧ setInodeAllocated n false fs₂ = (.ok (), fs₃) ∧
      Steps fs fs₃ ∧ Carries fs₃ (update F n none) := by
  have hlt := h.owned.lt_slots hn
  obtain ⟨I', fs₁, hrun₁, hc, ht, hzero⟩ :=
    truncateInodeBlocks_run h.toMounted (h.owned.intact n I hn) (Nat.zero_le _)
  have hempty : fs₁.view.owned I' = [] := by
    rw [View.owned, if_pos ⟨by omega, ht (by omega)⟩, View.blocks, hzero]
    rfl
  have hm₁ := hc.writes.steps.mounted h.toMounted
  have hlt₁ : n < fs₁.superblock.slots := by rwa [hc.writes.superblock]
  obtain ⟨fs₂, hrun₂, hw₂⟩ := clearInode_run hm₁ hlt₁
  have hm₂ := hw₂.steps.mounted hm₁
  have hlt₂ : n < fs₂.superblock.slots := by rwa [hw₂.superblock]
  obtain ⟨fs₃, hrun₃, hw₃⟩ := setInodeAllocated_run hm₂ hlt₂
  have hw := (hc.writes.trans hw₂).trans hw₃
  have hview : fs₃.view = { fs₁.view with
      inodeBit := update fs₁.view.inodeBit n false
      slot := update fs₁.view.slot n (Result.fail .corruptInode) } := by
    rw [hw₃.view, hw₂.view]
  obtain ⟨howned, hflat⟩ := h.owned.delete h.sized hn hc.edit hempty (Result.fail .corruptInode)
  rw [← hview] at howned hflat
  exact ⟨I', fs₁, fs₂, fs₃, hrun₁, hrun₂, hrun₃, hw.steps,
    ⟨hw.steps.mounted h.toMounted, howned.of_layout hw.steps.layout, by rw [hflat, h.flat]⟩⟩

end Carries

end NexOs.Nexfs
