import NexOs.Nexfs.Format
import NexOs.Nexfs.Refinement

/-! A session: a volume is mounted, operations run, and it is unmounted. -/
namespace NexOs.Nexfs
open Bytes Storage Function NexFs Exec

def Superblock.mounted (sb : Superblock) : Superblock :=
  { sb.dirty with generation := saturatingAdd sb.generation 1 }

def Superblock.unmounted (sb : Superblock) : Superblock :=
  { sb with
    flags := sb.flags ||| cleanFlag
    generation := saturatingAdd sb.generation 1 }

def mountedFrom (d : Disk) (sb : Superblock) : NexFs where
  device := flushed (putBlock d 1 sb.mounted.record)
  superblock := sb.mounted

def unmountedFrom (fs : NexFs) : NexFs where
  device := flushed (putBlock (flushed fs.device) 1 fs.superblock.unmounted.record)
  superblock := fs.superblock.unmounted

variable {sb : Superblock} {fs fs' : NexFs}

theorem Superblock.mounted_dirty (sb : Superblock) : sb.mounted.isClean = false := by
  have hland : sb.flags &&& (2 ^ 32 - 1 - cleanFlag) &&& cleanFlag = 0 := by
    rw [Nat.land_assoc]
    exact Nat.and_zero _
  simp only [Superblock.isClean, Superblock.mounted, Superblock.dirty, hland, bne_self_eq_false]

theorem Superblock.unmounted_clean (sb : Superblock) : sb.unmounted.isClean = true := by
  have hbit : ((sb.flags ||| cleanFlag) &&& cleanFlag).testBit 0 = true := by
    simp
  simp only [Superblock.isClean, Superblock.unmounted, bne_iff_ne]
  intro h0
  rw [h0] at hbit
  cases hbit

theorem Superblock.Fits.mounted (h : sb.Fits) : sb.mounted.Fits :=
  { h with
    flags := Nat.and_le_left.trans_lt h.flags
    generation := saturatingAdd_lt }

theorem Superblock.Fits.unmounted (h : sb.Fits) : sb.unmounted.Fits :=
  { h with
    flags := Nat.or_lt_two_pow h.flags (by decide)
    generation := saturatingAdd_lt }

theorem Superblock.Valid.mounted (h : sb.Valid) : sb.mounted.Valid := { h with }

theorem Superblock.Valid.unmounted (h : sb.Valid) : sb.unmounted.Valid := { h with }

section
variable {d : Disk}

section
variable (h : Accepted d sb)
include h

theorem mount_run (hw : WellFormed sb (viewOf sb d)) :
    mount d = (.ok (mountedFrom d sb), (mountedFrom d sb).device) := by
  unfold mount
  rw [bind_of_ok (h.check_ok hw), bind_of_ok (writeSuperblock_run h.ready _)]
  rfl

theorem mountedFrom_view : (mountedFrom d sb).view = viewOf sb d := by
  change viewOf sb (putBlock d 1 sb.mounted.record) = _
  exact viewOf_put_superblock h.ready sb.mounted.length_record

theorem mountedFrom_consistent (hw : WellFormed sb (viewOf sb d)) :
    Consistent (mountedFrom d sb) := by
  obtain ⟨ho, hL⟩ := h.ready.wellFormed_iff.mp hw
  have hfits := (Superblock.valid_of_decode h.decoded).2
  have hready := (h.ready.putBlock h.ready.one_lt sb.mounted.length_record).flushed
  refine ⟨⟨⟨hready.toAligned, h.ready.valid.mounted, hready.room, hready.total_lt⟩, hfits.mounted,
    sb.mounted_dirty⟩, ?_, ?_⟩
  · rw [mountedFrom_view h]
    exact ho.of_layout ⟨rfl, rfl, rfl⟩
  · rw [mountedFrom_view h]
    exact hL

theorem mountedFrom_size :
    (mountedFrom d sb).device.sectorCount * (mountedFrom d sb).device.sectorSize < 2 ^ 64 := by
  have hbytes : (mountedFrom d sb).device.bytes.length = d.bytes.length :=
    length_putBlock (h.ready.inside h.ready.one_lt) sb.mounted.length_record
  rw [Disk.sectorCount, hbytes]
  exact h.size_lt

end

theorem Steps.size_lt (h : Steps fs fs')
    (hsize : fs.device.sectorCount * fs.device.sectorSize < 2 ^ 64) :
    fs'.device.sectorCount * fs'.device.sectorSize < 2 ^ 64 := by
  rw [Disk.sectorCount, h.length, h.sectorSize]
  exact hsize

theorem unmount_run (h : Mounted fs) :
    unmount fs = (.ok fs.superblock.unmounted, unmountedFrom fs) := by
  have hwrite : onDevice (writeSuperblock fs.superblock.unmounted)
      { fs with device := flushed fs.device, superblock := fs.superblock.unmounted } = (.ok (), _) :=
    onDevice_run (writeSuperblock_run h.toReady.flushed fs.superblock.unmounted)
  exact (bind_of_ok hwrite).trans rfl

theorem unmountedFrom_view (h : Mounted fs) : (unmountedFrom fs).view = fs.view := by
  change viewOf fs.superblock (putBlock (flushed fs.device) 1 fs.superblock.unmounted.record) = _
  exact viewOf_put_superblock h.toReady.flushed fs.superblock.unmounted.length_record

theorem unmountedFrom_accepted (h : Mounted fs)
    (hsize : fs.device.sectorCount * fs.device.sectorSize < 2 ^ 64) :
    Accepted (unmountedFrom fs).device fs.superblock.unmounted := by
  have hlen := fs.superblock.unmounted.length_record
  have hin : 4096 * (1 + 1) ≤ (flushed fs.device).bytes.length := h.toReady.inside h.toReady.one_lt
  have hready : Ready fs.device fs.superblock.unmounted :=
    ⟨h.toAligned, h.valid.unmounted, h.room, h.total_lt⟩
  exact hready.accepted h.fits.unmounted fs.superblock.unmounted_clean hsize rfl
    (length_putBlock hin hlen) (blockAt_putBlock_self hin hlen)

end

/-! ## Runs of operations -/

def runOps (ops : List Op) : Method Unit := ops.forM Op.run

/-- The tree after operations that succeed. -/
inductive TreeRun : Paths → List Op → Paths → Prop
  | nil {T : Paths} : TreeRun T [] T
  | cons {T T' T'' : Paths} {op : Op} {ops : List Op} (step : TreeStep T op T')
      (rest : TreeRun T' ops T'') : TreeRun T (op :: ops) T''

section
variable {ops : List Op}

theorem runOps_ok (h : Consistent fs) (hrun : runOps ops fs = (.ok (), fs')) :
    Steps fs fs' ∧ Consistent fs' ∧ TreeRun (pathsOf fs.view.flat) ops (pathsOf fs'.view.flat) := by
  induction ops generalizing fs with
  | nil =>
    cases hrun
    exact ⟨.refl h.toMounted, h, .nil⟩
  | cons op ops ih =>
    obtain ⟨_, fs₁, hop, hrest⟩ := bind_eq_ok (f := fun _ => runOps ops) hrun
    obtain ⟨hs₁, h₁, hstep⟩ := Op.run_ok h hop
    obtain ⟨hs, h', hsteps⟩ := ih h₁ hrest
    exact ⟨hs₁.trans hs, h', .cons hstep hsteps⟩

theorem session_accepted (h : Consistent fs)
    (hsize : fs.device.sectorCount * fs.device.sectorSize < 2 ^ 64) :
    Accepted (unmountedFrom fs).device fs.superblock.unmounted ∧
      WellFormed fs.superblock.unmounted (viewOf fs.superblock.unmounted (unmountedFrom fs).device) := by
  have ha := unmountedFrom_accepted h.toMounted hsize
  refine ⟨ha, ha.ready.wellFormed_iff.mpr ?_⟩
  change Owned _ (unmountedFrom fs).view ∧ Linked (unmountedFrom fs).view.flat
  rw [unmountedFrom_view h.toMounted]
  exact ⟨h.owned.of_layout ⟨rfl, rfl, rfl⟩, h.linked⟩

end

/-- A volume that the checker accepts can be mounted, and after any operations
that all succeed it can be unmounted and is accepted again. -/
theorem session_keeps_wellFormed (d : Disk) (hcheck : ∃ r, (checkDetailed d).1 = .ok r) :
    ∃ fs, mount d = (.ok fs, fs.device) ∧
      ∀ ops fs', runOps ops fs = (.ok (), fs') →
        ∃ sb fs'', unmount fs' = (.ok sb, fs'') ∧
          (∃ r, checkDetailed fs''.device = (.ok r, fs''.device)) ∧
          WellFormed sb (viewOf sb fs''.device) := by
  obtain ⟨r, hr⟩ := hcheck
  rcases checkDetailed_cases d with ⟨sb, hsb, hw, -⟩ | ⟨-, e, hrun⟩
  case inr =>
    rw [hrun] at hr
    cases hr
  refine ⟨mountedFrom d sb, mount_run hsb hw, fun ops fs' hrun => ?_⟩
  obtain ⟨hs, hc, -⟩ := runOps_ok (mountedFrom_consistent hsb hw) hrun
  obtain ⟨hacc, hwell⟩ := session_accepted hc (hs.size_lt (mountedFrom_size hsb))
  exact ⟨_, _, unmount_run hc.toMounted, ⟨_, hacc.check_ok hwell⟩, hwell⟩

/-- A session on the smallest volume there is. -/
theorem session_keeps_wellFormed_smallest :
    (∃ r, (checkDetailed smallDisk).1 = .ok r) ∧
      ∃ fs, mount smallDisk = (.ok fs, fs.device) ∧
        ∀ ops fs', runOps ops fs = (.ok (), fs') →
          ∃ sb fs'', unmount fs' = (.ok sb, fs'') ∧
            (∃ r, checkDetailed fs''.device = (.ok r, fs''.device)) ∧
            WellFormed sb (viewOf sb fs''.device) := by
  have hcheck : ∃ r, (checkDetailed smallDisk).1 = .ok r :=
    ⟨_, by rw [smallDisk_accepted.check_ok smallDisk_wellFormed]⟩
  exact ⟨hcheck, session_keeps_wellFormed smallDisk hcheck⟩

end NexOs.Nexfs
