import NexOs.Nexfs.Room

/-! Crashes. A session marks the superblock dirty before its first change, and
writes the clean superblock only after everything else is flushed. -/
namespace NexOs.Storage
open List hiding Vector

variable {ss : Nat} {start image : List UInt8} {body events : List Event} {m c : Event}

theorem Survives.complete (h : events.getLast? = some .flush) :
    Survives ss start events (replay ss start events) :=
  ⟨events, [], [], (append_nil _).symm, .inr h, nofun, .refl _, rfl⟩

theorem Survives.kept (h : Survives ss start events image) :
    ∃ kept, kept.Sublist events ∧ image = replay ss start kept ∧
      ∀ before after, events = before ++ .flush :: after → before ++ [.flush] <+: kept := by
  obtain ⟨durable, pending, kept, rfl, -, hpending, hsub, rfl⟩ := h
  refine ⟨durable ++ kept, hsub.append_left _, foldl_append.symm, fun before after hsplit => ?_⟩
  rcases append_eq_append_iff.mp hsplit with ⟨mid, rfl, hmid⟩ | ⟨mid, rfl, hmid⟩
  · exact absurd (hmid ▸ mem_append_right mid mem_cons_self) hpending
  · cases mid with
    | nil => exact absurd (hmid ▸ mem_cons_self : .flush ∈ [] ++ pending) hpending
    | cons e mid =>
      cases (cons.inj hmid).1
      exact ⟨mid ++ kept, by simp⟩

theorem Survives.cases (h : Survives ss start events image) (hc : c ≠ .flush)
    (hpre : events <+: m :: .flush :: (body ++ [c, .flush])) :
    image = start ∨ ∃ kept, kept.Sublist body ∧
      (image = replay ss start (m :: kept) ∨ image = replay ss start (m :: (kept ++ [c])) ∧
        ∀ before after, body = before ++ .flush :: after → before ++ [.flush] <+: kept) := by
  obtain ⟨all, hsub, himage, hflush⟩ := h.kept
  rcases events with _ | ⟨x, _ | ⟨y, rest⟩⟩
  · rw [sublist_nil.mp hsub] at himage
    exact .inl himage
  · cases (cons_prefix_cons.mp hpre).1
    rcases sublist_singleton.mp hsub with rfl | rfl
    · exact .inl himage
    · exact .inr ⟨[], nil_sublist _, .inl himage⟩
  obtain ⟨rfl, hpre'⟩ := cons_prefix_cons.mp hpre
  obtain ⟨rfl, hrest⟩ := cons_prefix_cons.mp hpre'
  obtain ⟨k, rfl⟩ := hflush [x] rest rfl
  have hk : k.Sublist rest := cons_sublist_cons.mp (cons_sublist_cons.mp hsub)
  refine .inr ?_
  rcases prefix_or_prefix_of_prefix hrest (prefix_append body _) with hle | ⟨u, rfl⟩
  · exact ⟨k, hk.trans hle.sublist, .inl himage⟩
  rcases u with _ | ⟨y, _ | ⟨z, w⟩⟩
  · rw [append_nil] at hk
    exact ⟨k, hk, .inl himage⟩
  · obtain ⟨rfl, -⟩ := cons_prefix_cons.mp ((prefix_append_right_inj body).mp hrest)
    obtain ⟨kept, last, rfl, hkept, hlast⟩ := sublist_append_iff.mp hk
    rcases sublist_singleton.mp hlast with rfl | rfl
    · rw [append_nil] at himage
      exact ⟨kept, hkept, .inl himage⟩
    refine ⟨kept, hkept, .inr ⟨himage, fun before after hbody => ?_⟩⟩
    have hle := hflush (x :: .flush :: before) (after ++ [y]) (by simp [hbody])
    have hle' : before ++ [.flush] <+: kept ++ [y] := by simpa using hle
    rcases prefix_concat_iff.mp hle' with heq | hle'
    · exact absurd (append_inj' heq rfl).2 (by simpa using hc.symm)
    · exact hle'
  · obtain ⟨rfl, hw⟩ := cons_prefix_cons.mp ((prefix_append_right_inj body).mp hrest)
    obtain ⟨rfl, hnil⟩ := cons_prefix_cons.mp hw
    cases prefix_nil.mp hnil
    have hall := hflush (x :: .flush :: (body ++ [y])) [] (by simp)
    have hlen := hall.length_le
    have heq := hk.eq_of_length_le (by simpa using hlen)
    rw [heq] at himage
    refine ⟨body, .refl _, .inr ⟨himage.trans ?_, fun before after hbody => ⟨after, by simp [hbody]⟩⟩⟩
    simp [replay, Event.apply]

end NexOs.Storage

namespace NexOs.Nexfs
open List hiding Vector
open Bytes Storage NexFs

/-- The checker accepts the device, and the volume on it has the tree `T`. -/
def Holds (d : Disk) (T : Paths) : Prop :=
  ∃ r, (checkDetailed d).1 = .ok r ∧ pathsOf (viewOf r.superblock d).flat = T

/-- The medium of `d` holds `bytes`, and on it the superblock `sb` up to its
generation. -/
def Marked (d : Disk) (sb : Superblock) (bytes : List UInt8) : Prop :=
  bytes.length = d.bytes.length ∧
    ∃ g < 2 ^ 64, slice bytes 4096 4096 = { sb with generation := g }.record

variable {d : Disk} {sb : Superblock}

section
variable {bytes : List UInt8}

theorem Ready.apply_superblock (h : Ready d sb) (hlen : bytes.length = d.bytes.length)
    (sb' : Superblock) {after : List UInt8}
    (hafter : Event.apply d.sectorSize bytes (.write (1 * (4096 / d.sectorSize)) sb'.record) = after) :
    after.length = d.bytes.length ∧ slice after 4096 4096 = sb'.record := by
  have hroom : 4096 * (1 + 1) ≤ bytes.length := hlen ▸ h.inside h.one_lt
  rw [Event.apply, h.per_block_mul] at hafter
  subst hafter
  have hput := length_putBlock (d := { d with bytes := bytes }) hroom sb'.length_record
  exact ⟨hput.trans hlen,
    blockAt_putBlock_self (d := { d with bytes := bytes }) hroom sb'.length_record⟩

theorem Marked.apply (h : Marked d sb bytes) (hr : Ready d sb)
    (he : Harmless sb d.sectorSize e) : Marked d sb (e.apply d.sectorSize bytes) := by
  obtain ⟨hlen, g, hg, hslice⟩ := h
  cases he with
  | flush => exact ⟨hlen, g, hg, hslice⟩
  | superblock hg' =>
    obtain ⟨hlen', hslice'⟩ := hr.apply_superblock hlen _ rfl
    exact ⟨hlen', _, hg', hslice'⟩
  | block lo hi hdata =>
    have hroom := hlen ▸ hr.inside hi
    rw [Event.apply, hr.per_block_mul]
    refine ⟨(length_splice (by omega)).trans hlen, g, hg, ?_⟩
    rw [slice_splice_of_disjoint (by omega) (by omega)]
    exact hslice

theorem Marked.replay {events : List Event} (h : Marked d sb bytes) (hr : Ready d sb)
    (he : ∀ e ∈ events, Harmless sb d.sectorSize e) :
    Marked d sb (replay d.sectorSize bytes events) := by
  induction events generalizing bytes with
  | nil => exact h
  | cons e events ih =>
    exact ih (h.apply hr (he e mem_cons_self)) fun x hx => he x (mem_cons_of_mem e hx)

theorem Ready.marked_replay {events : List Event} (h : Ready d sb) (hf : sb.Fits)
    (he : ∀ e ∈ events, Harmless sb d.sectorSize e) :
    Marked d sb (replay d.sectorSize d.bytes
      (.write (1 * (4096 / d.sectorSize)) sb.record :: events)) := by
  obtain ⟨hlen, hslice⟩ := h.apply_superblock rfl sb rfl
  have hfirst : Marked d sb _ := ⟨hlen, _, hf.generation, hslice⟩
  exact hfirst.replay h he

theorem Marked.check (h : Marked d sb bytes) (hr : Ready d sb) (hf : sb.Fits)
    (hdirty : sb.isClean = false) :
    (checkDetailed { d with bytes := bytes }).1 = Result.fail .dirty := by
  obtain ⟨hlen, g, hg, hslice⟩ := h
  have hread := readSuperblock_aligned (d := { d with bytes := bytes })
    ⟨hr.sector_pos, hr.sector_dvd⟩ (hlen ▸ hr.inside hr.one_lt)
  have hblock : blockAt { d with bytes := bytes } 1 = { sb with generation := g }.record := hslice
  have hfits : { sb with generation := g }.Fits := { hf with generation := hg }
  rw [hblock, Superblock.decode_record hfits { hr.valid with }] at hread
  have hclean : ¬{ sb with generation := g }.isClean = true := by
    change ¬sb.isClean = true
    rw [hdirty]
    decide
  unfold checkDetailed
  rw [Exec.bind_of_ok hread, Exec.ensure_bind_neg hclean]
  rfl

theorem Accepted.holds (h : Accepted d sb) (hw : WellFormed sb (viewOf sb d))
    (hs : d'.sectorSize = d.sectorSize) (hb : d'.bytes = d.bytes) :
    Holds d' (pathsOf (viewOf sb d).flat) := by
  obtain ⟨size, bytes, log⟩ := d
  obtain ⟨size', bytes', log'⟩ := d'
  cases hs
  cases hb
  have h' : Accepted ⟨size, bytes, log'⟩ sb :=
    ⟨⟨h.sector_pos, h.sector_dvd⟩, h.decoded, h.clean, h.size_lt, h.room⟩
  exact ⟨reportOf sb ⟨size, bytes, log'⟩, congrArg Prod.fst (h'.check_ok hw), rfl⟩

end

/-- A crash at any point of a session leaves a volume that is refused as dirty,
or one with the tree before the mount or the tree after the unmount. -/
theorem crash_during_session (d : Disk) (T : Paths) (hd : Holds d T) :
    ∃ fs, mount d = (.ok fs, fs.device) ∧
      ∀ ops fs', runOps ops fs = (.ok (), fs') →
        ∃ sb fs'' T' issued, unmount fs' = (.ok sb, fs'') ∧ Holds fs''.device T' ∧
          fs''.device.log = d.log ++ issued ∧
          ∀ events image, events <+: issued → Survives d.sectorSize d.bytes events image →
            (checkDetailed { d with bytes := image }).1 = Result.fail .dirty ∨
              Holds { d with bytes := image } T ∨ Holds { d with bytes := image } T' := by
  obtain ⟨r, hr, hT⟩ := hd
  rcases checkDetailed_cases d with ⟨sb, hsb, hw, hrun⟩ | ⟨-, e, hrun⟩
  case inr =>
    rw [hrun] at hr
    cases hr
  rw [hrun] at hr
  cases hr
  have hc := mountedFrom_consistent hsb hw
  refine ⟨mountedFrom d sb, mount_run hsb hw, fun ops fs' hops => ?_⟩
  obtain ⟨hs, hc', -⟩ := runOps_ok hc hops
  obtain ⟨hacc, hwell⟩ := session_accepted hc' (hs.size_lt (mountedFrom_size hsb))
  obtain ⟨E, hlog, hE, hbytes⟩ := hs.events
  have hready : Ready d sb.mounted :=
    ⟨hsb.toAligned, hsb.ready.valid.mounted, hsb.room, hsb.ready.total_lt⟩
  let first : Event := .write (1 * (4096 / d.sectorSize)) sb.mounted.record
  let last : Event := .write (1 * (4096 / d.sectorSize)) fs'.superblock.unmounted.record
  have hsector : fs'.device.sectorSize = d.sectorSize := hs.sectorSize
  refine ⟨_, _, _, first :: .flush :: (E ++ [.flush] ++ [last, .flush]), unmount_run hc'.toMounted,
    hacc.holds hwell rfl rfl, ?_, fun events image hpre hcrash => ?_⟩
  · change fs'.device.log ++ [_] ++ [_] ++ [_] = _
    rw [hlog]
    change d.log ++ [_] ++ [_] ++ E ++ [_] ++ [_] ++ [_] = _
    simp [first, last, flushed, hsector]
  have hlast : last ≠ .flush := nofun
  rcases hcrash.cases hlast hpre with rfl | ⟨kept, hkept, rfl | ⟨rfl, hall⟩⟩
  · exact .inr (.inl (hT ▸ hsb.holds hw rfl rfl))
  · refine .inl ((hready.marked_replay hc.fits fun e he => ?_).check hready hc.fits hc.dirty)
    rcases mem_append.mp (hkept.subset he) with he | he
    · exact hE e he
    · cases mem_singleton.mp he
      exact .flush
  · have hkept' : kept = E ++ [.flush] :=
      hkept.eq_of_length_le (hall E [] rfl).length_le
    refine .inr (.inr (hacc.holds hwell ?_ ?_))
    · exact hsector.symm
    · change _ = splice fs'.device.bytes (4096 * 1) fs'.superblock.unmounted.record
      have hoffset : 1 * (4096 / d.sectorSize) * d.sectorSize = 4096 * 1 := hready.per_block_mul
      have hreplay : fs'.device.bytes = replay d.sectorSize (first.apply d.sectorSize d.bytes) E := by
        rw [hbytes]
        change _ = replay d.sectorSize (splice d.bytes (1 * (4096 / d.sectorSize) * d.sectorSize) _) E
        rw [hoffset]
        rfl
      rw [hkept', hreplay, ← hoffset]
      simp [replay, Event.apply, last]

/-- Every crash during a session on the smallest volume. -/
theorem crash_during_session_smallest :
    ∃ T, Holds smallDisk T ∧ ∃ fs, mount smallDisk = (.ok fs, fs.device) ∧
      ∀ ops fs', runOps ops fs = (.ok (), fs') →
        ∃ sb fs'' T' issued, unmount fs' = (.ok sb, fs'') ∧ Holds fs''.device T' ∧
          fs''.device.log = smallDisk.log ++ issued ∧
          ∀ events image, events <+: issued →
            Survives smallDisk.sectorSize smallDisk.bytes events image →
            (checkDetailed { smallDisk with bytes := image }).1 = Result.fail .dirty ∨
              Holds { smallDisk with bytes := image } T ∨
              Holds { smallDisk with bytes := image } T' := by
  have h := smallDisk_accepted.holds smallDisk_wellFormed rfl rfl
  exact ⟨_, h, crash_during_session smallDisk _ h⟩

/-! ## Formatting -/

def blockEvent (sectorSize : Nat) (w : Nat × List UInt8) : Event :=
  .write (w.1 * (4096 / sectorSize)) w.2

theorem smallDisk_session : ∃ fs,
    runOps [.createFile "/a"]
        (mountedFrom smallDisk (formatSuperblock 32 (Vector.replicate 16 7))) = (.ok (), fs) ∧
      pathsOf fs.view.flat ["a"] = some (.file []) := by
  have hview := mountedFrom_view smallDisk_accepted
  have hfresh : Fresh _ (viewOf _ smallDisk) := smallDisk_new.fresh
  have hnames : pathNames "/a" = ["a"] := by decide
  have hrun : TreeRun emptyTree [.createFile "/a"]
      (Function.update emptyTree (pathNames "/a") (some (.file []))) :=
    .cons (.createFile ⟨by rw [hnames]; rfl, [], "a", hnames, rfl⟩) .nil
  have hadds : ∀ op ∈ [Op.createFile "/a"], op.Adds 512 := by
    intro op hop
    rw [mem_singleton.mp hop]
    exact ⟨("/", "a"), rfl⟩
  rw [← hfresh.paths, ← hview] at hrun
  obtain ⟨fs, hops, hT⟩ := runOps_succeeds
    (mountedFrom_consistent smallDisk_accepted smallDisk_wellFormed)
    (hview ▸ hfresh.light 512) (k := 1)
    ⟨by decide, by decide, by decide, by decide⟩ hadds hrun
  exact ⟨fs, hops, by rw [hT, hnames, Function.update_self]⟩

/-- The volume is mounted, the operations succeed, and it is unmounted. -/
def Completes (ops : List Op) (d : Disk) (fs : NexFs) : Prop :=
  ∃ fs₁ fs₂ sb, mount d = (.ok fs₁, fs₁.device) ∧ runOps ops fs₁ = (.ok (), fs₂) ∧
    unmount fs₂ = (.ok sb, fs)

/-- What a crash on the way from `d` to the device of `fs` can leave on the medium. -/
def CutOff (d : Disk) (fs : NexFs) (image : List UInt8) : Prop :=
  ∃ issued events, fs.device.log = d.log ++ issued ∧ events <+: issued ∧
    Survives d.sectorSize d.bytes events image

/-- The sessions of a volume, one after another. Those marked `false` end in a crash. -/
inductive Lifetime (last : Disk) : Disk → List (List Op × Bool) → Prop
  | nil : Lifetime last last []
  | complete (session : Completes ops first fs) (later : Lifetime last fs.device rest) :
      Lifetime last first ((ops, true) :: rest)
  | crash (session : Completes ops first fs) (left : CutOff first fs image)
      (later : Lifetime last { first with bytes := image } rest) :
      Lifetime last first ((ops, false) :: rest)

/-- The tree that the completed sessions, and some of the others, make of `T`. -/
def Atomic (T : Paths) (sessions : List (List Op × Bool)) (d : Disk) : Prop :=
  ∃ kept T', (sessions.filter Prod.snd).Sublist kept ∧ kept.Sublist sessions ∧
    TreeRun T (kept.flatMap Prod.fst) T' ∧ Holds d T'

variable {ops : List Op} {fs : NexFs} {T : Paths} {image : List UInt8}
  {sessions : List (List Op × Bool)}

theorem TreeRun.append {T T' T'' : Paths} {ops ops' : List Op} (h : TreeRun T ops T')
    (h' : TreeRun T' ops' T'') : TreeRun T (ops ++ ops') T'' := by
  induction h with
  | nil => exact h'
  | cons step _ ih => exact .cons step (ih h')

theorem Holds.accepted (h : Holds d T) :
    ∃ sb, Accepted d sb ∧ WellFormed sb (viewOf sb d) ∧ pathsOf (viewOf sb d).flat = T := by
  obtain ⟨r, hr, hT⟩ := h
  rcases checkDetailed_cases d with ⟨sb, ha, hw, hrun⟩ | ⟨-, e, hrun⟩
  · rw [hrun] at hr
    cases hr
    exact ⟨sb, ha, hw, hT⟩
  · rw [hrun] at hr
    cases hr

theorem Completes.not_dirty (h : Completes ops d fs) :
    (checkDetailed d).1 ≠ Result.fail .dirty := by
  obtain ⟨fs₁, -, -, hmount, -⟩ := h
  obtain ⟨r, d₁, hcheck, -⟩ := Exec.bind_eq_ok hmount
  rw [hcheck]
  nofun

/-- A crash in a session leaves the volume dirty, or as it was, or as the session leaves it. -/
theorem Accepted.crash (ha : Accepted d sb) (hw : WellFormed sb (viewOf sb d))
    (hops : runOps ops (mountedFrom d sb) = (.ok (), fs)) (h : CutOff d (unmountedFrom fs) image) :
    (checkDetailed { d with bytes := image }).1 = Result.fail .dirty ∨ image = d.bytes ∨
      image = (unmountedFrom fs).device.bytes := by
  obtain ⟨issued, events, hlog, hpre, hcrash⟩ := h
  have hc := mountedFrom_consistent ha hw
  have hr : Ready d sb.mounted :=
    ⟨ha.toAligned, ha.ready.valid.mounted, ha.room, ha.ready.total_lt⟩
  have hs := (runOps_ok hc hops).1
  obtain ⟨E, hE, hharmless, hbytes⟩ := hs.events
  have hsector : fs.device.sectorSize = d.sectorSize := hs.sectorSize
  have hissued : (unmountedFrom fs).device.log = d.log ++ blockEvent d.sectorSize
      (1, sb.mounted.record) :: .flush :: (E ++ [.flush] ++
        [blockEvent d.sectorSize (1, fs.superblock.unmounted.record), .flush]) := by
    change fs.device.log ++ [_] ++ [_] ++ [_] = _
    rw [hE]
    change d.log ++ [_] ++ [_] ++ E ++ [_] ++ [_] ++ [_] = _
    simp [blockEvent, flushed, hsector]
  rw [append_cancel_left (hlog.symm.trans hissued)] at hpre
  rcases hcrash.cases (by simp [blockEvent]) hpre with rfl | ⟨kept, hkept, rfl | ⟨rfl, hall⟩⟩
  · exact .inr (.inl rfl)
  · refine .inl ((hr.marked_replay hc.fits fun e he => ?_).check hr hc.fits hc.dirty)
    rcases mem_append.mp (hkept.subset he) with he | he
    · exact hharmless e he
    · cases mem_singleton.mp he
      exact .flush
  · -- everything in front of the clean superblock had to be flushed
    have hkept' : kept = E ++ [.flush] :=
      hkept.eq_of_length_le (hall E [] rfl).length_le
    refine .inr (.inr ?_)
    change _ = splice fs.device.bytes (4096 * 1) fs.superblock.unmounted.record
    rw [hbytes, hkept', ← hr.per_block_mul]
    change _ = splice (replay d.sectorSize (splice d.bytes (4096 * 1) _) E) _ _
    rw [← hr.per_block_mul]
    simp [replay, Event.apply, blockEvent]

theorem Completes.step (hd : Holds d T) (h : Completes ops d fs) :
    ∃ T', TreeRun T ops T' ∧ Holds fs.device T' ∧ ∀ image, CutOff d fs image →
      (checkDetailed { d with bytes := image }).1 = Result.fail .dirty ∨
        Holds { d with bytes := image } T ∨ Holds { d with bytes := image } T' := by
  obtain ⟨sb, ha, hw, rfl⟩ := hd.accepted
  obtain ⟨fs₁, fs₂, sb₂, hmount, hops, hunmount⟩ := h
  cases (mount_run ha hw).symm.trans hmount
  obtain ⟨hs, hc, htree⟩ := runOps_ok (mountedFrom_consistent ha hw) hops
  cases (unmount_run hc.toMounted).symm.trans hunmount
  obtain ⟨ha', hw'⟩ := session_accepted hc (hs.size_lt (mountedFrom_size ha))
  rw [mountedFrom_view ha, ← unmountedFrom_view hc.toMounted] at htree
  refine ⟨_, htree, ha'.holds hw' rfl rfl, fun image hcrash => ?_⟩
  apply (ha.crash hw hops hcrash).imp_right
  rintro (rfl | rfl)
  · exact .inl (ha.holds hw rfl rfl)
  · exact .inr (ha'.holds hw' hs.sectorSize.symm rfl)

theorem Lifetime.dirty {last : Disk} (h : Lifetime last d sessions)
    (hd : (checkDetailed d).1 = Result.fail .dirty) :
    (checkDetailed last).1 = Result.fail .dirty := by
  cases h with
  | nil => exact hd
  | complete session => exact absurd hd session.not_dirty
  | crash session => exact absurd hd session.not_dirty

/-- A volume that can be mounted holds the tree that whole sessions have made, in spite of any
crashes. Every session that was unmounted is among them. -/
theorem sessions_atomic {last : Disk} (hd : Holds d T) (h : Lifetime last d sessions) :
    (checkDetailed last).1 = Result.fail .dirty ∨ Atomic T sessions last := by
  induction h generalizing T with
  | nil => exact .inr ⟨[], T, .slnil, .slnil, .nil, hd⟩
  | complete session _ ih =>
    obtain ⟨T₁, hrun, hT₁, -⟩ := session.step hd
    apply (ih hT₁).imp_right
    rintro ⟨kept, T', hdone, hsub, htree, hT'⟩
    exact ⟨_ :: kept, T', hdone.cons_cons _, hsub.cons_cons _, hrun.append htree, hT'⟩
  | crash session left later ih =>
    obtain ⟨T₁, hrun, -, hcrash⟩ := session.step hd
    rcases hcrash _ left with hdirty | hT | hT₁
    · exact .inl (later.dirty hdirty)
    · apply (ih hT).imp_right
      rintro ⟨kept, T', hdone, hsub, hrest⟩
      exact ⟨kept, T', hdone, hsub.cons _, hrest⟩
    · apply (ih hT₁).imp_right
      rintro ⟨kept, T', hdone, hsub, htree, hT'⟩
      exact ⟨_ :: kept, T', hdone.cons _, hsub.cons_cons _, hrun.append htree, hT'⟩

/-- A file is created on the smallest volume. -/
theorem sessions_atomic_created : ∃ last T, Holds smallDisk T ∧
    Lifetime last smallDisk [([.createFile "/a"], true)] ∧
    ((checkDetailed last).1 = Result.fail .dirty ∨ Atomic T [([.createFile "/a"], true)] last) := by
  obtain ⟨fs, hrun, -⟩ := smallDisk_session
  have hmount := mount_run smallDisk_accepted smallDisk_wellFormed
  have hc := runOps_ok (mountedFrom_consistent smallDisk_accepted smallDisk_wellFormed) hrun
  have hd := smallDisk_accepted.holds smallDisk_wellFormed rfl rfl
  have hlife := Lifetime.complete ⟨_, fs, _, hmount, hrun, unmount_run hc.2.1.toMounted⟩ .nil
  exact ⟨_, _, hd, hlife, sessions_atomic hd hlife⟩

end NexOs.Nexfs
