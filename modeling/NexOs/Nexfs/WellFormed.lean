import NexOs.Nexfs.Checker

/-! What a well-formed volume is, in the words of its on-disk structure, and
that the checker accepts exactly those. -/
namespace NexOs.Nexfs
open Bytes Storage Function NamedTree

/-- An inode that the entries lead to from the root. -/
inductive Reachable (F : Flat) : Nat → Prop
  | root : Reachable F 1
  | entry {n : Nat} {e : DirectoryEntry} (hn : Reachable F n) (he : e ∈ entriesAt F n) :
    Reachable F e.inode

/-- The structure a superblock describes. `V.inode` are the allocated inodes,
`V.owned` the data blocks of one together with its indirect block. -/
structure WellFormed (sb : Superblock) (V : View) : Prop where
  reservedInodes : V.inodeBit 0 = true ∧ V.inodeBit 1 = true
  decoded : ∀ n, 1 ≤ n → V.inodeBit n = true → ∃ I, V.slot n = .ok I
  count : ∀ n I, V.inode n = some I →
    I.blockCount = (I.size + 4095) / 4096 ∧ I.blockCount ≤ 524
  unused : ∀ n I, V.inode n = some I → ∀ i, I.blockCount ≤ i → i < 524 → V.pointer I i = 0
  indirect : ∀ n I, V.inode n = some I → I.blockCount ≤ 12 → I.indirectBlock = 0
  range : ∀ n I, V.inode n = some I → ∀ b ∈ V.owned I, sb.dataStartBlock ≤ b ∧ b < sb.totalBlocks
  nodup : ∀ n I, V.inode n = some I → (V.owned I).Nodup
  disjoint : ∀ n m I J, V.inode n = some I → V.inode m = some J → n ≠ m →
    ∀ b ∈ V.owned I, b ∉ V.owned J
  blockBits : ∀ b, V.blockBit b = true ↔
    b < sb.dataStartBlock ∨ ∃ n I, V.inode n = some I ∧ b ∈ V.owned I
  inodeBits : ∀ n, sb.slots ≤ n → V.inodeBit n = false
  root : ∃ I, V.inode 1 = some I ∧ I.kind = .directory
  records : ∀ n I, V.inode n = some I → I.kind = .directory →
    I.size % 256 = 0 ∧ ∃ entries, decodeEntries (V.content I) = .ok entries
  names : ∀ n, ((entriesAt V.flat n).map DirectoryEntry.name).Nodup
  kinds : ∀ n, ∀ e ∈ entriesAt V.flat n, ∃ I, V.inode e.inode = some I ∧ I.kind = e.kind
  rootUnnamed : ∀ n, ∀ e ∈ entriesAt V.flat n, e.inode ≠ 1
  named : ∀ n, n ≠ 1 → V.inode n ≠ none → ∃! p : Nat × DirectoryEntry,
    Reachable V.flat p.1 ∧ p.2 ∈ entriesAt V.flat p.1 ∧ p.2.inode = n

section
variable {sb : Superblock} {V : View} {n : Nat} {d : Disk} {F : Flat}

theorem Linked.reachable (h : Linked F) {path : List String}
    (hp : follow (childOf F) 1 path = some n) : Reachable F n := by
  induction path using List.reverseRecOn generalizing n with
  | nil =>
    cases hp
    exact .root
  | append_singleton path a ih =>
    rw [follow_concat, Option.bind_eq_some_iff] at hp
    obtain ⟨m, hm, hc⟩ := hp
    obtain ⟨e, he, -, rfl⟩ := h.childOf_eq_some.mp hc
    exact .entry (ih hm) he

theorem View.flat_ne_none : V.flat n ≠ none ↔ V.inode n ≠ none := by
  rw [View.flat, contentsOf, Ne, Option.map_eq_none_iff]

theorem Linked.named (h : Linked F) (hn : F n ≠ none) (h1 : n ≠ 1) :
    ∃! p : Nat × DirectoryEntry, Reachable F p.1 ∧ p.2 ∈ entriesAt F p.1 ∧ p.2.inode = n := by
  obtain ⟨path, hp⟩ := h.reached n hn
  cases path using List.reverseRecOn with
  | nil =>
    cases hp
    exact absurd rfl h1
  | append_singleton path a =>
    rw [follow_concat, Option.bind_eq_some_iff] at hp
    obtain ⟨m, hm, hc⟩ := hp
    obtain ⟨e, he, -, rfl⟩ := h.childOf_eq_some.mp hc
    refine ⟨(m, e), ⟨h.reachable hm, he, rfl⟩, ?_⟩
    rintro ⟨m', e'⟩ ⟨-, he', hi⟩
    obtain ⟨rfl, rfl⟩ := h.entry_unique he' he hi
    rfl

theorem WellFormed.of_linked (hs : Sized sb V) (ho : Owned sb V) (hL : Linked V.flat) :
    WellFormed sb V where
  reservedInodes := by
    obtain ⟨I, hI, -⟩ := (Directories.of_linked hs ho hL).root
    exact ⟨ho.reservedInode, (View.inode_eq_some.mp hI).2.1⟩
  decoded := ho.decoded
  count n I hn := ⟨ho.count n I hn, (ho.intact n I hn).count_le⟩
  unused n I hn := (ho.intact n I hn).unused
  indirect n I hn := ho.tight n I hn
  range n I hn := (ho.intact n I hn).range
  nodup n I hn := (ho.intact n I hn).nodup
  disjoint := ho.disjoint
  blockBits b := by
    refine ⟨ho.owner b, ?_⟩
    rintro (hb | ⟨n, I, hn, hb⟩)
    · exact ho.reserved b hb
    · exact (ho.intact n I hn).bits b hb
  inodeBits := ho.inodeBits
  root := (Directories.of_linked hs ho hL).root
  records n I hn hk := by
    refine ⟨(Directories.of_linked hs ho hL).whole n I hn hk, ?_⟩
    exact hL.decoded n _ ((View.flat_of_inode hn).trans (by rw [hk]))
  names := hL.names
  kinds n e he := by
    obtain ⟨bytes, hb⟩ := hL.target n e he
    obtain ⟨I, hI, hk, -⟩ := View.flat_eq_some.mp hb
    exact ⟨I, hI, hk⟩
  rootUnnamed n e he := hL.entry_ne_root he
  named n h1 hn := hL.named (View.flat_ne_none.mpr hn) h1

theorem WellFormed.owned (h : WellFormed sb V) (hfits : ∀ n I, V.slot n = .ok I → I.Fits) :
    Owned sb V where
  intact n I hn := ⟨hfits n I (View.inode_eq_some.mp hn).2.2, (h.count n I hn).2, h.unused n I hn,
    h.range n I hn, h.nodup n I hn, fun b hb => (h.blockBits b).mpr (.inr ⟨n, I, hn, hb⟩)⟩
  tight n I hn := h.indirect n I hn
  count n I hn := (h.count n I hn).1
  disjoint := h.disjoint
  reserved b hb := (h.blockBits b).mpr (.inl hb)
  owner b hb := (h.blockBits b).mp hb
  reservedInode := h.reservedInodes.1
  inodeBits := h.inodeBits
  decoded := h.decoded

section
variable (h : WellFormed sb V)
include h

theorem WellFormed.reachable (hn : V.inode n ≠ none) : Reachable V.flat n := by
  by_cases h1 : n = 1
  · exact h1 ▸ .root
  · obtain ⟨⟨m, e⟩, ⟨hm, he, rfl⟩, -⟩ := h.named n h1 hn
    exact .entry hm he

theorem WellFormed.childOf_eq_some :
    childOf V.flat n a = some k ↔ ∃ e ∈ entriesAt V.flat n, e.name = a ∧ e.inode = k :=
  lookup_eq_some (h.names n)

theorem WellFormed.path (hn : Reachable V.flat n) :
    ∃ path, follow (childOf V.flat) 1 path = some n := by
  induction hn with
  | root => exact ⟨[], rfl⟩
  | @entry m e _ he ih =>
    obtain ⟨path, hp⟩ := ih
    exact ⟨path ++ [e.name], (follow_concat_of_some hp).trans
      (h.childOf_eq_some.mpr ⟨e, he, rfl, rfl⟩)⟩

theorem WellFormed.rooted : Rooted (childOf V.flat) 1 where
  root_not_child n a hc := by
    obtain ⟨e, he, -, h1⟩ := h.childOf_eq_some.mp hc
    exact h.rootUnnamed n e he h1
  unique i j a b k hi hj := by
    obtain ⟨e, he, rfl, rfl⟩ := h.childOf_eq_some.mp hi
    obtain ⟨e', he', rfl, hk⟩ := h.childOf_eq_some.mp hj
    have hdir : ∀ m, ∀ x ∈ entriesAt V.flat m, Reachable V.flat m := by
      intro m x hx
      obtain ⟨bytes, hF⟩ := dir_of_mem hx
      exact h.reachable (View.flat_ne_none.mp (by rw [hF]; simp))
    obtain ⟨I, hI, -⟩ := h.kinds i e he
    obtain ⟨p, -, hp⟩ := h.named e.inode (h.rootUnnamed i e he) (by rw [hI]; simp)
    have h₁ := hp (i, e) ⟨hdir i e he, he, rfl⟩
    have h₂ := hp (j, e') ⟨hdir j e' he', he', hk⟩
    have hsame := h₁.trans h₂.symm
    rw [Prod.mk.injEq] at hsame
    exact ⟨hsame.1, by rw [hsame.2]⟩

theorem WellFormed.linked (hs : Sized sb V) (ho : Owned sb V) : Linked V.flat where
  root := by
    obtain ⟨I, hI, hk⟩ := h.root
    exact ⟨_, (View.flat_of_inode hI).trans (by rw [hk])⟩
  whole n bytes hF := by
    obtain ⟨I, hI, hk, rfl⟩ := View.flat_eq_some.mp hF
    rw [(ho.intact n I hI).length_content hs (ho.count n I hI)]
    exact (h.records n I hI hk).1
  decoded n bytes hF := by
    obtain ⟨I, hI, hk, rfl⟩ := View.flat_eq_some.mp hF
    exact (h.records n I hI hk).2
  names := h.names
  target n e he := by
    obtain ⟨I, hI, hk⟩ := h.kinds n e he
    exact ⟨_, (View.flat_of_inode hI).trans (by rw [hk])⟩
  tree := h.rooted
  reached n hn := h.path (h.reachable (View.flat_ne_none.mp hn))

end

theorem Ready.wellFormed_iff (h : Ready d sb) : WellFormed sb (viewOf sb d) ↔
    Owned sb (viewOf sb d) ∧ Linked (viewOf sb d).flat := by
  constructor
  · intro hw
    have ho := hw.owned fun _ _ => fits_of_slot
    exact ⟨ho, hw.linked h.sized ho⟩
  · rintro ⟨ho, hL⟩
    exact .of_linked h.sized ho hL

theorem Accepted.check_ok (h : Accepted d sb) (hw : WellFormed sb (viewOf sb d)) :
    checkDetailed d = (.ok (reportOf sb d), d) :=
  (checkDetailed_accepted h).run_ok (h.ready.wellFormed_iff.mp hw)

theorem checkDetailed_cases (d : Disk) :
    (∃ sb, Accepted d sb ∧ WellFormed sb (viewOf sb d) ∧
      checkDetailed d = (.ok (reportOf sb d), d)) ∨
    ((∀ sb, Accepted d sb → ¬WellFormed sb (viewOf sb d)) ∧
      ∃ e, checkDetailed d = (.error (.error e), d)) := by
  by_cases hex : ∃ sb, Accepted d sb
  case neg =>
    exact .inr ⟨fun sb hsb => absurd ⟨sb, hsb⟩ hex, checkDetailed_rejected (not_exists.mp hex)⟩
  obtain ⟨sb, hsb⟩ := hex
  obtain ⟨x, hx, ⟨hgood, rfl⟩ | ⟨hbad, e, rfl⟩⟩ := checkDetailed_accepted hsb
  · exact .inl ⟨sb, hsb, hsb.ready.wellFormed_iff.mpr hgood, hx⟩
  · refine .inr ⟨fun sb' hsb' hw => hbad ?_, e, hx⟩
    cases hsb.decoded.symm.trans hsb'.decoded
    exact hsb.ready.wellFormed_iff.mp hw

theorem WellFormed.allocated_pos (h : WellFormed sb V) (hv : sb.Valid) :
    0 < sb.inodeNumbers.countP V.inodeBit := by
  have hslots := hv.slots_ge
  exact List.countP_pos_iff.mpr
    ⟨1, mem_inodeNumbers.mpr ⟨Nat.le_refl 1, by omega⟩, h.reservedInodes.2⟩

end

/-- `check_detailed` on any device: it always returns, never panics and changes
nothing; it accepts exactly the clean and well-formed volumes that fit the
device; and its report counts what is there. -/
theorem checkDetailed_exact (d : Disk) :
    (checkDetailed d).1.Total ∧ (checkDetailed d).2 = d ∧
    ((∃ r, (checkDetailed d).1 = .ok r) ↔ ∃ sb, Accepted d sb ∧ WellFormed sb (viewOf sb d)) ∧
    ∀ r, (checkDetailed d).1 = .ok r →
      Accepted d r.superblock ∧
      r.allocatedInodes = r.files + r.directories ∧
      r.allocatedInodes = r.directoryEntries + 1 ∧
      r.allocatedBlocks = r.superblock.dataStartBlock +
        (claimed (viewOf r.superblock d) r.superblock.inodeNumbers).length := by
  rcases checkDetailed_cases d with ⟨sb, hsb, hw, hrun⟩ | ⟨hnone, e, hrun⟩
  · rw [hrun]
    refine ⟨.inl ⟨_, rfl⟩, rfl, ⟨fun _ => ⟨sb, hsb, hw⟩, fun _ => ⟨_, rfl⟩⟩, fun r hr => ?_⟩
    cases hr
    have hpos := hw.allocated_pos hsb.ready.valid
    have ho := (hsb.ready.wellFormed_iff.mp hw).1
    exact ⟨hsb, ho.allocatedInodes, (Nat.sub_add_cancel hpos).symm, rfl⟩
  · rw [hrun]
    refine ⟨.inr ⟨e, rfl⟩, rfl, ⟨fun ⟨_, hr⟩ => (nomatch hr), fun ⟨sb, hsb, hw⟩ => ?_⟩,
      fun _ hr => nomatch hr⟩
    exact absurd hw (hnone sb hsb)

end NexOs.Nexfs
