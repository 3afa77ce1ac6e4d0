import NexOs.Nexfs.Rename

/-! The mounted filesystem refines the tree of paths: an operation that succeeds
keeps the volume consistent and makes its step in the tree. -/
namespace NexOs.Nexfs
open Bytes Storage Function NamedTree NexFs Consistent Exec

def Op.run : Op → Method Unit
  | createFile path => do let _ ← NexFs.createFile path
  | createDir path => do let _ ← NexFs.createDir path
  | writeFile path offset data => do let _ ← NexFs.writeFile path offset data
  | truncate path newSize => NexFs.truncate path newSize
  | remove path => NexFs.remove path
  | rename source destination => NexFs.rename source destination

section
variable {F : Flat} {n : Nat} {P : List String} {name : String} {bytes : List UInt8}

section
variable (hf : follow (childOf F) 1 P = some n)
include hf

theorem pathsOf_of_follow : pathsOf F P = (F n).map nodeOf := by
  rw [pathsOf, hf, Option.bind_some]

theorem pathsOf_none (hc : childOf F n name = none) : pathsOf F (P ++ [name]) = none := by
  rw [pathsOf, follow_concat_of_some hf, hc, Option.bind_none]

theorem vacant_of_lookup (hd : F n = some (.directory, bytes)) (hc : childOf F n name = none) :
    Vacant (pathsOf F) (P ++ [name]) :=
  ⟨pathsOf_none hf hc, P, name, rfl, by rw [pathsOf_of_follow hf, hd]; rfl⟩

end

theorem pathsOf_ne_none (hp : pathsOf F P ≠ none) : ∃ n, follow (childOf F) 1 P = some n ∧
    F n ≠ none := by
  cases hf : follow (childOf F) 1 P with
  | none => simp [pathsOf, hf] at hp
  | some n =>
    refine ⟨n, rfl, fun hn => hp ?_⟩
    rw [pathsOf_of_follow hf, hn]
    rfl

theorem child_of_path (hp : pathsOf F (P ++ [name]) ≠ none) :
    ∃ n m, follow (childOf F) 1 P = some n ∧ childOf F n name = some m := by
  obtain ⟨m, hm, -⟩ := pathsOf_ne_none hp
  rw [follow_concat, Option.bind_eq_some_iff] at hm
  obtain ⟨n, hn, hm⟩ := hm
  exact ⟨n, m, hn, hm⟩

end

def Consistent.tree {fs : NexFs} (h : Consistent fs) : Tree where
  node := pathsOf fs.view.flat
  root := by
    obtain ⟨bytes, hb⟩ := h.linked.root
    rw [pathsOf_of_follow rfl, hb]
    rfl
  parent path name hp := by
    obtain ⟨n, m, hn, hm⟩ := child_of_path hp
    obtain ⟨bytes, hb⟩ := h.linked.dir_of_child hm
    rw [pathsOf_of_follow hn, hb]
    rfl
  name_valid path name hp := by
    obtain ⟨n, m, -, hm⟩ := child_of_path hp
    exact h.linked.valid_of_child hm
  bounded path content hp := by
    obtain ⟨n, hn, -⟩ := pathsOf_ne_none (by rw [hp]; simp)
    rw [pathsOf_of_follow hn] at hp
    obtain ⟨⟨kind, bytes⟩, hF, hnode⟩ := Option.map_eq_some_iff.mp hp
    obtain ⟨I, hI, -, rfl⟩ := View.flat_eq_some.mp hF
    cases kind with
    | directory => cases hnode
    | regular =>
      cases hnode
      rw [h.length_content hI]
      exact h.size_le hI
  finite := by
    -- a path is determined by the inode it leads to
    refine Set.Finite.of_injOn (f := fun path => (follow (childOf fs.view.flat) 1 path).getD 0)
      (t := Set.Iio fs.superblock.slots) ?_ ?_ (Set.finite_Iio _)
    · intro path hp
      obtain ⟨n, hn, hne⟩ := pathsOf_ne_none hp
      simp only [Set.mem_Iio, hn, Option.getD_some]
      exact h.owned.lt_of_flat hne
    · intro p hp q hq heq
      obtain ⟨n, hn, -⟩ := pathsOf_ne_none hp
      obtain ⟨m, hm, -⟩ := pathsOf_ne_none hq
      simp only [hn, hm, Option.getD_some] at heq
      exact h.linked.tree.path_unique hn (heq ▸ hm)

variable {fs fs' : NexFs} {path : String} {d n : Nat} {I : Inode}

variable (h : Consistent fs)
include h

variable {e : DirectoryEntry} {op : Op}

theorem Consistent.create_step (hN : Names fs path d I e.name)
    (hfresh : lookup (entriesAt fs.view.flat d) e.name = none) (hfree : fs.freeInode = some e.inode)
    (hc : Carries fs' (withChild fs.view.flat d e)) :
    Consistent fs' ∧ Vacant (pathsOf fs.view.flat) (pathNames path) ∧
      pathsOf fs'.view.flat =
        update (pathsOf fs.view.flat) (pathNames path) (some (nodeOf (e.kind, []))) := by
  obtain ⟨hn2, hlt, hbit⟩ := freeInode_spec hfree
  have hnone : fs.view.flat e.inode = none := (h.owned.flat_eq_none (by omega)).mpr hbit
  have hslots := h.valid.slots_le
  have hvalid : e.Valid := ⟨by omega, by omega, hN.valid⟩
  obtain ⟨P, hP, hf⟩ := hN.pathNames_eq
  rw [hP, hc.flat]
  exact ⟨hc.consistent (h.linked.create hN.flat hnone hvalid hfresh),
    vacant_of_lookup hf hN.flat hfresh,
    h.linked.pathsOf_create hN.flat hnone hvalid hfresh hf⟩

theorem Consistent.write_step {old new : List UInt8}
    (hf : follow (childOf fs.view.flat) 1 (pathNames path) = some n)
    (hn : fs.view.flat n = some (.regular, old))
    (hc : Carries fs' (update fs.view.flat n (some (.regular, new)))) :
    Consistent fs' ∧ pathsOf fs.view.flat (pathNames path) = some (.file old) ∧
      pathsOf fs'.view.flat =
        update (pathsOf fs.view.flat) (pathNames path) (some (.file new)) := by
  refine ⟨hc.consistent (h.linked.write hn), ?_, ?_⟩
  · rw [pathsOf_of_follow hf, hn]
    rfl
  · rw [hc.flat, h.linked.pathsOf_write hn hf]

theorem Consistent.remove_step {rest : List DirectoryEntry} (hN : Names fs path d I e.name)
    (hp : (entriesAt fs.view.flat d).Perm (e :: rest))
    (hempty : entriesAt fs.view.flat e.inode = [])
    (hc : Carries fs' (withoutChild fs.view.flat d e rest)) :
    Consistent fs' ∧ TreeStep (pathsOf fs.view.flat) (.remove path) (pathsOf fs'.view.flat) := by
  obtain ⟨P, hP, hf⟩ := hN.pathNames_eq
  have hleaf : follow (childOf fs.view.flat) 1 (P ++ [e.name]) = some e.inode :=
    (follow_concat_of_some hf).trans (childOf_entry h.linked hp)
  refine ⟨hc.consistent (h.linked.remove hN.flat hp hempty), ?_⟩
  rw [hc.flat, h.linked.pathsOf_remove hN.flat hp hempty hf, ← hP]
  rw [← hP] at hleaf
  refine .remove ?_ (by rw [hP]; simp) fun name => ?_
  · obtain ⟨bytes, hb⟩ := h.linked.target d e (mem_of_perm_cons hp)
    rw [pathsOf_of_follow hleaf, hb]
    simp
  · exact pathsOf_none hleaf (by rw [childOf, hempty, lookup_nil])

theorem Consistent.rename_step {source destination : String} (hR : Renames fs source destination d₁ I₁ d₂ I₂ e b)
    (hm : Moves fs.view.flat F' d₁ e.name d₂ b e.inode) (hc : Carries fs' F') :
    Consistent fs' ∧ TreeStep (pathsOf fs.view.flat) (.rename source destination)
      (pathsOf fs'.view.flat) := by
  obtain ⟨P, hP, hf⟩ := hR.source.pathNames_eq
  obtain ⟨Q, hQ, hg⟩ := hR.destination.pathNames_eq
  have he : childOf fs.view.flat d₁ e.name = some e.inode :=
    h.linked.childOf_eq_some.mpr ⟨e, hR.entry, rfl, rfl⟩
  refine ⟨hc.consistent (h.linked.moves hm hf he hg hR.vacant hR.outside), ?_⟩
  rw [hc.flat, h.linked.pathsOf_moves hm hf he hg hR.vacant hR.outside, ← hP, ← hQ]
  refine .rename ?_ (by rw [hP]; simp) ?_ ?_
  · obtain ⟨bytes, hb⟩ := h.linked.target d₁ e hR.entry
    rw [hP, pathsOf_of_follow ((follow_concat_of_some hf).trans he), hb]
    simp
  · rw [hQ]
    exact vacant_of_lookup hg hR.destination.flat hR.vacant
  · -- the destination is not below the entry that moves, nor the entry itself
    rw [hP, hQ, List.prefix_concat_iff]
    rintro (heq | hpre)
    · obtain ⟨rfl, hname⟩ := List.append_inj' heq rfl
      cases hname
      rw [hf] at hg
      cases hg
      have := hR.vacant
      rw [← childOf, he] at this
      cases this
    · exact not_prefix_destination hf he hg hR.outside hpre

/-- An operation ends with success or with an error; it neither panics nor
loops. -/
theorem Op.run_step :
    (∃ fs', op.run fs = (.ok (), fs') ∧ Steps fs fs' ∧ Consistent fs' ∧
      TreeStep (pathsOf fs.view.flat) op (pathsOf fs'.view.flat)) ∨
    ∃ e fs', op.run fs = (Result.fail e, fs') := by
  cases op with
  | createFile path =>
    rcases create_run h .regular (show defaultFilePermissions < 2 ^ 16 by decide) with
      ⟨e, fs', hrun⟩ | ⟨d, I, name, n, fs', hN, hfresh, hfree, hrun, hs, hc⟩
    · exact .inr ⟨e, fs', bind_of_error hrun⟩
    · obtain ⟨hcons, hvac, hpaths⟩ := h.create_step (e := ⟨n, .regular, name⟩) hN hfresh hfree hc
      exact .inl ⟨fs', bind_of_ok hrun, hs, hcons, hpaths ▸ .createFile hvac⟩
  | createDir path =>
    rcases create_run h .directory (show defaultDirectoryPermissions < 2 ^ 16 by decide) with
      ⟨e, fs', hrun⟩ | ⟨d, I, name, n, fs', hN, hfresh, hfree, hrun, hs, hc⟩
    · exact .inr ⟨e, fs', bind_of_error hrun⟩
    · obtain ⟨hcons, hvac, hpaths⟩ := h.create_step (e := ⟨n, .directory, name⟩) hN hfresh hfree hc
      exact .inl ⟨fs', bind_of_ok hrun, hs, hcons, hpaths ▸ .createDir hvac⟩
  | writeFile path offset data =>
    rcases writeFile_run h offset with
      ⟨e, fs', hrun⟩ | ⟨n, old, fs', hf, hn, hrun, hs, hc⟩
    · exact .inr ⟨e, fs', bind_of_error hrun⟩
    · obtain ⟨hcons, hfile, hpaths⟩ := h.write_step hf hn hc
      exact .inl ⟨fs', bind_of_ok hrun, hs, hcons, hpaths ▸ .writeFile hfile⟩
  | truncate path newSize =>
    rcases truncate_run h newSize with
      ⟨e, fs', hrun⟩ | ⟨n, old, fs', hf, hn, hrun, hs, hc⟩
    · exact .inr ⟨e, fs', hrun⟩
    · obtain ⟨hcons, hfile, hpaths⟩ := h.write_step hf hn hc
      exact .inl ⟨fs', hrun, hs, hcons, hpaths ▸ .truncate hfile⟩
  | remove path =>
    rcases remove_run h path with
      ⟨e, -, hrun⟩ | ⟨d, I, name, e, rest, fs', hN, rfl, hp, hempty, hrun, hs, hc⟩
    · exact .inr ⟨e, fs, hrun⟩
    · obtain ⟨hcons, hstep⟩ := h.remove_step hN hp hempty hc
      exact .inl ⟨fs', hrun, hs, hcons, hstep⟩
  | rename source destination =>
    rcases rename_run h source destination with
      ⟨e, -, hrun, -⟩ | ⟨d₁, I₁, d₂, I₂, e, b, hR,
        ⟨-, F', fs', hrun, hs, hc, hm⟩ | ⟨-, fs', hrun⟩⟩
    · exact .inr ⟨e, fs, hrun⟩
    · obtain ⟨hcons, hstep⟩ := h.rename_step hR hm hc
      exact .inl ⟨fs', hrun, hs, hcons, hstep⟩
    · exact .inr ⟨_, fs', hrun⟩

theorem Op.run_ok (hrun : op.run fs = (.ok (), fs')) :
    Steps fs fs' ∧ Consistent fs' ∧
      TreeStep (pathsOf fs.view.flat) op (pathsOf fs'.view.flat) := by
  rcases Op.run_step h with ⟨fs₁, hrun₁, hstep⟩ | ⟨e, fs₁, hrun₁⟩
  · rw [hrun₁] at hrun
    cases hrun
    exact hstep
  · rw [hrun₁] at hrun
    cases hrun

end NexOs.Nexfs
