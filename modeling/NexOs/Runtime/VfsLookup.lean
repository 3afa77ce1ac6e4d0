import NexOs.Runtime.Vfs

/-! How a lookup finds its mount: the tests on bytes are prefixes of component lists. -/
namespace NexOs.Runtime
open List

open NexOs.Runtime.Path (absolute absolute_eq_root)

variable {cs ds es : List (List UInt8)} {α : Type}

/-! ## Bytes and components -/

namespace Path

def components (p : Path) : List (List UInt8) := Segments.segments 47 p.asBytes

def Canonical (p : Path) : Prop :=
  Segments.Proper 47 p.components ∧ p.asBytes = absolute p.components

theorem segments_absolute (h : Segments.Proper 47 cs) :
    Segments.segments 47 (absolute cs) = cs := by
  unfold absolute
  split
  · rename_i hnil
    rw [hnil]
    decide
  · exact Segments.segments_joined h

theorem length_absolute_lt (h : Segments.Proper 47 (cs ++ es)) (hes : es ≠ []) :
    (absolute cs).length < (absolute (cs ++ es)).length := by
  cases cs with
  | nil =>
    cases es with
    | nil => exact absurd rfl hes
    | cons e es =>
      have he := length_pos_iff.mpr (h e mem_cons_self).1
      simp [absolute]
      omega
  | cons c cs =>
    cases es with
    | nil => exact absurd rfl hes
    | cons e es =>
      simp [absolute, Segments.joined_append]

theorem canonical_of_absolute {p : Path} (hproper : Segments.Proper 47 cs)
    (hbytes : p.asBytes = absolute cs) : p.components = cs ∧ p.Canonical := by
  have hcomponents : p.components = cs := by
    rw [components, hbytes, segments_absolute hproper]
  rw [Canonical, hcomponents]
  exact ⟨rfl, hproper, hbytes⟩

theorem segments_stripSlash (h : Segments.Proper 47 cs) :
    Segments.segments 47 (stripSlash (absolute cs)) = cs := by
  have hhead : ∃ rest, absolute cs = 47 :: rest := by
    cases cs with
    | nil => exact ⟨[], rfl⟩
    | cons c cs => exact ⟨c ++ Segments.joined 47 cs, rfl⟩
  obtain ⟨rest, hrest⟩ := hhead
  have hread := segments_absolute h
  rw [hrest] at hread ⊢
  have hsplit : Segments.segments 47 ([] ++ 47 :: rest) = _ := Segments.segments_append_cons
  exact hsplit.symm.trans hread

end Path

theorem any_separator_iff {path mount : List UInt8} :
    (path[mount.length]?).any (fun separator => mount.isPrefixOf path && separator = 47) = true ↔
      ∃ rest, path = mount ++ 47 :: rest := by
  constructor
  · intro hany
    obtain ⟨separator, hget, hboth⟩ := Option.any_eq_true _ _ |>.mp hany
    rw [Bool.and_eq_true, isPrefixOf_iff_prefix, decide_eq_true_iff] at hboth
    obtain ⟨⟨rest, rfl⟩, rfl⟩ := hboth
    rw [getElem?_append_right (Nat.le_refl _), Nat.sub_self] at hget
    cases rest with
    | nil => cases hget
    | cons byte rest =>
      cases hget
      exact ⟨rest, rfl⟩
  · rintro ⟨rest, rfl⟩
    simp

theorem pathHasPrefix_iff (hcs : Segments.Proper 47 cs) (hds : Segments.Proper 47 ds) :
    pathHasPrefix (absolute ds) (absolute cs) = true ↔ cs <+: ds := by
  unfold pathHasPrefix
  rw [Bool.or_eq_true, Bool.or_eq_true, decide_eq_true_iff, decide_eq_true_iff,
    any_separator_iff, absolute_eq_root hcs, or_assoc]
  cases cs with
  | nil => exact iff_of_true (.inl rfl) nil_prefix
  | cons c cs =>
    rw [or_iff_right (cons_ne_nil c cs)]
    cases ds with
    | cons d ds => exact Segments.joined_isPrefix_iff hcs hds
    | nil =>
      -- the root is shorter than every other path
      have hc : c ≠ [] := (hcs c mem_cons_self).1
      refine iff_of_false ?_ (fun hprefix => cons_ne_nil c cs (prefix_nil.mp hprefix))
      rintro (heq | ⟨rest, heq⟩)
      · have hnil := (cons.inj heq).2
        exact hc (append_eq_nil_iff.mp hnil.symm).1
      · have hnil := (cons.inj heq).2
        exact hc (append_eq_nil_iff.mp (append_eq_nil_iff.mp hnil.symm).1).1

theorem segments_relativePath (h : Segments.Proper 47 (cs ++ es)) :
    Segments.segments 47 (relativePath (absolute (cs ++ es)) (absolute cs)) = es := by
  unfold relativePath
  cases cs with
  | nil =>
    exact Path.segments_stripSlash h
  | cons c cs =>
    have hmount : ¬absolute (c :: cs) = [47] :=
      mt (absolute_eq_root h.left).mp (cons_ne_nil c cs)
    have hdrop : (absolute (c :: cs ++ es)).drop (absolute (c :: cs)).length =
        Segments.joined 47 es := by
      change (Segments.joined 47 (c :: cs ++ es)).drop (Segments.joined 47 (c :: cs)).length = _
      rw [Segments.joined_append, drop_left]
    rw [if_neg hmount, hdrop]
    cases es with
    | nil => exact Segments.segments_nil
    | cons e es => exact Path.segments_stripSlash h.right

/-! ## Mounts -/

theorem maxByKey_eq_none {key : α → Nat} : maxByKey key l = none ↔ l = [] := by
  cases l with
  | nil => exact iff_of_true rfl rfl
  | cons a l => exact iff_of_false nofun nofun

theorem maxByKey_eq_some {key : α → Nat} (h : maxByKey key l = some a) :
    a ∈ l ∧ ∀ b ∈ l, key b ≤ key a := by
  cases l with
  | nil => cases h
  | cons first l =>
    cases h
    induction l using reverseRecOn with
    | nil => exact ⟨mem_cons_self, by simp⟩
    | append_singleton l b ih =>
      obtain ⟨hmem, hmax⟩ := ih
      rw [foldl_append, foldl_cons, ← cons_append]
      rw [forall_mem_append, forall_mem_singleton]
      split
      · rename_i hle
        exact ⟨mem_append_right _ mem_cons_self,
          fun c hc => (hmax c hc).trans hle, Nat.le_refl _⟩
      · rename_i hlt
        exact ⟨mem_append_left _ hmem, hmax, Nat.le_of_not_le hlt⟩

namespace Vfs
variable {σ : Type} {v : Vfs σ} {p : Path} {path currentDirectory : List UInt8} {m : Mount σ}

def descend (filesystem : FileSystem σ) (node : NodeMetadata) :
    List (List UInt8) → Exec σ Abi.Error NodeMetadata
  | [] => pure node
  | name :: rest =>
    if node.kind = .directory then do
      let next ← filesystem.lookup node.id name
      descend filesystem next rest
    else
      Exec.fail .notDirectory

theorem walk_eq_descend (filesystem : FileSystem σ) (node : NodeMetadata)
    (components : List (List UInt8)) :
    walk filesystem node components = descend filesystem node (components.filter (· ≠ [])) := by
  induction components generalizing node with
  | nil => rfl
  | cons component components ih =>
    unfold walk
    by_cases hempty : component = []
    · rw [if_pos hempty, ih, filter_cons_of_neg (by simp [hempty])]
    · rw [if_neg hempty, filter_cons_of_pos (by simp [hempty]), descend]
      by_cases hkind : node.kind = .directory
      · rw [if_neg (not_not.mpr hkind), if_pos hkind]
        simp only [ih]
      · rw [if_pos hkind, if_neg hkind]

theorem allCanonical_after (MOUNTS : Nat) (calls : List (Call σ)) :
    (after calls (new σ MOUNTS)).AllPaths Path.Canonical := by
  apply allPaths_after
  intro call _ p hp
  obtain ⟨hbytes, hproper, _⟩ := Path.normalize_eq_ok hp
  exact (Path.canonical_of_absolute hproper hbytes).2

/-- A mount whose components come first in the list, and no other such mount has more. -/
structure Nearest (v : Vfs σ) (names : List (List UInt8)) (m : Mount σ) : Prop where
  mounted : ∃ i, v.slot i = some m
  first : m.path.components <+: names
  longest : ∀ j n, v.slot j = some n → n.path.components <+: names →
    n.path.components.length ≤ m.path.components.length

section
variable (hcanonical : v.AllPaths Path.Canonical) (hds : Segments.Proper 47 ds)
  (hp : p.asBytes = absolute ds)
include hcanonical hds hp

theorem mem_candidates :
    m ∈ v.mounts.reduceOption.filter
        (fun mount => pathHasPrefix p.asBytes mount.path.asBytes) ↔
      (∃ i, v.slot i = some m) ∧ m.path.components <+: ds := by
  rw [mem_filter, Slots.mem_reduceOption]
  refine and_congr_right fun ⟨i, hi⟩ => ?_
  obtain ⟨hproper, hbytes⟩ := hcanonical i m hi
  rw [hp, hbytes]
  exact pathHasPrefix_iff hproper hds

theorem selectMount_eq_none (h : v.selectMount p = none) (hm : v.slot i = some m) :
    ¬m.path.components <+: ds := by
  intro hprefix
  have hmem := (mem_candidates hcanonical hds hp).mpr ⟨⟨i, hm⟩, hprefix⟩
  rw [maxByKey_eq_none.mp h] at hmem
  cases hmem

end

theorem length_components_le {n : Mount σ} (hm : m.path.Canonical) (hn : n.path.Canonical)
    (hmfirst : m.path.components <+: ds) (hnfirst : n.path.components <+: ds)
    (hlength : n.path.asBytes.length ≤ m.path.asBytes.length) :
    n.path.components.length ≤ m.path.components.length := by
  by_contra hlt
  have hprefix : m.path.components <+: n.path.components :=
    prefix_of_prefix_length_le hmfirst hnfirst (Nat.le_of_not_le hlt)
  obtain ⟨rest, hrest⟩ := hprefix
  have hne : rest ≠ [] := by
    rintro rfl
    rw [append_nil] at hrest
    exact hlt (hrest ▸ Nat.le_refl _)
  have hlonger := Path.length_absolute_lt (hrest ▸ hn.1) hne
  rw [hrest, ← hm.2, ← hn.2] at hlonger
  exact absurd hlength (Nat.not_le_of_lt hlonger)

theorem selectMount_eq_some (hcanonical : v.AllPaths Path.Canonical) (hds : Segments.Proper 47 ds)
    (hp : p.asBytes = absolute ds) (h : v.selectMount p = some m) : v.Nearest ds m := by
  obtain ⟨hmem, hmax⟩ := maxByKey_eq_some h
  obtain ⟨⟨i, hi⟩, hfirst⟩ := (mem_candidates hcanonical hds hp).mp hmem
  refine ⟨⟨i, hi⟩, hfirst, ?_⟩
  intro j n hn hnfirst
  have hlength := hmax n ((mem_candidates hcanonical hds hp).mpr ⟨⟨j, hn⟩, hnfirst⟩)
  exact length_components_le (hcanonical i m hi) (hcanonical j n hn) hfirst hnfirst hlength

theorem Nearest.unique (hn : v.Nearest ds n) (hcanonical : v.AllPaths Path.Canonical)
    (hkeyed : v.Keyed) (hm : v.Nearest ds m) : n = m := by
  obtain ⟨i, hi⟩ := hm.mounted
  obtain ⟨j, hj⟩ := hn.mounted
  have hlength : n.path.components.length = m.path.components.length :=
    Nat.le_antisymm (hm.longest j n hj hn.first) (hn.longest i m hi hm.first)
  have hcomponents : n.path.components = m.path.components :=
    (prefix_of_prefix_length_le hn.first hm.first hlength.le).eq_of_length hlength
  have hbytes : n.path.asBytes = m.path.asBytes := by
    rw [(hcanonical j n hj).2, (hcanonical i m hi).2, hcomponents]
  exact (hkeyed.eq_of_bytes hj hi hbytes).2

/-- A path that normalizes is looked up in the mount with the longest list of components that
comes first in its own; that file system is asked for the remaining components one after the
other, from its root. Without such a mount the path is not found. -/
theorem lookup_routes (hcanonical : v.AllPaths Path.Canonical) (hkeyed : v.Keyed)
    (hp : Path.normalize path currentDirectory = .ok p) :
    let names := Path.resolved path currentDirectory
    ((∀ i m, v.slot i = some m → ¬m.path.components <+: names) ∧
      v.lookup path currentDirectory = Exec.fail .notFound) ∨
    ∃ m, v.Nearest names m ∧ (∀ n, v.Nearest names n → n = m) ∧
      v.lookup path currentDirectory = (do
        let root ← m.filesystem.rootNode
        let node ← descend m.filesystem root (names.drop m.path.components.length)
        pure ⟨m.filesystem, node⟩) := by
  intro names
  obtain ⟨hbytes, hproper, _⟩ := Path.normalize_eq_ok hp
  have hlookup : v.lookup path currentDirectory = (do
      let mount ← Exec.okOr (v.selectMount p) .notFound
      let root ← mount.filesystem.rootNode
      let node ← walk mount.filesystem root
        ((relativePath p.asBytes mount.path.asBytes).splitOn 47)
      pure ⟨mount.filesystem, node⟩) := by
    rw [lookup, hp]
    rfl
  rw [hlookup]
  cases hselect : v.selectMount p with
  | none => exact .inl ⟨fun i m hm => selectMount_eq_none hcanonical hproper hbytes hselect hm, rfl⟩
  | some m =>
    have hnearest := selectMount_eq_some hcanonical hproper hbytes hselect
    refine .inr ⟨m, hnearest, ?_, ?_⟩
    · intro n hn
      exact hn.unique hcanonical hkeyed hnearest
    · obtain ⟨i, hi⟩ := hnearest.mounted
      obtain ⟨es, hes⟩ := hnearest.first
      have hrest : Segments.segments 47 (relativePath p.asBytes m.path.asBytes) =
          names.drop m.path.components.length := by
        have hnames : names = m.path.components ++ es := hes.symm
        rw [← hes] at hproper hbytes
        rw [hbytes, (hcanonical i m hi).2, segments_relativePath hproper, hnames, drop_left]
      rw [Exec.okOr_some, pure_bind, ← hrest]
      congr 1
      funext root
      rw [walk_eq_descend]
      rfl

/-- A file system at the root and one at `/dev`: `/device` belongs to the first. -/
theorem lookup_routes_device :
    let v := after [.mount [47] bare, .mount [47, 100, 101, 118] bare] (new Unit 4)
    let path : List UInt8 := [47, 100, 101, 118, 105, 99, 101]
    v.AllPaths Path.Canonical ∧ v.Keyed ∧ ∃ p, Path.normalize path [47] = .ok p ∧
      (((∀ i m, v.slot i = some m → ¬m.path.components <+: Path.resolved path [47]) ∧
        v.lookup path [47] = Exec.fail .notFound) ∨
      ∃ m, v.Nearest (Path.resolved path [47]) m ∧
        (∀ n, v.Nearest (Path.resolved path [47]) n → n = m) ∧
        v.lookup path [47] = (do
          let root ← m.filesystem.rootNode
          let node ← descend m.filesystem root
            ((Path.resolved path [47]).drop m.path.components.length)
          pure ⟨m.filesystem, node⟩)) := by
  intro v path
  have hcanonical : v.AllPaths Path.Canonical := allCanonical_after 4 _
  have hdots : ∀ call ∈ [Call.mount [47] bare, .mount [47, 100, 101, 118] bare],
      [46, 46] ∉ Path.inputComponents call.path [47] := by
    simp only [forall_mem_cons]
    decide
  have hkeyed : v.Keyed := (keyed_of_never_misses (never_misses_of_clean hdots)).last
  have hsome : ∃ p, Path.normalize path [47] = .ok p := by
    have hok : (Path.normalize path [47]).toOption.isSome = true := by decide +kernel
    cases hp : Path.normalize path [47] with
    | ok p => exact ⟨p, rfl⟩
    | error e =>
      rw [hp] at hok
      cases hok
  obtain ⟨p, hp⟩ := hsome
  exact ⟨hcanonical, hkeyed, p, hp, lookup_routes hcanonical hkeyed hp⟩

end Vfs

end NexOs.Runtime
