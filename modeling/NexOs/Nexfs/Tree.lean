import NexOs.Lib.NamedTree
import NexOs.Nexfs.Table

/-! The directory tree in the contents of the inodes. -/
namespace NexOs.Nexfs
open List Bytes Storage Function NamedTree

/-- Kind and contents by inode number. -/
abbrev Flat := Nat → Option (FileType × List UInt8)

def lookup (entries : List DirectoryEntry) (name : String) : Option Nat :=
  (entries.find? fun entry => entry.name == name).map DirectoryEntry.inode

variable {e : DirectoryEntry} {name : String} {F : Flat}

section
variable {entries entries' : List DirectoryEntry} {n : Nat}

/-- Two entries of one directory differ in their names. -/
def Distinct (entries : List DirectoryEntry) : Prop :=
  (entries.map DirectoryEntry.name).Nodup

theorem Distinct.eq_of_name (h : Distinct entries) {e e' : DirectoryEntry} (he : e ∈ entries)
    (he' : e' ∈ entries) (hname : e.name = e'.name) : e = e' :=
  inj_on_of_nodup_map h he he' hname

theorem lookup_eq_some (h : Distinct entries) :
    lookup entries name = some n ↔ ∃ e ∈ entries, e.name = name ∧ e.inode = n := by
  rw [lookup, Option.map_eq_some_iff]
  constructor
  · rintro ⟨e, he, rfl⟩
    exact ⟨e, mem_of_find?_eq_some he, by simpa using find?_some he, rfl⟩
  · rintro ⟨e, he, rfl, rfl⟩
    cases hf : entries.find? fun entry => entry.name == e.name with
    | none =>
      have := find?_eq_none.mp hf e he
      simp at this
    | some e' =>
      have hname : e'.name = e.name := by simpa using find?_some hf
      rw [h.eq_of_name he (mem_of_find?_eq_some hf) hname.symm]
      exact ⟨e', rfl, rfl⟩

theorem lookup_eq_none : lookup entries name = none ↔ ∀ e ∈ entries, e.name ≠ name := by
  rw [lookup]
  simp

theorem lookup_nil : lookup [] name = none := rfl

theorem lookup_perm (h : Distinct entries) (hp : entries.Perm entries') :
    lookup entries' name = lookup entries name := by
  have h' : Distinct entries' := (hp.map _).nodup_iff.mp h
  apply Option.ext
  intro k
  simp only [lookup_eq_some h, lookup_eq_some h', hp.mem_iff]

theorem lookup_cons :
    lookup (e :: entries) name = if name = e.name then some e.inode else lookup entries name := by
  by_cases hn : name = e.name
  · rw [if_pos hn, lookup, find?_cons_of_pos (by simp [hn])]
    rfl
  · rw [if_neg hn, lookup, find?_cons_of_neg (by simpa using Ne.symm hn)]
    rfl

end

def entriesAt (F : Flat) (n : Nat) : List DirectoryEntry :=
  match F n with
  | some (.directory, bytes) => (decodeEntries bytes).toOption.getD []
  | _ => []

def childOf (F : Flat) (n : Nat) (name : String) : Option Nat := lookup (entriesAt F n) name

/-- The directories form a tree that reaches every inode. -/
structure Linked (F : Flat) : Prop where
  root : ∃ bytes, F 1 = some (.directory, bytes)
  whole : ∀ n bytes, F n = some (.directory, bytes) → bytes.length % 256 = 0
  decoded : ∀ n bytes, F n = some (.directory, bytes) → ∃ entries, decodeEntries bytes = .ok entries
  names : ∀ n, Distinct (entriesAt F n)
  target : ∀ n, ∀ e ∈ entriesAt F n, ∃ bytes, F e.inode = some (e.kind, bytes)
  tree : Rooted (childOf F) 1
  reached : ∀ n, F n ≠ none → ∃ path, follow (childOf F) 1 path = some n

def nodeOf : FileType × List UInt8 → Node
  | (.regular, bytes) => .file bytes
  | (.directory, _) => .directory

def pathsOf (F : Flat) : Paths := fun path => (follow (childOf F) 1 path).bind fun n =>
  (F n).map nodeOf

section
variable {n m : Nat} {entries : List DirectoryEntry} {bytes : List UInt8}

theorem entriesAt_dir (hF : F n = some (.directory, bytes))
    (hd : decodeEntries bytes = .ok entries) : entriesAt F n = entries := by
  simp [entriesAt, hF, hd, Except.toOption]

theorem entriesAt_update_other {x : Option (FileType × List UInt8)} (h : m ≠ n) :
    entriesAt (update F n x) m = entriesAt F m := by
  rw [entriesAt, update_of_ne h, entriesAt]

theorem entriesAt_update_dir (hv : ∀ e ∈ entries, e.Valid) :
    entriesAt (update F n (some (.directory, encodeEntries entries))) n = entries :=
  entriesAt_dir (update_self ..) (decodeEntries_encodeEntries hv)

theorem decodeEntries_nil : decodeEntries [] = .ok [] := rfl

theorem entriesAt_update_empty (kind : FileType) :
    entriesAt (update F n (some (kind, []))) n = [] := by
  cases kind with
  | regular => simp [entriesAt]
  | directory => exact entriesAt_dir (update_self ..) decodeEntries_nil

theorem entriesAt_file (hF : F n = some (.regular, bytes)) : entriesAt F n = [] := by
  simp [entriesAt, hF]

theorem entriesAt_none (hF : F n = none) : entriesAt F n = [] := by
  simp [entriesAt, hF]

theorem dir_of_mem (he : e ∈ entriesAt F n) : ∃ bytes, F n = some (.directory, bytes) := by
  unfold entriesAt at he
  split at he
  · rename_i bytes hF
    exact ⟨bytes, hF⟩
  · cases he

end

variable {n m k : Nat}

section
variable (h : Linked F)
include h

theorem Linked.childOf_eq_some :
    childOf F n name = some k ↔ ∃ e ∈ entriesAt F n, e.name = name ∧ e.inode = k :=
  lookup_eq_some (h.names n)

theorem Linked.target_of_child (hc : childOf F n name = some k) : F k ≠ none := by
  obtain ⟨e, he, -, rfl⟩ := h.childOf_eq_some.mp hc
  obtain ⟨bytes, hb⟩ := h.target n e he
  rw [hb]
  simp

theorem Linked.follow_ne_none (hn : F n ≠ none) {path : List String}
    (hp : follow (childOf F) n path = some k) : F k ≠ none := by
  induction path generalizing n with
  | nil =>
    cases hp
    exact hn
  | cons a path ih =>
    rw [follow, Option.bind_eq_some_iff] at hp
    obtain ⟨j, hj, hp⟩ := hp
    exact ih (h.target_of_child hj) hp

theorem Linked.root_ne_none : F 1 ≠ none := by
  obtain ⟨bytes, hb⟩ := h.root
  rw [hb]
  simp

theorem Linked.entry_ne_root (he : e ∈ entriesAt F n) : e.inode ≠ 1 := by
  intro h1
  exact h.tree.root_not_child n e.name (h.childOf_eq_some.mpr ⟨e, he, rfl, h1⟩)

theorem Linked.entry_unique (he : e ∈ entriesAt F n)
    (he' : e' ∈ entriesAt F m) (hi : e.inode = e'.inode) : n = m ∧ e = e' := by
  obtain ⟨rfl, hname⟩ := h.tree.unique n m e.name e'.name e.inode
    (h.childOf_eq_some.mpr ⟨e, he, rfl, rfl⟩) (h.childOf_eq_some.mpr ⟨e', he', rfl, hi.symm⟩)
  exact ⟨rfl, (h.names n).eq_of_name he he' hname⟩

end

theorem Linked.child_none_of_file (h : F n = none ∨ ∃ bytes, F n = some (.regular, bytes)) :
    childOf F n name = none := by
  rcases h with h | ⟨bytes, h⟩
  · rw [childOf, entriesAt_none h, lookup_nil]
  · rw [childOf, entriesAt_file h, lookup_nil]

end NexOs.Nexfs
