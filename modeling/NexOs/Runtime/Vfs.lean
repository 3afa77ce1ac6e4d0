import NexOs.Lib.Hoare
import NexOs.Lib.Runs
import NexOs.Lib.Slots
import NexOs.Runtime.Path

/-! The virtual file system: a table of mounts, and how a path finds the mount it belongs to. -/
namespace NexOs.Runtime
open List Exec

structure NodeId where
  value : Nat
  deriving DecidableEq

inductive NodeKind where
  | regularFile
  | directory
  | blockDevice
  | characterDevice
  deriving DecidableEq

structure NodeMetadata where
  id : NodeId
  kind : NodeKind
  size : Nat
  permissions : Nat
  deriving DecidableEq

/-- What the mount table calls of a file system. The file systems may keep a state behind their
shared references. -/
structure FileSystem (σ : Type) where
  root : σ → NodeMetadata × σ
  lookup : NodeId → List UInt8 → Exec σ Abi.Error NodeMetadata

def FileSystem.rootNode {σ : Type} (fs : FileSystem σ) : Exec σ Abi.Error NodeMetadata :=
  fun s => (.ok (fs.root s).1, (fs.root s).2)

structure Mount (σ : Type) where
  path : Path
  filesystem : FileSystem σ

structure ResolvedNode (σ : Type) where
  filesystem : FileSystem σ
  metadata : NodeMetadata

/-- The number of slots is the length of the table, which never changes. -/
structure Vfs (σ : Type) where
  mounts : List (Option (Mount σ))

/-- The last of the elements with the largest key. -/
def maxByKey {α : Type} (key : α → Nat) : List α → Option α
  | [] => none
  | a :: rest => some (rest.foldl (fun best b => if key best ≤ key b then b else best) a)

/-- `path_has_prefix` -/
def pathHasPrefix (path mount : List UInt8) : Bool :=
  mount = [47] || path = mount ||
    (path[mount.length]?).any fun separator => mount.isPrefixOf path && separator = 47

def relativePath (path mount : List UInt8) : List UInt8 :=
  if mount = [47] then
    Path.stripSlash path
  else
    match path.drop mount.length with
    | 47 :: rest => rest
    | _ => []

namespace Vfs
variable {σ : Type}

def new (σ : Type) (MOUNTS : Nat) : Vfs σ := ⟨List.replicate MOUNTS none⟩

def slot (v : Vfs σ) (i : Nat) : Option (Mount σ) := Slots.value v.mounts i

def setSlot (v : Vfs σ) (i : Nat) (mount : Option (Mount σ)) : Vfs σ := ⟨v.mounts.set i mount⟩

def mount (path : List UInt8) (filesystem : FileSystem σ) : Exec (Vfs σ) Abi.Error Unit := do
  let path ← Exec.lift (Path.normalize path [47])
  let v ← Exec.get
  Exec.ensure (¬v.mounts.reduceOption.any fun mount => mount.path = path) .alreadyExists
  let slot ← Exec.okOr (Slots.firstFree v.mounts) .mountLimit
  Exec.modify fun v => v.setSlot slot (some ⟨path, filesystem⟩)

def unmount (path : List UInt8) : Exec (Vfs σ) Abi.Error Unit := do
  let path ← Exec.lift (Path.normalize path [47])
  let v ← Exec.get
  let slot ← Exec.okOr (Slots.firstWhere (fun mount => mount.path = path) v.mounts) .notFound
  Exec.modify fun v => v.setSlot slot none

def selectMount (v : Vfs σ) (path : Path) : Option (Mount σ) :=
  maxByKey (fun mount => mount.path.asBytes.length)
    (v.mounts.reduceOption.filter fun mount => pathHasPrefix path.asBytes mount.path.asBytes)

/-- The loop of `lookup` over the components of the relative path. -/
def walk (filesystem : FileSystem σ) (node : NodeMetadata) :
    List (List UInt8) → Exec σ Abi.Error NodeMetadata
  | [] => pure node
  | component :: rest =>
    if component = [] then
      walk filesystem node rest
    else if node.kind ≠ .directory then
      Exec.fail .notDirectory
    else do
      let next ← filesystem.lookup node.id component
      walk filesystem next rest

def lookup (v : Vfs σ) (path currentDirectory : List UInt8) :
    Exec σ Abi.Error (ResolvedNode σ) := do
  let path ← Exec.lift (Path.normalize path currentDirectory)
  let mount ← Exec.okOr (v.selectMount path) .notFound
  let root ← mount.filesystem.rootNode
  let node ← walk mount.filesystem root
    ((relativePath path.asBytes mount.path.asBytes).splitOn 47)
  pure ⟨mount.filesystem, node⟩

/-! ## Calls -/

inductive Call (σ : Type) where
  | mount (path : List UInt8) (filesystem : FileSystem σ)
  | unmount (path : List UInt8)

def Call.path : Call σ → List UInt8
  | .mount path _ => path
  | .unmount path => path

def perform : Call σ → Exec (Vfs σ) Abi.Error Unit
  | .mount path filesystem => mount path filesystem
  | .unmount path => unmount path

def after (calls : List (Call σ)) (v : Vfs σ) : Vfs σ :=
  calls.foldl (fun v call => (perform call v).2) v

theorem after_concat (calls : List (Call σ)) (call : Call σ) (v : Vfs σ) :
    after (calls ++ [call]) v = (perform call (after calls v)).2 := by
  rw [after, foldl_append]
  rfl

/-! ## Keys -/

variable {v : Vfs σ} {path : List UInt8} {p : Path} {i MOUNTS : Nat} {m : Mount σ} {call : Call σ}
  {P : Path → Prop}

def Keyed (v : Vfs σ) : Prop := Slots.Unique (fun mount => mount.path.asBytes) v.mounts

/-- The call treats every spelling of a mounted path as that path. -/
def Expected (v : Vfs σ) : Call σ → Prop
  | .mount path filesystem => ∀ p, Path.normalize path [47] = .ok p →
    ((mount path filesystem v).1 = .error (.error .alreadyExists) ↔
      ∃ i m, v.slot i = some m ∧ m.path.asBytes = p.asBytes)
  | .unmount path => ∀ p, Path.normalize path [47] = .ok p →
    ∀ i m, v.slot i = some m → m.path.asBytes = p.asBytes →
      unmount path v = (.ok (), v.setSlot i none)

/-- The call names a mounted path whose buffer has other bytes behind the visible part. -/
def Misses (v : Vfs σ) (call : Call σ) : Prop :=
  ∃ p i m, Path.normalize call.path [47] = .ok p ∧ v.slot i = some m ∧
    m.path.asBytes = p.asBytes ∧ m.path ≠ p

def Holds (v : Vfs σ) (p : Path) : Prop := ∃ i m, v.slot i = some m ∧ m.path = p

theorem holds_iff : v.Holds p ↔ ∃ m ∈ v.mounts.reduceOption, m.path = p := by
  simp only [Slots.mem_reduceOption]
  exact ⟨fun ⟨i, m, hi, hp⟩ => ⟨m, ⟨i, hi⟩, hp⟩, fun ⟨m, ⟨i, hi⟩, hp⟩ => ⟨i, m, hi, hp⟩⟩

theorem any_mounts : v.mounts.reduceOption.any (fun mount => mount.path = p) = true ↔
    v.Holds p := by
  rw [any_eq_true, holds_iff]
  simp only [decide_eq_true_iff]

section
variable (hp : Path.normalize path [47] = .ok p)
include hp

variable {filesystem : FileSystem σ}

theorem mount_run (filesystem : FileSystem σ) :
    (v.Holds p ∧ mount path filesystem v = (.error (.error .alreadyExists), v)) ∨
    ¬v.Holds p ∧ ((Slots.firstFree v.mounts = none ∧
        mount path filesystem v = (.error (.error .mountLimit), v)) ∨
      ∃ i, Slots.firstFree v.mounts = some i ∧
        mount path filesystem v = (.ok (), v.setSlot i (some ⟨p, filesystem⟩))) := by
  unfold mount
  rw [hp, lift_ok_bind, get_bind]
  by_cases hholds : v.Holds p
  · rw [ensure_bind_neg (not_not.mpr (any_mounts.mpr hholds))]
    exact .inl ⟨hholds, rfl⟩
  · rw [ensure_bind_pos (mt any_mounts.mp hholds)]
    refine .inr ⟨hholds, ?_⟩
    cases Slots.firstFree v.mounts with
    | none => exact .inl ⟨rfl, rfl⟩
    | some i => exact .inr ⟨i, rfl, rfl⟩

theorem mount_fresh (hnot : ¬v.Holds p) (hi : Slots.firstFree v.mounts = some i) :
    mount path filesystem v = (.ok (), v.setSlot i (some ⟨p, filesystem⟩)) := by
  rcases mount_run hp filesystem with ⟨hholds, _⟩ | ⟨_, ⟨hfull, _⟩ | ⟨j, hj, hrun⟩⟩
  · exact absurd hholds hnot
  · rw [hi] at hfull
    cases hfull
  · rw [hi] at hj
    cases hj
    exact hrun

theorem unmount_run (v : Vfs σ) :
    (¬v.Holds p ∧ unmount path v = (.error (.error .notFound), v)) ∨
    ∃ i m, v.slot i = some m ∧ m.path = p ∧ unmount path v = (.ok (), v.setSlot i none) := by
  unfold unmount
  rw [hp, lift_ok_bind, get_bind]
  cases hfind : Slots.firstWhere (fun mount => mount.path = p) v.mounts with
  | none =>
    refine .inl ⟨?_, rfl⟩
    rintro ⟨i, m, hm, hpath⟩
    have hmiss := Slots.firstWhere_eq_none hfind hm
    exact of_decide_eq_false hmiss hpath
  | some i =>
    obtain ⟨m, hm, hpath⟩ := Slots.firstWhere_eq_some hfind
    exact .inr ⟨i, m, hm, of_decide_eq_true hpath, rfl⟩

end

theorem perform_of_error (h : Path.normalize call.path [47] = .error e) :
    (perform call v).2 = v := by
  cases call with
  | mount path filesystem =>
    rw [Call.path] at h
    rw [perform, mount, h]
    rfl
  | unmount path =>
    rw [Call.path] at h
    rw [perform, unmount, h]
    rfl

theorem Keyed.eq_of_bytes (hkeyed : v.Keyed) (hm : v.slot i = some m)
    (hn : v.slot j = some n) (hbytes : m.path.asBytes = n.path.asBytes) : i = j ∧ m = n := by
  have hij : i = j := hkeyed i j m n hm hn hbytes
  rw [hij, hn] at hm
  exact ⟨hij, (Option.some.inj hm).symm⟩

/-- As long as the mounts show different paths, a call does what is expected exactly when it does
not miss a mount. -/
theorem Keyed.expected_iff (hkeyed : v.Keyed) : v.Expected call ↔ ¬v.Misses call := by
  cases call with
  | mount path filesystem =>
    constructor
    · rintro hexpected ⟨p, i, m, hp, hm, hbytes, hne⟩
      rw [Call.path] at hp
      have herror := (hexpected p hp).mpr ⟨i, m, hm, hbytes⟩
      rcases mount_run hp filesystem with ⟨⟨j, n, hn, rfl⟩, _⟩ | ⟨_, ⟨_, hrun⟩ | ⟨j, _, hrun⟩⟩
      · exact hne (congrArg Mount.path (hkeyed.eq_of_bytes hm hn hbytes).2)
      · rw [hrun] at herror
        cases herror
      · rw [hrun] at herror
        cases herror
    · intro hhits p hp
      have hsame : ∀ i m, v.slot i = some m → m.path.asBytes = p.asBytes → m.path = p := by
        intro i m hm hbytes
        by_contra hne
        exact hhits ⟨p, i, m, hp, hm, hbytes, hne⟩
      rcases mount_run hp filesystem with ⟨⟨j, n, hn, hpath⟩, hrun⟩ | ⟨hnone, hrun⟩
      · rw [hrun]
        exact iff_of_true rfl ⟨j, n, hn, congrArg Path.asBytes hpath⟩
      · refine iff_of_false ?_ ?_
        · rcases hrun with ⟨_, hrun⟩ | ⟨j, _, hrun⟩
          · rw [hrun]
            nofun
          · rw [hrun]
            nofun
        · rintro ⟨i, m, hm, hbytes⟩
          exact hnone ⟨i, m, hm, hsame i m hm hbytes⟩
  | unmount path =>
    constructor
    · rintro hexpected ⟨p, i, m, hp, hm, hbytes, hne⟩
      rw [Call.path] at hp
      have hok := hexpected p hp i m hm hbytes
      rcases unmount_run hp v with ⟨_, hrun⟩ | ⟨j, n, hn, rfl, _⟩
      · rw [hrun] at hok
        cases hok
      · exact hne (congrArg Mount.path (hkeyed.eq_of_bytes hm hn hbytes).2)
    · intro hhits p hp i m hm hbytes
      have hpath : m.path = p := by
        by_contra hne
        exact hhits ⟨p, i, m, hp, hm, hbytes, hne⟩
      rcases unmount_run hp v with ⟨hnone, _⟩ | ⟨j, n, hn, hnpath, hrun⟩
      · exact absurd ⟨i, m, hm, hpath⟩ hnone
      · have hbytes' := congrArg Path.asBytes (hnpath.trans hpath.symm)
        rw [hrun, (hkeyed.eq_of_bytes hn hm hbytes').1]

theorem perform_cases : (perform call v).2 = v ∨
    (∃ p filesystem i, Path.normalize call.path [47] = .ok p ∧ ¬v.Holds p ∧
      Slots.firstFree v.mounts = some i ∧
      (perform call v).2 = v.setSlot i (some ⟨p, filesystem⟩)) ∨
    ∃ i, (perform call v).2 = v.setSlot i none := by
  cases hp : Path.normalize call.path [47] with
  | error e => exact .inl (perform_of_error hp)
  | ok p =>
    cases call with
    | mount path filesystem =>
      rcases mount_run hp filesystem with ⟨_, hrun⟩ | ⟨hnone, ⟨_, hrun⟩ | ⟨i, hi, hrun⟩⟩
      · exact .inl (congrArg Prod.snd hrun)
      · exact .inl (congrArg Prod.snd hrun)
      · exact .inr (.inl ⟨p, filesystem, i, rfl, hnone, hi, congrArg Prod.snd hrun⟩)
    | unmount path =>
      rcases unmount_run hp v with ⟨_, hrun⟩ | ⟨i, m, _, _, hrun⟩
      · exact .inl (congrArg Prod.snd hrun)
      · exact .inr (.inr ⟨i, congrArg Prod.snd hrun⟩)

theorem Keyed.performed (hkeyed : v.Keyed) (hhits : ¬v.Misses call) : (perform call v).2.Keyed := by
  rcases perform_cases with hrun | ⟨p, filesystem, j, hp, hnone, hj, hrun⟩ | ⟨j, hrun⟩
  · rwa [hrun]
  · obtain ⟨hlt, hfree, _⟩ := Slots.firstFree_eq_some hj
    rw [hrun]
    apply (Slots.Unique.insert_iff hkeyed hlt hfree).mpr
    intro i m hm hbytes
    by_cases hpath : m.path = p
    · exact hnone ⟨i, m, hm, hpath⟩
    · exact hhits ⟨p, i, m, hp, hm, hbytes, hpath⟩
  · rw [hrun]
    exact hkeyed.keeps Slots.keeps_set_none

theorem keyed_new : (new σ MOUNTS).Keyed := Slots.unique_replicate

def AllPaths (P : Path → Prop) (v : Vfs σ) : Prop := ∀ i m, v.slot i = some m → P m.path

theorem AllPaths.performed (h : v.AllPaths P)
    (hcall : ∀ p, Path.normalize call.path [47] = .ok p → P p) : (perform call v).2.AllPaths P := by
  rcases perform_cases with hrun | ⟨p, filesystem, j, hp, _, hj, hrun⟩ | ⟨j, hrun⟩
  · rwa [hrun]
  · intro i m hm
    rw [hrun, slot, setSlot, Slots.value_set (Slots.firstFree_eq_some hj).1] at hm
    split at hm
    · cases hm
      exact hcall p hp
    · exact h i m hm
  · intro i m hm
    rw [hrun, slot, setSlot, Slots.value_set_none] at hm
    split at hm
    · cases hm
    · exact h i m hm

theorem allPaths_after (calls : List (Call σ))
    (hcalls : ∀ call ∈ calls, ∀ p, Path.normalize call.path [47] = .ok p → P p) :
    (after calls (new σ MOUNTS)).AllPaths P := by
  induction calls using reverseRecOn with
  | nil =>
    intro i m hm
    rw [after, foldl_nil, slot, new, Slots.value_replicate] at hm
    cases hm
  | append_singleton calls call ih =>
    rw [forall_mem_append, forall_mem_singleton] at hcalls
    rw [after_concat]
    exact (ih hcalls.1).performed hcalls.2

theorem keyed_of_never_misses {calls : List (Call σ)}
    (hnever : Runs.Never (fun before => (after before (new σ MOUNTS)).Misses) calls) :
    Runs.Always (fun before => (after before (new σ MOUNTS)).Keyed) calls := by
  induction calls using reverseRecOn with
  | nil => exact Runs.always_nil.mpr keyed_new
  | append_singleton calls call ih =>
    rw [Runs.never_concat] at hnever
    have hbefore := ih hnever.1
    refine Runs.always_concat.mpr ⟨hbefore, ?_⟩
    rw [after_concat]
    exact hbefore.last.performed hnever.2

theorem never_misses_of_clean {calls : List (Call σ)}
    (hdots : ∀ call ∈ calls, [46, 46] ∉ Path.inputComponents call.path [47]) :
    Runs.Never (fun before => (after before (new σ MOUNTS)).Misses) calls := by
  rintro before call rest rfl ⟨p, i, m, hp, hm, hbytes, hne⟩
  rw [forall_mem_append, forall_mem_cons] at hdots
  have hclean : (after before (new σ MOUNTS)).AllPaths Path.Clean :=
    allPaths_after before fun call hcall _ hok =>
      (Path.normalize_eq_ok hok).2.2 (hdots.1 call hcall)
  exact hne ((hclean i m hm).ext ((Path.normalize_eq_ok hp).2.2 hdots.2.1) hbytes)

/-- The table is keyed by the visible path at every moment, and every call treats all spellings
of a path alike, exactly when no call names a mounted path with another rest of the buffer. Such
a rest is left by `..` only. -/
theorem mounts_keyed_iff (MOUNTS : Nat) (calls : List (Call σ)) :
    ((Runs.Always (fun before => (after before (new σ MOUNTS)).Keyed) calls ∧
        ∀ before call rest, calls = before ++ call :: rest →
          (after before (new σ MOUNTS)).Expected call) ↔
      Runs.Never (fun before => (after before (new σ MOUNTS)).Misses) calls) ∧
    ((∀ call ∈ calls, [46, 46] ∉ Path.inputComponents call.path [47]) →
      Runs.Never (fun before => (after before (new σ MOUNTS)).Misses) calls) := by
  refine ⟨⟨?_, ?_⟩, never_misses_of_clean⟩
  · rintro ⟨hkeyed, hexpected⟩ before call rest heq
    exact ((hkeyed before (call :: rest) heq).expected_iff).mp
      (hexpected before call rest heq)
  · intro hnever
    have hkeyed := keyed_of_never_misses hnever
    refine ⟨hkeyed, ?_⟩
    intro before call rest heq
    exact ((hkeyed before (call :: rest) heq).expected_iff).mpr
      (hnever before call rest heq)

def bare : FileSystem Unit where
  root s := (⟨⟨1⟩, .directory, 0, 0o755⟩, s)
  lookup _ _ := Exec.fail .notFound

def firstFour (path : List UInt8) : Option (List UInt8 × List UInt8) :=
  (Path.normalize path [47]).toOption.map fun p => (p.asBytes, p.bytes.toList.take 4)

theorem normalize_of_firstFour {bytes four : List UInt8} (h : firstFour path = some (bytes, four)) :
    ∃ p, Path.normalize path [47] = .ok p ∧ p.asBytes = bytes ∧
      p.bytes.toList.take 4 = four := by
  obtain ⟨p, hp, hfields⟩ := Option.map_eq_some_iff.mp h
  rw [Prod.mk.injEq] at hfields
  cases hok : Path.normalize path [47] with
  | error e =>
    rw [hok] at hp
    cases hp
  | ok q =>
    rw [hok] at hp
    cases hp
    exact ⟨p, rfl, hfields⟩

/-- `/b` is mounted a second time as `/abc/../b`, and the spelling `/ab/../b` is not found. -/
theorem mounts_not_keyed : let calls : List (Call Unit) := [.mount [47, 98] bare,
      .mount [47, 97, 98, 99, 47, 46, 46, 47, 98] bare]
    let v := after calls (new Unit 4)
    ¬v.Keyed ∧ (v.slot 0).map (fun m => m.path.asBytes) = some [47, 98] ∧
      (v.slot 1).map (fun m => m.path.asBytes) = some [47, 98] ∧
      unmount [47, 97, 98, 47, 46, 46, 47, 98] v = (.error (.error .notFound), v) := by
  obtain ⟨p, hp, hpbytes, hpfour⟩ := normalize_of_firstFour
    (show firstFour [47, 98] = some ([47, 98], [47, 98, 0, 0]) by decide +kernel)
  obtain ⟨q, hq, hqbytes, hqfour⟩ := normalize_of_firstFour
    (show firstFour [47, 97, 98, 99, 47, 46, 46, 47, 98] = some ([47, 98], [47, 98, 98, 99]) by
      decide +kernel)
  obtain ⟨r, hr, hrbytes, hrfour⟩ := normalize_of_firstFour
    (show firstFour [47, 97, 98, 47, 46, 46, 47, 98] = some ([47, 98], [47, 98, 98, 0]) by
      decide +kernel)
  have hpq : p ≠ q := by
    rintro rfl
    rw [hpfour] at hqfour
    cases hqfour
  have hpr : p ≠ r := by
    rintro rfl
    rw [hpfour] at hrfour
    cases hrfour
  have hqr : q ≠ r := by
    rintro rfl
    rw [hqfour] at hrfour
    cases hrfour
  have hone : mount [47, 98] bare (new Unit 4) =
      (.ok (), ⟨[some ⟨p, bare⟩, none, none, none]⟩) := by
    refine mount_fresh (v := new Unit 4) (i := 0) hp (holds_iff.not.mpr ?_) rfl
    simp [new]
  have htwo : mount [47, 97, 98, 99, 47, 46, 46, 47, 98] bare
      ⟨[some ⟨p, bare⟩, none, none, none]⟩ =
        (.ok (), ⟨[some ⟨p, bare⟩, some ⟨q, bare⟩, none, none]⟩) := by
    refine mount_fresh (i := 1) hq (holds_iff.not.mpr ?_) rfl
    simpa using hpq
  have hv : after [.mount [47, 98] bare, .mount [47, 97, 98, 99, 47, 46, 46, 47, 98] bare]
      (new Unit 4) = ⟨[some ⟨p, bare⟩, some ⟨q, bare⟩, none, none]⟩ := by
    rw [after, foldl_cons, foldl_cons, perform, perform, hone, htwo]
    rfl
  dsimp only
  rw [hv]
  refine ⟨?_, congrArg some hpbytes, congrArg some hqbytes, ?_⟩
  · intro hkeyed
    have hsame := hkeyed 0 1 ⟨p, bare⟩ ⟨q, bare⟩ rfl rfl (hpbytes.trans hqbytes.symm)
    exact absurd hsame Nat.zero_ne_one
  · rcases unmount_run hr ⟨[some ⟨p, bare⟩, some ⟨q, bare⟩, none, none]⟩ with ⟨_, hrun⟩ |
      ⟨i, m, hm, hpath, _⟩
    · exact hrun
    · have hholds := holds_iff.mp ⟨i, m, hm, hpath⟩
      simp [hpr, hqr] at hholds

end Vfs

end NexOs.Runtime
