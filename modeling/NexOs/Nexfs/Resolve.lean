import NexOs.Nexfs.TreeEdit

/-! Reading a consistent volume: paths, directories and file contents. -/
namespace NexOs.Nexfs
open List Bytes Storage Function NamedTree Text Exec

/-! ## Paths -/

section
variable {path parent name : String} {s : List Char}

def namesOf (s : List Char) : List String :=
  ((words '/' s).map String.ofList).filter (· ≠ ".")

theorem filter_pieces :
    ((s.splitOn '/').map String.ofList).filter (fun name => name ≠ "" ∧ name ≠ ".") =
      namesOf s := by
  rw [namesOf, words, filter_map, filter_map, filter_filter]
  congr 2
  funext l
  simp [Bool.and_comm]

theorem pathNames_eq : pathNames path = namesOf path.toList := filter_pieces

theorem pathNames_pieces :
    (NexFs.pieces path).filter (fun name => name ≠ "" ∧ name ≠ ".") = pathNames path := by
  rw [NexFs.pieces, filter_pieces, pathNames_eq, namesOf, words_trimMatches, namesOf]

theorem namesOf_trimEndMatches : namesOf (trimEndMatches '/' s) = namesOf s := by
  rw [namesOf, words_trimEndMatches, namesOf]

theorem namesOf_append_cons (t : List Char) : namesOf (s ++ '/' :: t) = namesOf s ++ namesOf t := by
  rw [namesOf, words_append_cons, map_append, filter_append, namesOf, namesOf]

theorem namesOf_root : namesOf ['/'] = [] := by
  decide

theorem namesOf_name (hc : '/' ∉ t) (hv : ValidName (String.ofList t)) :
    namesOf t = [String.ofList t] := by
  have ht : t ≠ [] := by
    rintro rfl
    exact hv (.inl rfl)
  have hdot : String.ofList t ≠ "." := fun h => hv (.inr (.inr (.inl h)))
  rw [namesOf, words_of_notMem hc ht, map_singleton, filter_cons_of_pos (by simpa using hdot)]
  rfl

theorem validName_of_ok (h : validateName name = .ok ()) : ValidName name :=
  ((Result.Decides.ensure _ _).of_eq_ok h).1

theorem splitParent_total :
    (∃ parts, NexFs.splitParent path = .ok parts) ∨
      ∃ e, e ≠ .noSpace ∧ NexFs.splitParent path = Result.fail e := by
  have htop : NexFs.splitParent path = _ ∨ NexFs.splitParent path = _ :=
    Result.ensure_bind_cases _ _
  rcases htop with hrest | hbusy
  · rw [hrest]
    exact (Result.ensure_bind_cases _ _).imp (fun hok => ⟨_, hok⟩)
      fun hinvalid => ⟨.invalidName, by simp, hinvalid⟩
  · exact .inr ⟨.busy, by simp, hbusy⟩

theorem splitParent_names (h : NexFs.splitParent path = .ok (parent, name)) :
    pathNames path = pathNames parent ++ [name] ∧ ValidName name := by
  obtain ⟨-, -, h⟩ := Result.bind_eq_ok h
  obtain ⟨_, hv, h⟩ := Result.bind_eq_ok h
  have hv := validName_of_ok hv
  rw [pathNames_eq, ← namesOf_trimEndMatches]
  cases hr : rsplitOnce '/' (trimEndMatches '/' path.toList) with
  | none =>
    rw [hr] at h hv
    cases h
    refine ⟨?_, hv⟩
    rw [pathNames_eq, String.toList_ofList, namesOf_root, nil_append]
    exact namesOf_name (rsplitOnce_eq_none.mp hr) hv
  | some parts =>
    rw [hr] at h hv
    obtain ⟨hsplit, hafter⟩ := rsplitOnce_eq_some hr
    cases h
    refine ⟨?_, hv⟩
    rw [hsplit, namesOf_append_cons, namesOf_name hafter hv, pathNames_eq, String.toList_ofList]
    congr 1
    dsimp only
    split
    · rename_i hnil
      rw [hnil, namesOf_root]
      rfl
    · rfl

end

/-! ## Reading inodes -/

/-- A mounted volume whose blocks and directories are in order. -/
structure Consistent (fs : NexFs) : Prop extends Mounted fs where
  owned : Owned fs.superblock fs.view
  linked : Linked fs.view.flat

variable {fs : NexFs} {n : Nat}

namespace Consistent
open NexFs

variable {I : Inode}

variable (h : Consistent fs)
include h

variable (hn : fs.view.inode n = some I)
include hn

theorem readInode_run : NexFs.readInode n fs = (.ok I, fs) := by
  obtain ⟨-, hbit, hslot⟩ := View.inode_eq_some.mp hn
  rw [NexFs.readInode_run h.toMounted (h.owned.lt_slots hn) hbit, hslot]

theorem length_content : (fs.view.content I).length = I.size :=
  (h.owned.intact n I hn).length_content h.sized (h.owned.count n I hn)

theorem readDirectory_run (hk : I.kind = .directory) :
    readDirectory I fs = (.ok (entriesAt fs.view.flat n), fs) := by
  have hF := View.flat_of_inode hn
  rw [hk] at hF
  have hm := h.linked.whole n _ hF
  rw [h.length_content hn] at hm
  obtain ⟨entries, hd⟩ := h.linked.decoded n _ hF
  rw [NexFs.readDirectory_run h.toMounted (h.owned.intact n I hn) (h.owned.count n I hn) hk hm, hd,
    entriesAt_dir hF hd]

end Consistent

/-! ## Resolving paths -/

/-- Where the components of a path lead in the directory tree. -/
def walkPath (F : Flat) : Nat → List String → Result FsError Nat
  | n, [] => .ok n
  | n, component :: rest =>
    if component = "" ∨ component = "." then walkPath F n rest
    else if component = ".." then Result.fail .invalidPath
    else if ¬ValidName component then Result.fail .invalidName
    else match F n with
      | some (.directory, _) =>
        match childOf F n component with
        | some m => walkPath F m rest
        | none => Result.fail .notFound
      | _ => Result.fail .notDirectory

section
variable {F : Flat} {n m : Nat} {path : List String}

/-- The errors of looking up a path. -/
def PathError (e : FsError) : Prop :=
  e = .notFound ∨ e = .notDirectory ∨ e = .invalidPath ∨ e = .invalidName

theorem PathError.ne_noSpace (h : PathError e) : e ≠ .noSpace := by
  rcases h with rfl | rfl | rfl | rfl <;> simp

theorem walkPath_total :
    (∃ m, walkPath F n path = .ok m) ∨ ∃ e, PathError e ∧ walkPath F n path = Result.fail e := by
  fun_induction walkPath F n path with
  | case1 n => exact .inl ⟨n, rfl⟩
  | case2 n component rest hskip ih => exact ih
  | case3 => exact .inr ⟨_, .inr (.inr (.inl rfl)), rfl⟩
  | case4 => exact .inr ⟨_, .inr (.inr (.inr rfl)), rfl⟩
  | case5 n component rest _ _ _ _ _ _ _ ih => exact ih
  | case6 => exact .inr ⟨_, .inl rfl, rfl⟩
  | case7 => exact .inr ⟨_, .inr (.inl rfl), rfl⟩

theorem Linked.valid_of_child (h : Linked F) {name : String} (hc : childOf F n name = some m) :
    ValidName name := by
  obtain ⟨e, he, rfl, -⟩ := h.childOf_eq_some.mp hc
  exact (valid_of_mem he).name

theorem Linked.dir_of_child (h : Linked F) {name : String} (hc : childOf F n name = some m) :
    ∃ bytes, F n = some (.directory, bytes) := by
  obtain ⟨e, he, -⟩ := h.childOf_eq_some.mp hc
  exact dir_of_mem he

theorem Linked.walkPath_eq_ok (h : Linked F) (n : Nat) :
    walkPath F n path = .ok m ↔
      follow (childOf F) n (path.filter fun name => name ≠ "" ∧ name ≠ ".") = some m := by
  induction path generalizing n with
  | nil =>
    rw [walkPath, filter_nil, follow, Option.some_inj]
    exact ⟨Except.ok.inj, congrArg _⟩
  | cons component rest ih =>
    rw [walkPath]
    by_cases hskip : component = "" ∨ component = "."
    · rw [if_pos hskip, ih, filter_cons_of_neg]
      rcases hskip with rfl | rfl <;> simp
    have hkeep : component ≠ "" ∧ component ≠ "." := not_or.mp hskip
    rw [if_neg hskip, filter_cons_of_pos (by simpa using hkeep), follow]
    cases hc : childOf F n component with
    | some k =>
      have hv := h.valid_of_child hc
      obtain ⟨bytes, hF⟩ := h.dir_of_child hc
      have hdots : component ≠ ".." := fun hd => hv (.inr (.inr (.inr (.inl hd))))
      rw [if_neg hdots, if_neg (not_not.mpr hv), hF, Option.bind_some]
      exact ih k
    | none =>
      rw [Option.bind_none]
      simp only [reduceCtorEq, iff_false]
      intro hok
      split at hok
      · cases hok
      · split at hok
        · cases hok
        · split at hok <;> cases hok

end

theorem NexFs.resolve_pieces (path : String) : NexFs.resolve path =
    get >>= fun self => NexFs.resolveFrom self.superblock.rootInode (NexFs.pieces path) := by
  funext fs
  rw [NexFs.resolve, get_bind, get_bind]
  split
  · rename_i hnil
    rw [NexFs.pieces, hnil]
    rfl
  · rfl

namespace Consistent
open NexFs

variable (h : Consistent fs)
include h

theorem resolveFrom_run (hn : fs.view.flat n ≠ none) (components : List String) :
    resolveFrom n components fs = (walkPath fs.view.flat n components, fs) := by
  induction components generalizing n with
  | nil => rfl
  | cons component rest ih =>
    rw [resolveFrom, walkPath]
    by_cases hskip : component = "" ∨ component = "."
    · rw [if_pos hskip, if_pos hskip]
      exact ih hn
    rw [if_neg hskip, if_neg hskip]
    by_cases hdots : component = ".."
    · rw [if_pos hdots, ensure_bind_neg (not_not.mpr hdots)]
      rfl
    rw [if_neg hdots, ensure_bind_pos hdots]
    by_cases hv : ValidName component
    case neg =>
      rw [if_pos hv, validateName, Result.ensure_neg hv]
      rfl
    rw [if_neg (not_not.mpr hv), validateName, Result.ensure_pos hv, lift_ok_bind]
    obtain ⟨I, hI⟩ := View.exists_inode hn
    rw [bind_of_ok (h.readInode_run hI), View.flat_of_inode hI]
    cases hk : I.kind with
    | regular => rw [bind_of_error (readDirectory_file hk)]; rfl
    | directory =>
      rw [bind_of_ok (h.readDirectory_run hI hk)]
      cases hc : childOf fs.view.flat n component with
      | none =>
        rw [childOf, lookup, Option.map_eq_none_iff] at hc
        rw [hc]
        rfl
      | some k =>
        have hne := h.linked.target_of_child hc
        rw [childOf, lookup, Option.map_eq_some_iff] at hc
        obtain ⟨e, he, rfl⟩ := hc
        rw [he]
        exact ih hne

theorem rootInode_eq : fs.superblock.rootInode = 1 := h.valid.root_eq

theorem resolve_run (path : String) :
    resolve path fs = (walkPath fs.view.flat 1 (pieces path), fs) := by
  rw [resolve_pieces, get_bind, h.rootInode_eq]
  exact h.resolveFrom_run h.linked.root_ne_none _

theorem walkPath_pieces (path : String) :
    walkPath fs.view.flat 1 (pieces path) = .ok n ↔
      follow (childOf fs.view.flat) 1 (pathNames path) = some n := by
  rw [h.linked.walkPath_eq_ok, pathNames_pieces]

theorem resolve_cases (path : String) :
    (∃ n, resolve path fs = (.ok n, fs) ∧ fs.view.flat n ≠ none ∧
      follow (childOf fs.view.flat) 1 (pathNames path) = some n) ∨
    ∃ e, PathError e ∧ resolve path fs = (Result.fail e, fs) ∧
      follow (childOf fs.view.flat) 1 (pathNames path) = none := by
  rw [h.resolve_run]
  rcases walkPath_total with ⟨n, hn⟩ | ⟨e, he, hwalk⟩
  · have hf := (h.walkPath_pieces path).mp hn
    exact .inl ⟨n, by rw [hn], h.linked.follow_ne_none h.linked.root_ne_none hf, hf⟩
  · refine .inr ⟨e, he, by rw [hwalk], Option.eq_none_iff_forall_ne_some.mpr fun n hn => ?_⟩
    rw [(h.walkPath_pieces path).mpr hn] at hwalk
    cases hwalk

end Consistent

/-! ## The parent of a path -/

namespace NexFs

def lookupName (directory : Nat) (name : String) : Method Nat := do
  let inode ← readInode directory
  let entries ← readDirectory inode
  let entry ← Exec.okOr (entries.find? fun entry => entry.name == name) .notFound
  pure entry.inode

variable {current : Nat}

theorem resolveFrom_filter (components : List String) :
    resolveFrom current (components.filter fun name => name ≠ "" ∧ name ≠ ".") =
      resolveFrom current components := by
  induction components generalizing current with
  | nil => rfl
  | cons component rest ih =>
    by_cases hskip : component = "" ∨ component = "."
    · rw [filter_cons_of_neg (by simpa [or_iff_not_imp_left] using hskip), resolveFrom, if_pos hskip,
        ih]
    · rw [filter_cons_of_pos (by simpa using not_or.mp hskip), resolveFrom, resolveFrom,
        if_neg hskip, if_neg hskip]
      simp only [ih]

theorem resolveFrom_append (before after : List String) :
    resolveFrom current (before ++ after) =
      resolveFrom current before >>= fun n => resolveFrom n after := by
  induction before generalizing current with
  | nil => rfl
  | cons component rest ih =>
    rw [cons_append, resolveFrom, resolveFrom]
    by_cases hskip : component = "" ∨ component = "."
    · rw [if_pos hskip, if_pos hskip, ih]
    · rw [if_neg hskip, if_neg hskip]
      simp only [ih, bind_assoc]

theorem resolve_eq (path : String) : resolve path =
    get >>= fun self => resolveFrom self.superblock.rootInode (pathNames path) := by
  simp only [← pathNames_pieces, resolveFrom_filter]
  exact resolve_pieces path

theorem resolveFrom_name {name : String} (h : ValidName name) :
    resolveFrom current [name] = lookupName current name := by
  have hskip : ¬(name = "" ∨ name = ".") := by
    rintro (rfl | rfl)
    · exact h (.inl rfl)
    · exact h (.inr (.inr (.inl rfl)))
  have hdots : name ≠ ".." := fun hd => h (.inr (.inr (.inr (.inl hd))))
  funext fs
  rw [resolveFrom, if_neg hskip, ensure_bind_pos hdots, validateName, Result.ensure_pos h,
    lift_ok_bind]
  rfl

/-- A path that can be split leads to where its last component does in the directory that the
other ones lead to, with the same errors. -/
theorem splitParent_resolves {path parent name : String} (h : splitParent path = .ok (parent, name))
    (fs : NexFs) :
    resolve path fs = (resolve parent >>= fun directory => lookupName directory name) fs := by
  obtain ⟨hnames, hvalid⟩ := splitParent_names h
  have hlast : ∀ n, resolveFrom n [name] = lookupName n name :=
    fun n => resolveFrom_name hvalid
  rw [resolve_eq path, resolve_eq parent, bind_assoc]
  simp only [hnames, resolveFrom_append, hlast]

/-- Slashes and dots at both ends and between the components. -/
theorem splitParent_resolves_dotted :
    splitParent "//a/.//b/" = .ok ("//a/./", "b") ∧ ∀ fs, resolve "//a/.//b/" fs =
      (resolve "//a/./" >>= fun directory => lookupName directory "b") fs := by
  have hsplit : splitParent "//a/.//b/" = .ok ("//a/./", "b") := by rfl
  exact ⟨hsplit, splitParent_resolves hsplit⟩

end NexFs

end NexOs.Nexfs
