import NexOs.Nexfs.Operations

/-! Removing and renaming: the operations that take an entry out of a directory. -/
namespace NexOs.Nexfs
open List Bytes Storage Function NamedTree NexFs Consistent Exec
open scoped List

section
variable {entries : List DirectoryEntry} {name : String} {e : DirectoryEntry} {i : Nat}

theorem findEntry_some (h : findEntry entries name = some (i, e)) :
    entries[i]? = some e ∧ e.name = name := by
  rw [findEntry, Option.bind_eq_some_iff] at h
  obtain ⟨k, hk, h⟩ := h
  obtain ⟨x, hx, hpair⟩ := Option.map_eq_some_iff.mp h
  cases hpair
  refine ⟨hx, ?_⟩
  obtain ⟨hlt, hname, -⟩ := findIdx?_eq_some_iff_getElem.mp hk
  rw [getElem?_eq_getElem hlt, Option.some_inj] at hx
  rw [← hx]
  simpa using hname

theorem findEntry_none (h : findEntry entries name = none) : lookup entries name = none := by
  rw [findEntry, Option.bind_eq_none_iff] at h
  cases hk : entries.findIdx? fun entry => entry.name == name with
  | none =>
    rw [findIdx?_eq_none_iff] at hk
    rw [lookup_eq_none]
    intro x hx hname
    simpa [hname] using hk x hx
  | some k =>
    obtain ⟨hlt, -⟩ := findIdx?_eq_some_iff_getElem.mp hk
    simpa [getElem?_eq_getElem hlt] using h k hk

variable (h : entries[i]? = some e)
include h

theorem perm_eraseIdx : entries.Perm (e :: entries.eraseIdx i) := by
  obtain ⟨hlt, rfl⟩ := List.getElem?_eq_some_iff.mp h
  exact (getElem_cons_eraseIdx_perm hlt).symm

theorem perm_set (e' : DirectoryEntry) : (entries.set i e').Perm (e' :: entries.eraseIdx i) := by
  obtain ⟨hlt, -⟩ := List.getElem?_eq_some_iff.mp h
  exact set_perm_cons_eraseIdx hlt e'

theorem perm_swapRemove : entries.Perm (e :: swapRemove entries i) := by
  cases entries using reverseRecOn with
  | nil => cases h
  | append_singleton init last =>
    rw [swapRemove, getLast?_concat]
    dsimp only
    by_cases hi : i < init.length
    · rw [getElem?_append_left hi] at h
      rw [set_append_left _ _ hi, dropLast_concat]
      calc init ++ [last] ~ last :: init := perm_append_comm
        _ ~ last :: e :: init.eraseIdx i := (perm_eraseIdx h).cons last
        _ ~ e :: last :: init.eraseIdx i := Perm.swap ..
        _ ~ e :: init.set i last := (perm_set h last).symm.cons e
    · -- the entry is the last one, and goes with it
      have hlast : i - init.length = 0 := by
        have := (List.getElem?_eq_some_iff.mp h).1
        rw [length_append, length_singleton] at this
        omega
      rw [getElem?_append_right (by omega), hlast] at h
      cases h
      rw [set_append_right _ _ (by omega), hlast, set_cons_zero, dropLast_concat]
      exact perm_append_comm

theorem length_swapRemove : (swapRemove entries i).length + 1 = entries.length := by
  rw [(perm_swapRemove h).length_eq, length_cons]

end

variable {fs : NexFs}

theorem Consistent.entries_of_kind (h : Consistent fs)
    (hT : fs.view.inode n = some T) {β : Type} (f : List DirectoryEntry → Method β) :
    (if T.kind = .directory then readDirectory T >>= f else pure [] >>= f) fs =
      f (entriesAt fs.view.flat n) fs := by
  cases hk : T.kind with
  | directory =>
    exact bind_of_ok (h.readDirectory_run hT hk)
  | regular =>
    have hF := View.flat_of_inode hT
    rw [hk] at hF
    rw [if_neg (by simp), pure_bind_run, entriesAt_file hF]

theorem remove_run (h : Consistent fs) (path : String) :
    (∃ e, e ≠ .noSpace ∧ remove path fs = (Result.fail e, fs)) ∨
    ∃ d I name e rest fs', Names fs path d I name ∧ e.name = name ∧
      (entriesAt fs.view.flat d).Perm (e :: rest) ∧ entriesAt fs.view.flat e.inode = [] ∧
      remove path fs = (.ok (), fs') ∧ Steps fs fs' ∧
      Carries fs' (withoutChild fs.view.flat d e rest) := by
  unfold remove
  rcases h.parent_cases with ⟨e, he, hsplit, -⟩ |
    ⟨parent, name, hsplit, hv, ⟨e, he, hres, -⟩ | ⟨d, I, hres, hI, hnames, -⟩⟩
  · exact .inl ⟨e, he, by rw [hsplit]; rfl⟩
  · exact .inl ⟨e, he, by rw [hsplit, lift_ok_bind]; exact bind_of_error hres⟩
  have hname : ¬(d = fs.superblock.rootInode ∧ name = "") := fun hc => hv (.inl hc.2)
  rw [hsplit, lift_ok_bind, bind_of_ok hres, get_bind, ensure_bind_pos hname,
    bind_of_ok (h.readInode_run hI)]
  cases hk : I.kind with
  | regular => exact .inl ⟨_, by simp, bind_of_error (readDirectory_file hk)⟩
  | directory =>
  have hN := hnames hk
  rw [bind_of_ok (h.readDirectory_run hI hk)]
  cases hfound : findEntry (entriesAt fs.view.flat d) name with
  | none => exact .inl ⟨.notFound, by simp, rfl⟩
  | some found =>
  obtain ⟨i, e⟩ := found
  obtain ⟨hget, hename⟩ := findEntry_some hfound
  have hperm := perm_swapRemove hget
  have hmem : e ∈ entriesAt fs.view.flat d := mem_of_perm_cons hperm
  rw [okOr_some, pure_bind_run, h.rootInode_eq, ensure_bind_pos (h.linked.entry_ne_root hmem)]
  obtain ⟨bytes, htarget⟩ := h.linked.target d e hmem
  obtain ⟨T, hT, hTk, -⟩ := View.flat_eq_some.mp htarget
  rw [bind_of_ok (h.readInode_run hT)]
  rw [h.entries_of_kind hT]
  dsimp only
  by_cases hempty : entriesAt fs.view.flat e.inode = []
  case neg => exact .inl ⟨.directoryNotEmpty, by simp, ensure_bind_neg hempty ..⟩
  have hne : e.inode ≠ d := inode_ne_of_empty hperm hempty
  have hlen := h.length_entriesAt d
  have hlen' := length_swapRemove hget
  rw [ensure_bind_pos hempty]
  obtain ⟨I', fs₁, hrun₁, hs₁, hput⟩ := h.carries.replaceDirectory_run hI hk
    (valid_rest hperm) (by omega) (h.room_of_le hI hk (by omega))
  obtain ⟨t, fs₂, hrun₂, ht, hs₂, hv₂⟩ := nextTimestamp_run
  obtain ⟨fs₃, J, hrun₃, hs₃, hc₃, hinode⟩ := hput hs₂ hv₂ ht
  have hT₃ : fs₃.view.inode e.inode = some T := by rw [hinode, update_of_ne hne, hT]
  obtain ⟨T', fs₄, fs₅, fs₆, hrun₄, hrun₅, hrun₆, hs₆, hc₆⟩ := hc₃.eraseInode_run hT₃
  obtain ⟨fs₇, hrun₇, hs₇, hc₇⟩ := hc₆.finishMutation_run
  refine .inr ⟨d, I, name, e, _, fs₇, hN, hename, hperm, hempty, ?_, (hs₃.trans hs₆).trans hs₇, hc₇⟩
  rw [bind_of_ok hrun₁, bind_of_ok hrun₂, bind_of_ok hrun₃, bind_of_ok hrun₄,
    bind_of_ok hrun₅, bind_of_ok hrun₆, hrun₇]

/-- The checks of `rename` pass: the entry `e` of directory `d₁` can become the
child `b` of directory `d₂`. -/
structure CanMove (fs : NexFs) (d₁ : Nat) (I₁ : Inode) (d₂ : Nat) (I₂ : Inode)
    (e : DirectoryEntry) (b : String) : Prop where
  kind₁ : I₁.kind = .directory
  kind₂ : I₂.kind = .directory
  entry : e ∈ entriesAt fs.view.flat d₁
  vacant : lookup (entriesAt fs.view.flat d₂) b = none
  outside : ∀ path, follow (childOf fs.view.flat) e.inode path ≠ some d₂

/-- What two paths ask `rename` to do. -/
structure Renames (fs : NexFs) (source destination : String) (d₁ : Nat) (I₁ : Inode) (d₂ : Nat)
    (I₂ : Inode) (e : DirectoryEntry) (b : String) : Prop extends CanMove fs d₁ I₁ d₂ I₂ e b where
  source : Names fs source d₁ I₁ e.name
  destination : Names fs destination d₂ I₂ b

structure Full (fs : NexFs) (d₁ d₂ : Nat) (I₂ : Inode) : Prop where
  ne : d₁ ≠ d₂
  supported : (entriesAt fs.view.flat d₂).length + 1 ≤ 8384
  short : Short fs I₂ (dataBlocksForSize (256 * ((entriesAt fs.view.flat d₂).length + 1)))

variable {d d₁ d₂ : Nat} {I I₁ I₂ : Inode} {entries₁ entries₂ : List DirectoryEntry}

variable (h : Consistent fs)
include h

theorem renameWithin_run (hd : fs.view.inode d = some I) (hk : I.kind = .directory)
    (hv : ∀ e ∈ entries₁, e.Valid) (hlen : entries₁.length = (entriesAt fs.view.flat d).length) :
    ∃ fs', renameWithin d I entries₁ fs = (.ok (), fs') ∧ Steps fs fs' ∧
      Carries fs' (withEntries fs.view.flat d entries₁) := by
  have hmax := h.length_entriesAt d
  obtain ⟨I', fs₁, hrun₁, -, hput⟩ := h.carries.replaceDirectory_run hd hk hv (by omega)
    (h.room_of_le hd hk (by omega))
  obtain ⟨t, fs₂, hrun₂, ht, hs₂, hv₂⟩ := nextTimestamp_run
  obtain ⟨fs₃, J, hrun₃, hs₃, hc₃, -⟩ := hput hs₂ hv₂ ht
  obtain ⟨fs₄, hrun₄, hs₄, hc₄⟩ := hc₃.finishMutation_run
  refine ⟨fs₄, ?_, hs₃.trans hs₄, hc₄⟩
  rw [renameWithin, bind_of_ok hrun₁, bind_of_ok hrun₂, bind_of_ok hrun₃, hrun₄]

theorem renameAcross_run (hne : d₁ ≠ d₂) (hd₁ : fs.view.inode d₁ = some I₁)
    (hk₁ : I₁.kind = .directory) (hd₂ : fs.view.inode d₂ = some I₂) (hk₂ : I₂.kind = .directory)
    (hv₁ : ∀ e ∈ entries₁, e.Valid) (hv₂ : ∀ e ∈ entries₂, e.Valid)
    (hlen₁ : entries₁.length ≤ (entriesAt fs.view.flat d₁).length) (hlen₂ : entries₂.length ≤ 8384)
    (hroom : footprint (dataBlocksForSize (256 * entries₂.length)) ≤
      (fs.view.freeBlocks fs.superblock).card + footprint I₂.blockCount) :
    ∃ fs', renameAcross d₂ I₂ entries₂ d₁ I₁ entries₁ fs = (.ok (), fs') ∧ Steps fs fs' ∧
      Carries fs' (withEntries (withEntries fs.view.flat d₂ entries₂) d₁ entries₁) := by
  have hmax := h.length_entriesAt d₁
  obtain ⟨I₂', fs₁, hrun₁, -, hput₂⟩ := h.carries.replaceDirectory_run hd₂ hk₂ hv₂ hlen₂ hroom
  obtain ⟨t, fs₂, hrun₂, ht, hs₂, hview₂⟩ := nextTimestamp_run
  obtain ⟨fs₃, J, hrun₃, hs₃, hc₃, hinode⟩ := hput₂ hs₂ hview₂ ht
  have hd₁' : fs₃.view.inode d₁ = some I₁ := by rw [hinode, update_of_ne hne, hd₁]
  have hmono := footprint_mono (dataBlocksForSize_mono (Nat.mul_le_mul_left 256 hlen₁))
  rw [← h.size_eq hd₁ hk₁, ← h.owned.count d₁ I₁ hd₁] at hmono
  obtain ⟨I₁', fs₄, hrun₄, hs₄, hput₁⟩ := hc₃.replaceDirectory_run hd₁' hk₁ hv₁ (by omega)
    (by omega)
  obtain ⟨fs₅, J', hrun₅, hs₅, hc₅, -⟩ := hput₁ (.refl (hs₄.mounted hc₃.toMounted)) rfl ht
  obtain ⟨fs₆, hrun₆, hs₆, hc₆⟩ := hc₅.finishMutation_run
  refine ⟨fs₆, ?_, (hs₃.trans hs₅).trans hs₆, hc₆⟩
  rw [renameAcross, bind_of_ok hrun₁, bind_of_ok hrun₂, bind_of_ok hrun₃,
    bind_of_ok hrun₄, bind_of_ok hrun₅, hrun₆]

/-- The two parents of a `rename`, read as one sequence whether or not they are
the same directory. -/
theorem Consistent.destination_inode (hd₁ : fs.view.inode d₁ = some I₁)
    (hd₂ : fs.view.inode d₂ = some I₂) {β : Type} (f : Inode → Method β) :
    (if d₂ = d₁ then pure I₁ >>= f else NexFs.readInode d₂ >>= f) fs = f I₂ fs := by
  by_cases heq : d₂ = d₁
  · subst heq
    rw [hd₁] at hd₂
    cases hd₂
    rw [if_pos rfl, pure_bind_run]
  · rw [if_neg heq, bind_of_ok (h.readInode_run hd₂)]

theorem Consistent.destination_entries (hd₂ : fs.view.inode d₂ = some I₂)
    (hk₂ : I₂.kind = .directory) {β : Type} (f : List DirectoryEntry → Method β) :
    (if d₂ = d₁ then pure (entriesAt fs.view.flat d₁) >>= f else readDirectory I₂ >>= f) fs =
      f (entriesAt fs.view.flat d₂) fs := by
  by_cases heq : d₂ = d₁
  · rw [if_pos heq, pure_bind_run, heq]
  · rw [if_neg heq, bind_of_ok (h.readDirectory_run hd₂ hk₂)]

theorem Consistent.inside_run (he : e ∈ entriesAt fs.view.flat d₁)
    (hd₂ : fs.view.inode d₂ = some I₂) (hk₂ : I₂.kind = .directory) : ∃ b, (b = true ↔ ∃ path,
        follow (childOf fs.view.flat) e.inode path = some d₂) ∧
      ∀ {β : Type} (f : Bool → Method β), (if e.kind = .directory then
        directoryContains e.inode d₂ >>= f else pure false >>= f) fs = f b fs := by
  obtain ⟨bytes, ht⟩ := h.linked.target d₁ e he
  cases hk : e.kind with
  | directory =>
    rw [hk] at ht
    obtain ⟨b, hrun, hb⟩ := h.directoryContains_run ht
    exact ⟨b, hb, fun f => by rw [if_pos rfl, bind_of_ok hrun]⟩
  | regular =>
    rw [hk] at ht
    refine ⟨false, ?_, fun f => by rw [if_neg (by simp), pure_bind_run]⟩
    simp only [Bool.false_eq_true, false_iff, not_exists]
    intro path hpath
    cases path with
    | nil =>
      cases hpath
      rw [View.flat_of_inode hd₂, hk₂] at ht
      cases ht
    | cons a path =>
      rw [follow, Linked.child_none_of_file (.inr ⟨bytes, ht⟩)] at hpath
      cases hpath

/-- The ways in which `rename` ends once both parents are known. -/
theorem renameEntry_run (hb : ValidName b) (hd₁ : fs.view.inode d₁ = some I₁)
    (hd₂ : fs.view.inode d₂ = some I₂) :
    (∃ x, x ≠ .noSpace ∧ renameEntry d₁ a d₂ b fs = (Result.fail x, fs) ∧
      ∀ e, e.name = a → CanMove fs d₁ I₁ d₂ I₂ e b → ¬Full fs d₁ d₂ I₂) ∨
    ∃ e, e.name = a ∧ CanMove fs d₁ I₁ d₂ I₂ e b ∧
      ((¬Full fs d₁ d₂ I₂ ∧ ∃ F' fs', renameEntry d₁ a d₂ b fs = (.ok (), fs') ∧ Steps fs fs' ∧
        Carries fs' F' ∧ Moves fs.view.flat F' d₁ e.name d₂ b e.inode) ∨
      (Full fs d₁ d₂ I₂ ∧ ∃ fs', renameEntry d₁ a d₂ b fs = (Result.fail .noSpace, fs'))) := by
  unfold renameEntry
  rw [bind_of_ok (h.readInode_run hd₁)]
  by_cases hk₁ : I₁.kind = .directory
  case neg =>
    have hfile : I₁.kind = .regular := by cases hk : I₁.kind <;> simp_all
    exact .inl ⟨_, by simp, bind_of_error (readDirectory_file hfile),
      fun e _ hm => absurd hm.kind₁ hk₁⟩
  rw [bind_of_ok (h.readDirectory_run hd₁ hk₁)]
  cases hfound : findEntry (entriesAt fs.view.flat d₁) a with
  | none =>
    refine .inl ⟨.notFound, by simp, rfl, fun e hname hm => ?_⟩
    exact absurd hname (lookup_eq_none.mp (findEntry_none hfound) e hm.entry)
  | some found =>
  obtain ⟨i, e⟩ := found
  obtain ⟨hget, hname⟩ := findEntry_some hfound
  have hperm := perm_swapRemove hget
  have he : e ∈ entriesAt fs.view.flat d₁ := mem_of_perm_cons hperm
  have hsame : ∀ {e'}, e'.name = a → CanMove fs d₁ I₁ d₂ I₂ e' b → e' = e := fun hname' hm =>
    (h.linked.names d₁).eq_of_name hm.entry he (hname'.trans hname.symm)
  rw [okOr_some, pure_bind_run, get_bind, h.rootInode_eq,
    ensure_bind_pos (h.linked.entry_ne_root he), h.destination_inode hd₁ hd₂]
  dsimp only
  by_cases hk₂ : I₂.kind = .directory
  case neg =>
    have hfile : I₂.kind = .regular := by cases hk : I₂.kind <;> simp_all
    have hne : d₂ ≠ d₁ := by
      rintro rfl
      rw [hd₁] at hd₂
      cases hd₂
      exact hk₂ hk₁
    rw [if_neg hne]
    exact .inl ⟨_, by simp, bind_of_error (readDirectory_file hfile),
      fun e _ hm => absurd hm.kind₂ hk₂⟩
  rw [h.destination_entries hd₂ hk₂]
  by_cases hvacant : lookup (entriesAt fs.view.flat d₂) b = none
  case neg =>
    exact .inl ⟨.alreadyExists, by simp,
      ensure_bind_neg (not_not.mpr (any_name_iff.mpr hvacant)) .., fun e _ hm => absurd hm.vacant hvacant⟩
  rw [ensure_bind_pos fun hany => any_name_iff.mp hany hvacant]
  obtain ⟨inside, hinside, hrun⟩ := h.inside_run he hd₂ hk₂
  rw [hrun]
  cases inside with
  | true =>
    refine .inl ⟨.invalidPath, by simp, ensure_bind_neg (by simp) .., fun e' hname' hm => ?_⟩
    obtain ⟨path, hpath⟩ := hinside.mp rfl
    rw [hsame hname' hm] at hm
    exact absurd hpath (hm.outside path)
  | false =>
  have hout : ∀ path, follow (childOf fs.view.flat) e.inode path ≠ some d₂ := fun path hpath =>
    nomatch hinside.mpr ⟨path, hpath⟩
  have hcan : CanMove fs d₁ I₁ d₂ I₂ e b := ⟨hk₁, hk₂, he, hvacant, hout⟩
  rw [ensure_bind_pos rfl]
  by_cases heq : d₁ = d₂
  · subst heq
    rw [hd₁] at hd₂
    cases hd₂
    rw [if_pos rfl]
    have hset := perm_set hget { e with name := b }
    have hvalid := valid_of_perm hset ((valid_of_mem he).with_name hb)
      (valid_rest (perm_eraseIdx hget))
    obtain ⟨fs', hrun', hs, hc⟩ := renameWithin_run h hd₁ hk₁ hvalid (length_set ..)
    exact .inr ⟨e, hname, hcan, .inl ⟨fun hfull => hfull.ne rfl, _, fs', hrun', hs, hc,
      moves_same h.linked ((View.flat_of_inode hd₁).trans (by rw [hk₁])) (perm_eraseIdx hget) hset
        hvacant hb⟩⟩
  rw [if_neg heq, entry_new hb, lift_ok_bind]
  have hvalid₂ : ∀ x ∈ entriesAt fs.view.flat d₂ ++ [{ e with name := b }], x.Valid :=
    valid_concat ((valid_of_mem he).with_name hb)
  have hcount : (entriesAt fs.view.flat d₂ ++ [{ e with name := b }]).length =
      (entriesAt fs.view.flat d₂).length + 1 := length_append
  have hlen₁ := length_swapRemove hget
  have hlen₂ := h.length_entriesAt d₂
  by_cases hmany : (entriesAt fs.view.flat d₂).length + 1 ≤ 8384
  case neg =>
    refine .inl ⟨_, by simp, bind_of_error (replaceDirectory_tooLarge hk₂ ?_ ?_),
      fun _ _ _ hfull => hmany hfull.supported⟩
    · omega
    · omega
  by_cases hshort : Short fs I₂ (dataBlocksForSize (256 * ((entriesAt fs.view.flat d₂).length + 1)))
  · obtain ⟨fs', hrun'⟩ := h.carries.replaceDirectory_halts hd₂ hk₂ hvalid₂ (by omega)
      (by rwa [hcount])
    exact .inr ⟨e, hname, hcan, .inr ⟨⟨heq, hmany, hshort⟩, fs', bind_of_error hrun'⟩⟩
  · obtain ⟨fs', hrun', hs, hc⟩ := renameAcross_run h heq hd₁ hk₁ hd₂ hk₂ (valid_rest hperm)
      hvalid₂ (by omega) (by omega) (by rw [hcount]; exact Nat.le_of_not_lt hshort)
    exact .inr ⟨e, hname, hcan, .inl ⟨fun hfull => hshort hfull.short, _, fs', hrun', hs, hc,
      moves_other h.linked heq ((View.flat_of_inode hd₁).trans (by rw [hk₁]))
        ((View.flat_of_inode hd₂).trans (by rw [hk₂])) hperm hvacant hb⟩⟩

theorem rename_run (source destination : String) :
    (∃ x, x ≠ .noSpace ∧ rename source destination fs = (Result.fail x, fs) ∧
      ∀ d₁ I₁ d₂ I₂ e b, Renames fs source destination d₁ I₁ d₂ I₂ e b → ¬Full fs d₁ d₂ I₂) ∨
    ∃ d₁ I₁ d₂ I₂ e b, Renames fs source destination d₁ I₁ d₂ I₂ e b ∧
      ((¬Full fs d₁ d₂ I₂ ∧ ∃ F' fs', rename source destination fs = (.ok (), fs') ∧ Steps fs fs' ∧
        Carries fs' F' ∧ Moves fs.view.flat F' d₁ e.name d₂ b e.inode) ∨
      (Full fs d₁ d₂ I₂ ∧ ∃ fs', rename source destination fs = (Result.fail .noSpace, fs'))) := by
  unfold rename
  have hno₁ : (∀ d I name, ¬Names fs source d I name) → ∀ d₁ I₁ d₂ I₂ e b,
      Renames fs source destination d₁ I₁ d₂ I₂ e b → ¬Full fs d₁ d₂ I₂ :=
    fun hno d₁ I₁ d₂ I₂ e b hR => absurd hR.source (hno d₁ I₁ e.name)
  have hno₂ : (∀ d I name, ¬Names fs destination d I name) → ∀ d₁ I₁ d₂ I₂ e b,
      Renames fs source destination d₁ I₁ d₂ I₂ e b → ¬Full fs d₁ d₂ I₂ :=
    fun hno d₁ I₁ d₂ I₂ e b hR => absurd hR.destination (hno d₂ I₂ b)
  -- both paths are split before either parent is resolved
  rcases h.parent_cases with ⟨x, hx, hsplit₁, hno⟩ | ⟨parent₁, a, hsplit₁, -, hsource⟩
  · exact .inl ⟨x, hx, by rw [hsplit₁]; rfl, hno₁ hno⟩
  rw [hsplit₁, lift_ok_bind]
  rcases h.parent_cases with ⟨x, hx, hsplit₂, hno⟩ |
    ⟨parent₂, b, hsplit₂, hb, hdestination⟩
  · exact .inl ⟨x, hx, by rw [hsplit₂]; rfl, hno₂ hno⟩
  rw [hsplit₂, lift_ok_bind, validateName_ok hb, lift_ok_bind]
  rcases hsource with ⟨x, hx, hres₁, hno⟩ | ⟨d₁, I₁, hres₁, hd₁, hnames₁, honly₁⟩
  · exact .inl ⟨x, hx, bind_of_error hres₁, hno₁ hno⟩
  rw [bind_of_ok hres₁]
  rcases hdestination with ⟨x, hx, hres₂, hno⟩ | ⟨d₂, I₂, hres₂, hd₂, hnames₂, honly₂⟩
  · exact .inl ⟨x, hx, bind_of_error hres₂, hno₂ hno⟩
  rw [bind_of_ok hres₂]
  rcases renameEntry_run h (a := a) hb hd₁ hd₂ with ⟨x, hx, hrun, hno⟩ | ⟨e, hname, hcan, hend⟩
  · refine .inl ⟨x, hx, hrun, fun d₁' I₁' d₂' I₂' e b' hR => ?_⟩
    obtain ⟨rfl, rfl, hname⟩ := honly₁ d₁' I₁' e.name hR.source
    obtain ⟨rfl, rfl, rfl⟩ := honly₂ d₂' I₂' b' hR.destination
    exact hno e hname hR.toCanMove
  · subst hname
    exact .inr ⟨d₁, I₁, d₂, I₂, e, b,
      ⟨hcan, hnames₁ hcan.kind₁, hnames₂ hcan.kind₂⟩, hend⟩

end NexOs.Nexfs
