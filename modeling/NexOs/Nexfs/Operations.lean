import NexOs.Nexfs.Carries

/-! What each operation does to a consistent volume: it fails, or it succeeds
and changes the tree in one place. It runs out of space exactly when the blocks
it needs are not there. -/
namespace NexOs.Nexfs
open Bytes Storage Function NamedTree NexFs Consistent Exec

/-- The directory in which `path` names a child, whether or not the child exists. -/
structure Names (fs : NexFs) (path : String) (d : Nat) (I : Inode) (name : String) : Prop where
  split : ∃ parent, splitParent path = .ok (parent, name) ∧
    follow (childOf fs.view.flat) 1 (pathNames parent) = some d
  inode : fs.view.inode d = some I
  kind : I.kind = .directory

variable {fs : NexFs} {d : Nat} {I : Inode} {entries : List DirectoryEntry} {path : String}

section
variable {path name : String}

section
variable (h : Names fs path d I name)
include h

theorem Names.pathNames_eq :
    ∃ P, pathNames path = P ++ [name] ∧ follow (childOf fs.view.flat) 1 P = some d := by
  obtain ⟨parent, hsplit, hf⟩ := h.split
  exact ⟨pathNames parent, (splitParent_names hsplit).1, hf⟩

theorem Names.valid : ValidName name := by
  obtain ⟨parent, hsplit, -⟩ := h.split
  exact (splitParent_names hsplit).2

theorem Names.flat : fs.view.flat d = some (.directory, fs.view.content I) := by
  rw [View.flat_of_inode h.inode, h.kind]

end

theorem Consistent.parent_cases (h : Consistent fs) :
    (∃ e, e ≠ .noSpace ∧ splitParent path = Result.fail e ∧ ∀ d I name, ¬Names fs path d I name) ∨
    ∃ parent name, splitParent path = .ok (parent, name) ∧ ValidName name ∧
      ((∃ e, e ≠ .noSpace ∧ resolve parent fs = (Result.fail e, fs) ∧
        ∀ d I name, ¬Names fs path d I name) ∨
      ∃ d I, resolve parent fs = (.ok d, fs) ∧ fs.view.inode d = some I ∧
        (I.kind = .directory → Names fs path d I name) ∧
        ∀ d' I' name', Names fs path d' I' name' → d' = d ∧ I' = I ∧ name' = name) := by
  rcases splitParent_total with ⟨⟨parent, name⟩, hsplit⟩ | ⟨e, he, hsplit⟩
  case inr =>
    refine .inl ⟨e, he, hsplit, fun d I name hN => ?_⟩
    obtain ⟨parent, hsplit', -⟩ := hN.split
    rw [hsplit] at hsplit'
    cases hsplit'
  refine .inr ⟨parent, name, hsplit, (splitParent_names hsplit).2, ?_⟩
  rcases h.resolve_cases parent with ⟨d, hres, hne, hf⟩ | ⟨e, he, hres, hf⟩
  case inr =>
    refine .inl ⟨e, he.ne_noSpace, hres, fun d I name hN => ?_⟩
    obtain ⟨parent', hsplit', hf'⟩ := hN.split
    rw [hsplit] at hsplit'
    cases hsplit'
    rw [hf] at hf'
    cases hf'
  obtain ⟨I, hI⟩ := View.exists_inode hne
  refine .inr ⟨d, I, hres, hI, fun hk => ⟨⟨parent, hsplit, hf⟩, hI, hk⟩, fun d' I' name' hN => ?_⟩
  obtain ⟨parent', hsplit', hf'⟩ := hN.split
  have hI' := hN.inode
  rw [hsplit] at hsplit'
  cases hsplit'
  rw [hf] at hf'
  cases hf'
  rw [hI] at hI'
  cases hI'
  exact ⟨rfl, rfl, rfl⟩

end

def Short (fs : NexFs) (I : Inode) (count : Nat) : Prop :=
  (fs.view.freeBlocks fs.superblock).card + footprint I.blockCount < footprint count

def NoRoom (fs : NexFs) (I : Inode) (count : Nat) : Prop :=
  8384 < count ∨ Short fs I (dataBlocksForSize (256 * count))

section
variable {name : String}

theorem any_name_iff : (entries.any fun entry => entry.name == name) = true ↔
    lookup entries name ≠ none := by
  rw [Ne, lookup_eq_none]
  simp

theorem validateName_ok (h : ValidName name) : validateName name = .ok () := Result.ensure_pos h _

theorem entry_new (h : ValidName name) (n : Nat) (kind : FileType) :
    DirectoryEntry.new n kind name = .ok ⟨n, kind, name⟩ := by
  rw [DirectoryEntry.new, validateName_ok h]
  rfl

end

namespace Consistent
variable (h : Consistent fs)
include h

theorem size_eq (hd : fs.view.inode d = some I) (hk : I.kind = .directory) :
    I.size = 256 * (entriesAt fs.view.flat d).length := by
  have hF := View.flat_of_inode hd
  rw [hk] at hF
  have hm := h.linked.whole d _ hF
  obtain ⟨entries, hdec⟩ := h.linked.decoded d _ hF
  rw [h.length_content hd] at hm
  rw [entriesAt_dir hF hdec, length_decodeEntries hdec, h.length_content hd]
  omega

theorem room_of_le (hd : fs.view.inode d = some I) (hk : I.kind = .directory)
    (hle : count ≤ (entriesAt fs.view.flat d).length) :
    footprint (dataBlocksForSize (256 * count)) ≤
      (fs.view.freeBlocks fs.superblock).card + footprint I.blockCount := by
  have hmono := footprint_mono (dataBlocksForSize_mono (Nat.mul_le_mul_left 256 hle))
  rw [← h.size_eq hd hk, ← h.owned.count d I hd] at hmono
  omega

end Consistent

section
variable {F : Flat} {n : Nat}

variable (h : Carries fs F) (hn : fs.view.inode n = some I) (hk : I.kind = .directory)
  (hv : ∀ e ∈ entries, e.Valid)
include h hn hk hv

theorem Carries.replaceDirectory_halts (hlen : entries.length ≤ 8384)
    (hshort : Short fs I (dataBlocksForSize (256 * entries.length))) :
    ∃ fs', replaceDirectory I entries fs = (Result.fail .noSpace, fs') := by
  rcases NexFs.replaceDirectory_run h.toMounted (h.owned.intact n I hn) (h.owned.tight n I hn) hk hv
    (by omega) with ⟨hle, -⟩ | ⟨-, hfail⟩
  · rw [Short] at hshort
    omega
  · exact hfail

theorem Carries.replaceDirectory_fails (hlen : entries.length * 256 < 2 ^ 64)
    (hroom : NoRoom fs I entries.length) :
    ∃ e fs', replaceDirectory I entries fs = (Result.fail e, fs') ∧
      (entries.length ≤ 8384 → e = .noSpace) := by
  by_cases hmany : 8384 < entries.length
  · exact ⟨_, fs, replaceDirectory_tooLarge hk hlen (by clear hlen; omega),
      fun hle => absurd hmany (Nat.not_lt.mpr hle)⟩
  · obtain ⟨fs', hrun⟩ := h.replaceDirectory_halts hn hk hv (Nat.le_of_not_lt hmany)
      (hroom.resolve_left hmany)
    exact ⟨_, fs', hrun, fun _ => rfl⟩

end

section
variable {permissions : Nat}

variable (h : Consistent fs)
include h

theorem Consistent.create_named {name : String}
    (hN : Names fs path d I name) (hfresh : lookup (entriesAt fs.view.flat d) name = none)
    (kind : FileType) (hp : permissions < 2 ^ 16) :
    (fs.freeInode = none ∧ create path kind permissions fs = (Result.fail .noSpace, fs)) ∨
    ∃ n, fs.freeInode = some n ∧
      ((¬NoRoom fs I ((entriesAt fs.view.flat d).length + 1) ∧
        ∃ fs', create path kind permissions fs = (.ok n, fs') ∧ Steps fs fs' ∧
          Carries fs' (withChild fs.view.flat d ⟨n, kind, name⟩)) ∨
      (NoRoom fs I ((entriesAt fs.view.flat d).length + 1) ∧
        ∃ e fs', create path kind permissions fs = (Result.fail e, fs') ∧
          ((entriesAt fs.view.flat d).length + 1 ≤ 8384 → e = .noSpace))) := by
  unfold create
  rcases h.parent_cases with ⟨e, -, -, hno⟩ |
    ⟨parent, name', hsplit, hv, ⟨e, -, -, hno⟩ | ⟨d', I', hres, hI, -, honly⟩⟩
  · exact absurd hN (hno d I name)
  · exact absurd hN (hno d I name)
  obtain ⟨rfl, rfl, rfl⟩ := honly d I name hN
  have hk := hN.kind
  rw [hsplit, lift_ok_bind, validateName_ok hv, lift_ok_bind, bind_of_ok hres,
    bind_of_ok (h.readInode_run hI), ensure_bind_pos hk, bind_of_ok (h.readDirectory_run hI hk),
    ensure_bind_pos fun hany => any_name_iff.mp hany hfresh]
  cases hfree : fs.freeInode with
  | none => exact .inl ⟨rfl, bind_of_error (allocateInode_none h.toMounted hfree)⟩
  | some n =>
  refine .inr ⟨n, rfl, ?_⟩
  obtain ⟨hn2, hlt, hbit⟩ := freeInode_spec hfree
  have hnone : fs.view.flat n = none := (h.owned.flat_eq_none (by omega)).mpr hbit
  have hnd : d ≠ n := by
    rintro rfl
    rw [hN.flat] at hnone
    cases hnone
  obtain ⟨t, fs₁, fs₂, fs₃, hrun₁, hrun₂, hrun₃, ht, hs₃, hc₃, hbits, hinode⟩ :=
    h.carries.newInode_run hfree hp
  have hI₃ : fs₃.view.inode d = some I := by rw [hinode, update_of_ne hnd, hI]
  rw [bind_of_ok hrun₁, bind_of_ok hrun₂, bind_of_ok hrun₃, entry_new hv, lift_ok_bind]
  have hlen := h.length_entriesAt d
  have hvalid : ∀ x ∈ entriesAt fs.view.flat d ++ [⟨n, kind, name⟩], x.Valid :=
    valid_concat ⟨by simp; omega, by have := h.valid.slots_le; simp; omega, hv⟩
  have hcount : (entriesAt fs.view.flat d ++ [(⟨n, kind, name⟩ : DirectoryEntry)]).length =
      (entriesAt fs.view.flat d).length + 1 := List.length_append
  have hfree₃ := Carries.freeBlocks_steps hs₃ hbits
  by_cases hroom : NoRoom fs I ((entriesAt fs.view.flat d).length + 1)
  · have hroom₃ : NoRoom fs₃ I
        (entriesAt fs.view.flat d ++ [(⟨n, kind, name⟩ : DirectoryEntry)]).length := by
      rwa [NoRoom, Short, hfree₃, hcount]
    obtain ⟨e, fs', hrun, he⟩ := hc₃.replaceDirectory_fails hI₃ hk hvalid (by omega) hroom₃
    rw [hcount] at he
    exact .inr ⟨hroom, e, fs', bind_of_error hrun, he⟩
  · obtain ⟨hle, hshort⟩ := not_or.mp hroom
    rw [Short] at hshort
    obtain ⟨I', fs₄, hrun₄, hs₄, hput⟩ := hc₃.replaceDirectory_run hI₃ hk hvalid (by omega)
      (by rw [hfree₃, hcount]; omega)
    obtain ⟨fs₅, J, hrun₅, hs₅, hc₅, -⟩ := hput (.refl (hs₄.mounted hc₃.toMounted)) rfl ht
    obtain ⟨fs₆, hrun₆, hs₆, hc₆⟩ := hc₅.finishMutation_run
    refine .inl ⟨hroom, fs₆, ?_, (hs₃.trans hs₅).trans hs₆, hc₆⟩
    rw [bind_of_ok hrun₄, bind_of_ok hrun₅, bind_of_ok hrun₆]
    rfl

theorem Consistent.create_refused (kind : FileType)
    (hno : ∀ d I name, Names fs path d I name → lookup (entriesAt fs.view.flat d) name ≠ none) :
    ∃ e, create path kind permissions fs = (Result.fail e, fs) := by
  unfold create
  rcases h.parent_cases with ⟨e, -, hsplit, -⟩ |
    ⟨parent, name, hsplit, hv, ⟨e, -, hres, -⟩ | ⟨d, I, hres, hI, hnames, -⟩⟩
  · rw [hsplit]
    exact ⟨e, rfl⟩
  · rw [hsplit, lift_ok_bind, validateName_ok hv, lift_ok_bind]
    exact ⟨e, bind_of_error hres⟩
  rw [hsplit, lift_ok_bind, validateName_ok hv, lift_ok_bind, bind_of_ok hres,
    bind_of_ok (h.readInode_run hI)]
  by_cases hk : I.kind = .directory
  case neg => exact ⟨.notDirectory, ensure_bind_neg hk ..⟩
  rw [ensure_bind_pos hk, bind_of_ok (h.readDirectory_run hI hk)]
  refine ⟨.alreadyExists, ensure_bind_neg ?_ ..⟩
  rw [not_not]
  exact any_name_iff.mpr (hno d I name (hnames hk))

theorem create_run (kind : FileType) (hp : permissions < 2 ^ 16) :
    (∃ e fs', create path kind permissions fs = (Result.fail e, fs')) ∨
    ∃ d I name n fs', Names fs path d I name ∧
      lookup (entriesAt fs.view.flat d) name = none ∧ fs.freeInode = some n ∧
      create path kind permissions fs = (.ok n, fs') ∧ Steps fs fs' ∧
      Carries fs' (withChild fs.view.flat d ⟨n, kind, name⟩) := by
  by_cases hplace : ∃ d I name, Names fs path d I name ∧
    lookup (entriesAt fs.view.flat d) name = none
  case neg =>
    obtain ⟨e, hrun⟩ := h.create_refused kind
      fun d I name hN hfresh => hplace ⟨d, I, name, hN, hfresh⟩
    exact .inl ⟨e, fs, hrun⟩
  obtain ⟨d, I, name, hN, hfresh⟩ := hplace
  rcases h.create_named hN hfresh kind hp with ⟨-, hrun⟩ | ⟨n, hfree,
    ⟨-, fs', hrun, hs, hc⟩ | ⟨-, e, fs', hrun, -⟩⟩
  · exact .inl ⟨.noSpace, fs, hrun⟩
  · exact .inr ⟨d, I, name, n, fs', hN, hfresh, hfree, hrun, hs, hc⟩
  · exact .inl ⟨e, fs', hrun⟩

end

variable (h : Consistent fs)
include h

theorem Consistent.resolve_of_follow
    (hf : follow (childOf fs.view.flat) 1 (pathNames path) = some n) :
    resolve path fs = (.ok n, fs) := by
  rcases h.resolve_cases path with ⟨m, hres, -, hm⟩ | ⟨e, -, -, hnone⟩
  · rw [hf] at hm
    cases hm
    exact hres
  · rw [hf] at hnone
    cases hnone

theorem Consistent.file_cases :
    (∃ e, PathError e ∧ resolve path fs = (Result.fail e, fs)) ∨
    ∃ n I, resolve path fs = (.ok n, fs) ∧ fs.view.inode n = some I ∧
      follow (childOf fs.view.flat) 1 (pathNames path) = some n := by
  rcases h.resolve_cases path with ⟨n, hres, hne, hf⟩ | ⟨e, he, hres, -⟩
  · obtain ⟨I, hI⟩ := View.exists_inode hne
    exact .inr ⟨n, I, hres, hI, hf⟩
  · exact .inl ⟨e, he, hres⟩

theorem Consistent.storeFile_run {I I' : Inode} {content : List UInt8}
    (hn : fs.view.inode n = some I) (hk : I.kind = .regular) (hw : Rewrites fs I fs₁ I' content)
    (hlen : content.length ≤ maxFileSize) :
    ∃ t fs₂ fs₃ fs₄, nextTimestamp fs₁ = (.ok t, fs₂) ∧
      writeInode n { I' with size := content.length, modified := t, generation := t } fs₂ =
        (.ok (), fs₃) ∧ finishMutation fs₃ = (.ok (), fs₄) ∧ Steps fs fs₄ ∧
      Carries fs₄ (update fs.view.flat n (some (.regular, content))) := by
  obtain ⟨t, fs₂, hrun₂, ht, hs₂, hv₂⟩ := nextTimestamp_run
  have hsize : content.length < 2 ^ 64 := by
    simp only [maxFileSize] at hlen
    omega
  obtain ⟨fs₃, hrun₃, hs₃, hc₃, -⟩ := h.carries.writeInode_run hn hw
    (J := { I' with size := content.length, modified := t, generation := t })
    ⟨{ hw.edit.after.fits with size := hsize, modified := ht, generation := ht }, hw.kind, rfl, rfl,
      rfl, rfl⟩ hs₂ hv₂
  obtain ⟨fs₄, hrun₄, hs₄, hc₄⟩ := hc₃.finishMutation_run
  rw [hk] at hc₄
  exact ⟨t, fs₂, fs₃, fs₄, hrun₂, hrun₃, hrun₄, hs₃.trans hs₄, hc₄⟩

variable {input : List UInt8}

theorem Consistent.writeFile_found
    (hf : follow (childOf fs.view.flat) 1 (pathNames path) = some n) (hI : fs.view.inode n = some I)
    (hk : I.kind = .regular) (hend : offset + input.length ≤ maxFileSize) :
    (¬Short fs I (max I.blockCount (dataBlocksForSize (offset + input.length))) ∧
      ∃ fs', writeFile path offset input fs = (.ok input.length, fs') ∧ Steps fs fs' ∧
        Carries fs' (update fs.view.flat n
          (some (.regular, overwrite (fs.view.content I) offset input)))) ∨
    Short fs I (max I.blockCount (dataBlocksForSize (offset + input.length))) ∧
      ∃ fs', writeFile path offset input fs = (Result.fail .noSpace, fs') := by
  unfold writeFile
  have hadd : offset + input.length < 2 ^ 64 := by
    simp only [maxFileSize] at hend
    omega
  rw [bind_of_ok (h.resolve_of_follow hf), bind_of_ok (h.readInode_run hI), ensure_bind_pos hk,
    checkedAdd_eq hadd, okOr_some, pure_bind_run, bind_of_ok (ensureFileSizeSupported_run hend)]
  rcases writeContents_run h.toMounted (h.owned.intact n I hI) (h.owned.tight n I hI)
    (h.owned.count n I hI) hend with ⟨hle, I', fs₁, hrun₁, hsize, hw⟩ | ⟨hlt, fs₁, hrun₁⟩
  · have hcontent := h.length_content hI
    have hlen : (overwrite (fs.view.content I) offset input).length =
        max I'.size (offset + input.length) := by
      rw [length_overwrite, hcontent, hsize]
    have hmax := h.size_le hI
    obtain ⟨t, fs₂, fs₃, fs₄, hrun₂, hrun₃, hrun₄, hs, hc⟩ := h.storeFile_run hI hk hw
      (by rw [hlen, hsize]; exact Nat.max_le.mpr ⟨hmax, hend⟩)
    rw [hlen] at hrun₃
    refine .inl ⟨Nat.not_lt.mpr hle, fs₄, ?_, hs, hc⟩
    rw [bind_of_ok hrun₁, bind_of_ok hrun₂, bind_of_ok hrun₃, bind_of_ok hrun₄]
    rfl
  · exact .inr ⟨hlt, fs₁, bind_of_error hrun₁⟩

theorem writeFile_run (offset : Nat) :
    (∃ e fs', writeFile path offset input fs = (Result.fail e, fs')) ∨
    ∃ n old fs', follow (childOf fs.view.flat) 1 (pathNames path) = some n ∧
      fs.view.flat n = some (.regular, old) ∧
      writeFile path offset input fs = (.ok input.length, fs') ∧ Steps fs fs' ∧
      Carries fs' (update fs.view.flat n (some (.regular, overwrite old offset input))) := by
  rcases h.file_cases with ⟨e, -, hres⟩ | ⟨n, I, hres, hI, hf⟩
  · exact .inl ⟨e, fs, bind_of_error hres⟩
  by_cases hk : I.kind = .regular
  case neg =>
    refine .inl ⟨.isDirectory, fs, ?_⟩
    rw [writeFile, bind_of_ok hres, bind_of_ok (h.readInode_run hI)]
    exact ensure_bind_neg hk ..
  by_cases hend : offset + input.length ≤ maxFileSize
  case neg =>
    refine .inl ⟨.fileTooLarge, fs, ?_⟩
    rw [writeFile, bind_of_ok hres, bind_of_ok (h.readInode_run hI), ensure_bind_pos hk]
    by_cases hadd : offset + input.length < 2 ^ 64
    · rw [checkedAdd_eq hadd, okOr_some, pure_bind_run]
      exact bind_of_error (ensureFileSizeSupported_tooLarge (Nat.lt_of_not_le hend))
    · rw [checkedAdd_none hadd]
      rfl
  rcases h.writeFile_found hf hI hk hend with ⟨-, fs', hrun, hs, hc⟩ | ⟨-, fs', hrun⟩
  · exact .inr ⟨n, fs.view.content I, fs', hf, by rw [View.flat_of_inode hI, hk], hrun, hs, hc⟩
  · exact .inl ⟨_, fs', hrun⟩

theorem Consistent.truncate_found
    (hf : follow (childOf fs.view.flat) 1 (pathNames path) = some n) (hI : fs.view.inode n = some I)
    (hk : I.kind = .regular) (hend : newSize ≤ maxFileSize) :
    (¬Short fs I (max I.blockCount (dataBlocksForSize newSize)) ∧
      ∃ fs', truncate path newSize fs = (.ok (), fs') ∧ Steps fs fs' ∧
        Carries fs' (update fs.view.flat n
          (some (.regular, resize (fs.view.content I) newSize)))) ∨
    Short fs I (max I.blockCount (dataBlocksForSize newSize)) ∧
      ∃ fs', truncate path newSize fs = (Result.fail .noSpace, fs') := by
  unfold truncate
  rw [bind_of_ok (h.resolve_of_follow hf), bind_of_ok (h.readInode_run hI),
    ensure_bind_pos hk, bind_of_ok (ensureFileSizeSupported_run hend)]
  rcases resizeContents_run h.toMounted (h.owned.intact n I hI) (h.owned.tight n I hI)
    (h.owned.count n I hI) hend with ⟨hle, I', fs₁, hrun₁, hw⟩ | ⟨hlt, fs₁, hrun₁⟩
  · obtain ⟨t, fs₂, fs₃, fs₄, hrun₂, hrun₃, hrun₄, hs, hc⟩ := h.storeFile_run hI hk hw
      (by rw [length_resize]; exact hend)
    rw [length_resize] at hrun₃
    refine .inl ⟨Nat.not_lt.mpr hle, fs₄, ?_, hs, hc⟩
    rw [bind_of_ok hrun₁, bind_of_ok hrun₂, bind_of_ok hrun₃, hrun₄]
  · exact .inr ⟨hlt, fs₁, bind_of_error hrun₁⟩

theorem truncate_run (newSize : Nat) :
    (∃ e fs', truncate path newSize fs = (Result.fail e, fs')) ∨
    ∃ n old fs', follow (childOf fs.view.flat) 1 (pathNames path) = some n ∧
      fs.view.flat n = some (.regular, old) ∧
      truncate path newSize fs = (.ok (), fs') ∧ Steps fs fs' ∧
      Carries fs' (update fs.view.flat n (some (.regular, resize old newSize))) := by
  rcases h.file_cases with ⟨e, -, hres⟩ | ⟨n, I, hres, hI, hf⟩
  · exact .inl ⟨e, fs, bind_of_error hres⟩
  by_cases hk : I.kind = .regular
  case neg =>
    refine .inl ⟨.isDirectory, fs, ?_⟩
    rw [truncate, bind_of_ok hres, bind_of_ok (h.readInode_run hI)]
    exact ensure_bind_neg hk ..
  by_cases hend : newSize ≤ maxFileSize
  case neg =>
    refine .inl ⟨.fileTooLarge, fs, ?_⟩
    rw [truncate, bind_of_ok hres, bind_of_ok (h.readInode_run hI), ensure_bind_pos hk]
    exact bind_of_error (ensureFileSizeSupported_tooLarge (Nat.lt_of_not_le hend))
  rcases h.truncate_found hf hI hk hend with ⟨-, fs', hrun, hs, hc⟩ | ⟨-, fs', hrun⟩
  · exact .inr ⟨n, fs.view.content I, fs', hf, by rw [View.flat_of_inode hI, hk], hrun, hs, hc⟩
  · exact .inl ⟨_, fs', hrun⟩

end NexOs.Nexfs
