import NexOs.Nexfs.Resolve

/-! `directory_contains`: the search for a directory below another one. -/
namespace NexOs.Nexfs
open List Bytes Storage Function NamedTree NexFs

variable {pending pending' : List Nat} {visited : List Bool}

section
variable {target : Nat} {entries : List DirectoryEntry}

theorem pushEntries_none (h : pushEntries target entries pending = none) :
    ∃ e ∈ entries, e.inode = target := by
  induction entries generalizing pending with
  | nil => cases h
  | cons e rest ih =>
    rw [pushEntries] at h
    split at h
    · exact ⟨e, mem_cons_self, by assumption⟩
    · obtain ⟨x, hx, hi⟩ := ih h
      exact ⟨x, mem_cons_of_mem e hx, hi⟩

theorem pushEntries_some (h : pushEntries target entries pending = some pending') :
    (∀ e ∈ entries, e.inode ≠ target) ∧ pending'.length ≤ pending.length + entries.length ∧
      ∀ n, n ∈ pending' ↔ n ∈ pending ∨ ∃ e ∈ entries, e.kind = .directory ∧ e.inode = n := by
  induction entries generalizing pending with
  | nil =>
    cases h
    simp
  | cons e rest ih =>
    rw [pushEntries] at h
    split at h
    · cases h
    rename_i hne
    obtain ⟨htarget, hlen, hmem⟩ := ih h
    refine ⟨forall_mem_cons.mpr ⟨hne, htarget⟩, ?_, ?_⟩
    · rw [length_cons]
      split at hlen
      · rw [length_cons] at hlen
        omega
      · omega
    · intro n
      rw [hmem, exists_mem_cons_iff]
      by_cases hk : e.kind = .directory
      · simp only [hk, if_true, mem_cons]
        tauto
      · simp only [hk, if_false, false_and, false_or]

end

/-- The state of a search below `root`: the directories that have been expanded
do not name the target, and the directories they name are expanded or pending. -/
structure Searching (F : Flat) (root target : Nat) (pending : List Nat) (visited : List Bool) :
    Prop where
  started : root ∈ pending ∨ visited[root]? = some true
  below : ∀ n ∈ pending, ∃ path, follow (childOf F) root path = some n
  directories : ∀ n ∈ pending, ∃ bytes, F n = some (.directory, bytes)
  searched : ∀ n, visited[n]? = some true → ∀ e ∈ entriesAt F n, e.inode ≠ target ∧
    (e.kind = .directory → e.inode ∈ pending ∨ visited[e.inode]? = some true)

namespace Searching
variable {F : Flat} {root target n : Nat} {bytes : List UInt8}

theorem init (hroot : F root = some (.directory, bytes)) (k : Nat) :
    Searching F root target [root] (replicate k false) where
  started := .inl mem_cons_self
  below n hn := ⟨[], by rw [mem_singleton.mp hn]; rfl⟩
  directories n hn := ⟨bytes, by rw [mem_singleton.mp hn, hroot]⟩
  searched n hn := by
    rw [getElem?_replicate] at hn
    split at hn <;> cases hn

theorem skip (h : Searching F root target (n :: pending) visited)
    (hn : visited[n]? = some true) : Searching F root target pending visited where
  started := by
    rcases h.started with hs | hs
    · rcases mem_cons.mp hs with rfl | hs
      · exact .inr hn
      · exact .inl hs
    · exact .inr hs
  below m hm := h.below m (mem_cons_of_mem n hm)
  directories m hm := h.directories m (mem_cons_of_mem n hm)
  searched m hm e he := by
    refine ⟨(h.searched m hm e he).1, fun hk => ?_⟩
    rcases (h.searched m hm e he).2 hk with hp | hv
    · rcases mem_cons.mp hp with hp | hp
      · exact .inr (hp ▸ hn)
      · exact .inl hp
    · exact .inr hv

theorem expand (hF : Linked F) (h : Searching F root target (n :: pending) visited)
    (hn : n < visited.length)
    (hpush : pushEntries target (entriesAt F n) pending = some pending') :
    Searching F root target pending' (visited.set n true) := by
  obtain ⟨htarget, -, hmem⟩ := pushEntries_some hpush
  have hmono : ∀ m : Nat, visited[m]? = some true → (visited.set n true)[m]? = some true := by
    intro m hm
    by_cases hnm : n = m
    · rw [← hnm, getElem?_set_self hn]
    · rw [getElem?_set_ne hnm, hm]
  have hkeep : ∀ m : Nat, m ∈ n :: pending ∨ visited[m]? = some true →
      m ∈ pending' ∨ (visited.set n true)[m]? = some true := by
    rintro m (hm | hm)
    · rcases mem_cons.mp hm with rfl | hm
      · exact .inr (getElem?_set_self hn)
      · exact .inl ((hmem m).mpr (.inl hm))
    · exact .inr (hmono m hm)
  refine ⟨hkeep root h.started, ?_, ?_, ?_⟩
  · intro m hm
    rcases (hmem m).mp hm with hm | ⟨e, he, -, rfl⟩
    · exact h.below m (mem_cons_of_mem n hm)
    · obtain ⟨path, hp⟩ := h.below n mem_cons_self
      exact ⟨path ++ [e.name], (follow_concat_of_some hp).trans
        (hF.childOf_eq_some.mpr ⟨e, he, rfl, rfl⟩)⟩
  · intro m hm
    rcases (hmem m).mp hm with hm | ⟨e, he, hk, rfl⟩
    · exact h.directories m (mem_cons_of_mem n hm)
    · obtain ⟨b, hb⟩ := hF.target n e he
      exact ⟨b, by rw [hb, hk]⟩
  · intro m hm e he
    by_cases hnm : n = m
    · subst hnm
      exact ⟨htarget e he, fun hk => .inl ((hmem e.inode).mpr (.inr ⟨e, he, hk, rfl⟩))⟩
    · rw [getElem?_set_ne hnm] at hm
      obtain ⟨hne, hdir⟩ := h.searched m hm e he
      exact ⟨hne, fun hk => hkeep e.inode (hdir hk)⟩

theorem finished (hF : Linked F) (h : Searching F root target [] visited) (hne : root ≠ target)
    (path : List String) : follow (childOf F) root path ≠ some target := by
  have hvisited : visited[root]? = some true := h.started.resolve_left not_mem_nil
  suffices hall : ∀ m, follow (childOf F) root path = some m → m ≠ target ∧
      ((∃ bytes, F m = some (.directory, bytes)) → visited[m]? = some true) by
    exact fun hp => (hall target hp).1 rfl
  induction path using reverseRecOn with
  | nil =>
    intro m hm
    cases hm
    exact ⟨hne, fun _ => hvisited⟩
  | append_singleton path name ih =>
    intro m hm
    rw [follow_concat, Option.bind_eq_some_iff] at hm
    obtain ⟨k, hk, hm⟩ := hm
    have hvk := (ih k hk).2 (hF.dir_of_child hm)
    obtain ⟨e, he, -, rfl⟩ := hF.childOf_eq_some.mp hm
    obtain ⟨hne', hdir⟩ := h.searched k hvk e he
    refine ⟨hne', fun ⟨bytes, hb⟩ => ?_⟩
    obtain ⟨bytes', ht⟩ := hF.target k e he
    rw [ht, Option.some_inj, Prod.mk.injEq] at hb
    exact (hdir hb.1).resolve_left not_mem_nil

end Searching

namespace Consistent
variable {fs : NexFs} {n root target : Nat} {I : Inode} (h : Consistent fs)
include h

theorem size_le (hn : fs.view.inode n = some I) : I.size ≤ 524 * 4096 := by
  have hcount := h.owned.count n I hn
  have hle := (h.owned.intact n I hn).count_le
  have := size_le_of_count hcount
  omega

theorem length_entriesAt (n : Nat) : (entriesAt fs.view.flat n).length ≤ 8384 := by
  by_cases hnil : entriesAt fs.view.flat n = []
  · rw [hnil]
    exact Nat.zero_le _
  obtain ⟨e, he⟩ := exists_mem_of_ne_nil _ hnil
  obtain ⟨bytes, hF⟩ := dir_of_mem he
  obtain ⟨entries, hd⟩ := h.linked.decoded n bytes hF
  obtain ⟨I, hI, -, rfl⟩ := View.flat_eq_some.mp hF
  have hsize := h.size_le hI
  rw [entriesAt_dir hF hd, length_decodeEntries hd, h.length_content hI]
  omega

theorem searchTree_run (hne : root ≠ target) (fuel : Nat)
    (hs : Searching fs.view.flat root target pending visited)
    (hlen : visited.length = fs.superblock.slots)
    (hfuel : pending.length + 8384 * visited.count false < fuel) :
    ∃ b, searchTree target fuel pending visited fs = (.ok b, fs) ∧
      (b = true ↔ ∃ path, follow (childOf fs.view.flat) root path = some target) := by
  induction fuel generalizing pending visited with
  | zero => omega
  | succ fuel ih =>
    cases pending with
    | nil =>
      refine ⟨false, rfl, ?_⟩
      simp only [Bool.false_eq_true, false_iff, not_exists]
      exact hs.finished h.linked hne
    | cons n pending =>
      obtain ⟨bytes, hn⟩ := hs.directories n mem_cons_self
      have hlt : n < visited.length := by
        rw [hlen]
        exact h.owned.lt_of_flat (by rw [hn]; simp)
      have hget : visited[n]? = some visited[n] := getElem?_eq_getElem hlt
      rw [searchTree, hget]
      rw [length_cons] at hfuel
      cases hv : visited[n] with
      | true =>
        exact ih (hs.skip (by rw [hget, hv])) hlen (by omega)
      | false =>
        obtain ⟨I, hI, hk, -⟩ := View.flat_eq_some.mp hn
        rw [if_neg (by simp), Exec.bind_of_ok (h.readInode_run hI),
          Exec.bind_of_ok (h.readDirectory_run hI hk)]
        cases hpush : pushEntries target (entriesAt fs.view.flat n) pending with
        | none =>
          refine ⟨true, rfl, ?_⟩
          simp only [true_iff]
          obtain ⟨e, he, rfl⟩ := pushEntries_none hpush
          obtain ⟨path, hp⟩ := hs.below n mem_cons_self
          exact ⟨path ++ [e.name], (follow_concat_of_some hp).trans
            (h.linked.childOf_eq_some.mpr ⟨e, he, rfl, rfl⟩)⟩
        | some pending' =>
          obtain ⟨-, hlen', -⟩ := pushEntries_some hpush
          have hentries := h.length_entriesAt n
          have hcount : (visited.set n true).count false + 1 = visited.count false := by
            have hpos : 0 < visited.count false := by
              rw [count_pos_iff, ← hv]
              exact getElem_mem hlt
            rw [count_set hlt, hv]
            simp
            omega
          exact ih (hs.expand h.linked hlt hpush) (by rw [length_set, hlen]) (by omega)

/-- `directory_contains` decides whether the target is the directory itself or
below it. -/
theorem directoryContains_run {bytes : List UInt8}
    (hroot : fs.view.flat root = some (.directory, bytes)) :
    ∃ b, directoryContains root target fs = (.ok b, fs) ∧
      (b = true ↔ ∃ path, follow (childOf fs.view.flat) root path = some target) := by
  unfold directoryContains
  by_cases hne : root = target
  · rw [if_pos hne]
    exact ⟨true, rfl, by simpa using ⟨[], by rw [hne]; rfl⟩⟩
  rw [if_neg hne, Exec.get_bind, h.valid.inodeCount]
  refine h.searchTree_run hne _ (.init hroot _) (length_replicate ..) ?_
  rw [count_replicate_self, length_singleton, searchFuel]
  simp only [maxFileBlocks, directBlocks, indirectPointers, blockSize, dirEntrySize]
  omega

end Consistent

end NexOs.Nexfs
