import NexOs.Nexfs.CheckOwners
import NexOs.Nexfs.Tree

/-! The checker's walk over the directories. It expands every directory it has
found once; it gets through exactly when the directories form a tree. -/
namespace NexOs.Nexfs
open List Bytes Storage Function NamedTree Exec

variable {d : Disk} {sb : Superblock} {F : Flat} {es : List DirectoryEntry} {w : Walk}

section
variable {I : Inode}

def dataUpTo (V : View) (I : Inode) (l : List Nat) : List UInt8 :=
  (l.flatMap fun i => V.data (V.pointer I i)).take I.size

variable (h : Ready d sb) (hI : Intact sb (viewOf sb d) I)
include h hI

theorem blockNumberAt_run (hi : i < I.blockCount) :
    blockNumberAt I (if I.blockCount > 12 then some (blockAt d I.indirectBlock) else none) i =
      .ok ((viewOf sb d).pointer I i) := by
  unfold blockNumberAt
  by_cases h12 : i < 12
  · rw [dif_pos h12, View.pointer_direct h12]
  · have hlong : 12 < I.blockCount := by omega
    have hrange := hI.range _ (Intact.indirect_mem (.inl hlong))
    have hlen := h.length_blockAt hrange.2
    have hle := hI.count_le
    rw [dif_neg h12, if_pos hlong, View.pointer_indirect (by omega), viewOf_data hrange]
    change getLe 8 (blockAt d I.indirectBlock) ((i - 12) * 8) = _
    rw [getLe_eq (by omega), Nat.mul_comm]

variable (hc : I.blockCount = dataBlocksForSize I.size)
include hc

theorem dataLoop_run : ((range I.blockCount).foldlM (fun output index => do
        let blockNumber ← lift (blockNumberAt I
          (if I.blockCount > 12 then some (blockAt d I.indirectBlock) else none) index)
        let block ← readBlock sb blockNumber blockSize
        pure (output ++ block.take (min blockSize (I.size - index * blockSize)))) [] :
      Exec Disk FsError (List UInt8)) d = (.ok ((viewOf sb d).content I), d) := by
  have hcount : I.blockCount = (I.size + 4095) / 4096 := hc
  have hblock : ∀ j < I.blockCount,
      ((viewOf sb d).data ((viewOf sb d).pointer I j)).length = 4096 :=
    fun j hj => h.sized.inside _ (hI.pointer_range hj)
  have hcontent : (viewOf sb d).content I =
      dataUpTo (viewOf sb d) I (range I.blockCount) := by
    rw [View.content, View.fileBytes, View.blocks, flatMap_map, dataUpTo]
  have hstart : ([] : List UInt8) = dataUpTo (viewOf sb d) I [] := by
    rw [dataUpTo, flatMap_nil, take_nil]
  rw [hcontent, hstart]
  refine Decides.run_ok (P := True) (.foldlM _ _ _ trivial ?_ fun _ _ _ => trivial) trivial
  intro l i r hl _
  obtain ⟨rfl, hi⟩ := prefix_of_range hl
  have hrange := hI.pointer_range hi
  have hlen : ((range i).flatMap fun j =>
      (viewOf sb d).data ((viewOf sb d).pointer I j)).length = 4096 * i := by
    rw [length_flatMap_chunks fun j hj => hblock j ((mem_range.mp hj).trans hi), length_range]
  refine .of_ok ?_
  rw [blockNumberAt_run h hI hi, lift_ok_bind, bind_of_ok (readBlock_run h hrange.2), pure_run,
    ← viewOf_data hrange, dataUpTo, dataUpTo, flatMap_append, flatMap_singleton, take_append, hlen]
  have htake : min blockSize (I.size - i * blockSize) = min (I.size - 4096 * i)
      ((viewOf sb d).data ((viewOf sb d).pointer I i)).length := by
    rw [hblock i hi, Nat.min_comm, Nat.mul_comm]
  rw [htake, ← take_eq_take_min]

theorem readAllInodeData_run : readAllInodeData sb I d = (.ok ((viewOf sb d).content I), d) := by
  have hloop := dataLoop_run h hI hc
  have hdiv : divCeil I.size blockSize = I.blockCount := hc.symm
  unfold readAllInodeData
  by_cases hzero : I.size = 0
  · rw [View.content, hzero]
    rfl
  rw [if_neg hzero, hdiv]
  by_cases hlong : I.blockCount > 12
  · rw [if_pos hlong] at hloop ⊢
    have hrange := hI.range _ (Intact.indirect_mem (.inl hlong))
    rw [bind_of_ok (readBlock_run h hrange.2)]
    exact hloop
  · rw [if_neg hlong] at hloop ⊢
    exact hloop

end

/-! ## One directory -/

def visit (w : Walk) (e : DirectoryEntry) : Walk where
  pending := if e.kind = .directory then e.inode :: w.pending else w.pending
  reached := w.reached.set e.inode true
  names := e.name :: w.names
  directoryEntries := w.directoryEntries + 1

structure Visitable (F : Flat) (reached : List Bool) (es : List DirectoryEntry) : Prop where
  names : Distinct es
  nodup : (es.map DirectoryEntry.inode).Nodup
  ne_root : ∀ e ∈ es, e.inode ≠ 1
  target : ∀ e ∈ es, ∃ bytes, F e.inode = some (e.kind, bytes)
  fresh : ∀ e ∈ es, reached[e.inode]? = some false

section
variable {reached : List Bool} {e : DirectoryEntry}

theorem Visitable.nil : Visitable F reached [] :=
  ⟨nodup_nil, nodup_nil, by simp, by simp, by simp⟩

theorem visitable_concat : Visitable F reached (es ++ [e]) ↔ Visitable F reached es ∧
    e.name ∉ es.map DirectoryEntry.name ∧ e.inode ≠ 1 ∧
    (∃ bytes, F e.inode = some (e.kind, bytes)) ∧
    e.inode ∉ es.map DirectoryEntry.inode ∧ reached[e.inode]? = some false := by
  constructor
  · rintro ⟨hnames, hnodup, hroot, htarget, hfresh⟩
    rw [Distinct, map_append, nodup_append] at hnames
    rw [map_append, nodup_append] at hnodup
    rw [forall_mem_append, forall_mem_singleton] at hroot htarget hfresh
    refine ⟨⟨hnames.1, hnodup.1, hroot.1, htarget.1, hfresh.1⟩, fun hm => ?_, hroot.2, htarget.2,
      fun hm => ?_, hfresh.2⟩
    · exact hnames.2.2 _ hm _ (by simp) rfl
    · exact hnodup.2.2 _ hm _ (by simp) rfl
  · rintro ⟨h, hname, hroot, htarget, hinode, hfresh⟩
    refine ⟨?_, ?_, ?_, ?_, ?_⟩
    · rw [Distinct, map_append, nodup_append]
      refine ⟨h.names, nodup_singleton _, ?_⟩
      rintro a ha b hb rfl
      exact hname (mem_singleton.mp hb ▸ ha)
    · rw [map_append, nodup_append]
      refine ⟨h.nodup, nodup_singleton _, ?_⟩
      rintro a ha b hb rfl
      exact hinode (mem_singleton.mp hb ▸ ha)
    · exact forall_mem_append.mpr ⟨h.ne_root, forall_mem_singleton.mpr hroot⟩
    · exact forall_mem_append.mpr ⟨h.target, forall_mem_singleton.mpr htarget⟩
    · exact forall_mem_append.mpr ⟨h.fresh, forall_mem_singleton.mpr hfresh⟩

theorem foldl_visit_pending : (es.foldl visit w).pending =
    ((es.filter (·.kind = .directory)).map DirectoryEntry.inode).reverse ++ w.pending := by
  induction es generalizing w with
  | nil => rfl
  | cons e es ih =>
    rw [foldl_cons, ih, visit]
    by_cases hk : e.kind = .directory <;> simp [hk]

theorem foldl_visit_names :
    (es.foldl visit w).names = (es.map DirectoryEntry.name).reverse ++ w.names := by
  induction es generalizing w with
  | nil => rfl
  | cons e es ih => rw [foldl_cons, ih, visit]; simp

theorem foldl_visit_count :
    (es.foldl visit w).directoryEntries = w.directoryEntries + es.length := by
  induction es generalizing w with
  | nil => rfl
  | cons e es ih => rw [foldl_cons, ih, length_cons]; simp only [visit]; omega

theorem foldl_visit_length : (es.foldl visit w).reached.length = w.reached.length := by
  induction es generalizing w with
  | nil => rfl
  | cons e es ih => rw [foldl_cons, ih, visit, length_set]

theorem foldl_visit_reached (hn : n < w.reached.length) : (es.foldl visit w).reached[n]? =
      if n ∈ es.map DirectoryEntry.inode then some true else w.reached[n]? := by
  induction es using reverseRecOn with
  | nil => simp
  | append_singleton es e ih =>
    rw [foldl_append, foldl_cons, foldl_nil, visit, getElem?_set, ih, foldl_visit_length]
    by_cases he : e.inode = n
    · simp [he, hn]
    · simp [he, Ne.symm he]

variable {inodes : List (Option Inode)} {c bytes : List UInt8}

theorem visitEntry_decides (hroot : sb.rootInode = 1)
    (hF : ∀ n k, (∃ bytes, F n = some (k, bytes)) ↔
      ∃ I : Inode, inodes[n]?.join = some I ∧ I.kind = k) (he : DirectoryEntry.decode c = .ok e)
    (hlen : w.reached.length = inodes.length) (hcount : w.directoryEntries + 1 < 2 ^ 64) :
    Result.Decides (visitEntry sb inodes.length inodes w c)
      (e.name ∉ w.names ∧ e.inode ≠ 1 ∧ (∃ bytes, F e.inode = some (e.kind, bytes)) ∧
        w.reached[e.inode]? = some false) (visit w e) := by
  unfold visitEntry
  rw [he, addU64_eq hcount, hroot, hF]
  refine Result.Decides.congr (.guard (Q := e.inode ≠ 1 ∧
    (∃ I : Inode, inodes[e.inode]?.join = some I ∧ I.kind = e.kind) ∧
      w.reached[e.inode]? = some false) (b := visit w e) fun _ => ?_) Iff.rfl fun _ => rfl
  cases hI : inodes[e.inode]?.join with
  | none =>
    by_cases hg : ¬(e.inode = 1 ∨ e.inode ≥ inodes.length)
    · rw [Result.ensure_pos hg]
      exact .fail _ _ (by simp)
    · rw [Result.ensure_neg hg]
      exact .fail _ _ (by simp)
  | some I =>
    have hlt : e.inode < inodes.length := by
      by_contra hge
      rw [getElem?_eq_none (by omega)] at hI
      cases hI
    have hget : w.reached[e.inode]? = some w.reached[e.inode] := getElem?_eq_getElem _
    refine Result.Decides.congr (.guard fun _ => .guard fun hk => .bind_ok (index_eq hget)
      (.guard fun _ => .bind_ok (store_eq (by omega)) (.of_ok rfl))) ?_ fun hc => ?_
    · simp only [Option.some.injEq, exists_eq_left', hget]
      constructor
      · rintro ⟨h1, hk, hr, -⟩
        exact ⟨by omega, hk, hr⟩
      · rintro ⟨h1, hk, hr⟩
        exact ⟨by omega, hk, hr, trivial⟩
    · rw [visit, hc.2.1]

theorem length_entryChunk (hc : c ∈ entryChunks bytes) : c.length = 256 := by
  obtain ⟨i, hi, rfl⟩ := mem_map.mp hc
  have hi := mem_range.mp hi
  simp only [dirEntrySize] at hi ⊢
  exact length_slice (by omega)

theorem visitEntries_decides (hroot : sb.rootInode = 1)
    (hF : ∀ n k, (∃ bytes, F n = some (k, bytes)) ↔
      ∃ I : Inode, inodes[n]?.join = some I ∧ I.kind = k) (hlen : w.reached.length = inodes.length)
    (hnames : w.names = []) (hcount : w.directoryEntries + bytes.length < 2 ^ 64) :
    Result.Decides ((entryChunks bytes).foldlM (visitEntry sb inodes.length inodes) w)
      (∃ es, decodeEntries bytes = .ok es ∧ Visitable F w.reached es)
      (((decodeEntries bytes).toOption.getD []).foldl visit w) := by
  refine .foldlM (fun l => ∃ es, l.mapM DirectoryEntry.decode = .ok es ∧
      Visitable F w.reached es)
    (fun l => ((l.mapM DirectoryEntry.decode).toOption.getD []).foldl visit w)
    (entryChunks bytes) ⟨[], rfl, .nil⟩ ?_ ?_
  · rintro l c r hl ⟨es, hes, hv⟩
    have hc : c ∈ entryChunks bytes := hl ▸ by simp
    have hshort : l.length < bytes.length := by
      have := congrArg length hl
      simp only [entryChunks, length_map, length_range, length_append,
        length_cons, dirEntrySize] at this
      omega
    obtain ⟨e, he⟩ | ⟨err, herr⟩ := DirectoryEntry.decode_total (length_entryChunk hc)
    · have hstate : (l ++ [c]).mapM DirectoryEntry.decode = .ok (es ++ [e]) :=
        Result.mapM_concat_ok hes he
      simp only [hes, hstate, Except.toOption, Option.getD_some, foldl_append, Except.ok.injEq, exists_eq_left']
      refine (visitEntry_decides hroot hF he (foldl_visit_length.trans hlen) ?_).congr ?_
        fun _ => rfl
      · rw [foldl_visit_count, Result.length_of_mapM hes]
        omega
      · rw [visitable_concat, and_iff_right hv, foldl_visit_names, hnames, append_nil, mem_reverse]
        refine and_congr_right fun _ => and_congr_right fun _ => and_congr_right fun ht => ?_
        have hlt : e.inode < w.reached.length := by
          obtain ⟨I, hI, -⟩ := (hF _ _).mp ht
          by_contra hge
          rw [getElem?_eq_none (by omega)] at hI
          cases hI
        rw [foldl_visit_reached hlt]
        split <;> simp_all
    · rw [visitEntry, herr]
      refine .fail _ _ ?_
      rintro ⟨es', hes', -⟩
      obtain ⟨_, _, _, he, _⟩ := Result.of_mapM_concat hes'
      cases herr.symm.trans he
  · rintro l c ⟨es', hes', hv⟩
    obtain ⟨es, e, hes, -, rfl⟩ := Result.of_mapM_concat hes'
    exact ⟨es, hes, (visitable_concat.mp hv).1⟩

end

/-! ## The walk -/

def entriesIn (F : Flat) (D : List Nat) : List DirectoryEntry := D.flatMap (entriesAt F)

def directoriesOf (es : List DirectoryEntry) : List Nat :=
  (es.filter (·.kind = .directory)).map DirectoryEntry.inode

/-- What holds of a walk that has expanded the directories in `D`. -/
structure Walking (F : Flat) (slots : Nat) (D : List Nat) (w : Walk) : Prop where
  length : w.reached.length = slots
  reached : ∀ n < slots, w.reached[n]? =
    some (decide (n = 1 ∨ n ∈ (entriesIn F D).map DirectoryEntry.inode))
  count : w.directoryEntries = (entriesIn F D).length
  nodup : (1 :: (entriesIn F D).map DirectoryEntry.inode).Nodup
  pending : (w.pending ++ D).Perm (1 :: directoriesOf (entriesIn F D))
  decoded : ∀ n ∈ D, ∃ bytes es, F n = some (.directory, bytes) ∧ decodeEntries bytes = .ok es
  names : ∀ n ∈ D, Distinct (entriesAt F n)
  target : ∀ e ∈ entriesIn F D, ∃ bytes, F e.inode = some (e.kind, bytes)
  below : ∀ n ∈ w.pending ++ D, ∃ path, follow (childOf F) 1 path = some n

section
variable {slots n : Nat} {D rest : List Nat} {bytes : List UInt8}

theorem mem_directoriesOf : n ∈ directoriesOf es ↔ ∃ e ∈ es, e.kind = .directory ∧ e.inode = n := by
  simp only [directoriesOf, mem_map, mem_filter, decide_eq_true_eq, and_assoc]

theorem mem_entriesIn : e ∈ entriesIn F D ↔ ∃ n ∈ D, e ∈ entriesAt F n := mem_flatMap

theorem directoriesOf_append (es es' : List DirectoryEntry) :
    directoriesOf (es ++ es') = directoriesOf es ++ directoriesOf es' := by
  simp [directoriesOf]

theorem directoriesOf_sublist : (directoriesOf es).Sublist (es.map DirectoryEntry.inode) :=
  filter_sublist.map _

theorem Walking.start : Walking F slots []
    { pending := [1], reached := (replicate slots false).set 1 true, names := [],
      directoryEntries := 0 } where
  length := by simp
  reached n hn := by
    simp only [entriesIn]
    by_cases h1 : 1 = n
    · subst h1
      simp [hn]
    · simp [h1, Ne.symm h1, hn]
  count := rfl
  nodup := nodup_singleton 1
  pending := .refl _
  decoded := by simp
  names := by simp
  target := by simp [entriesIn]
  below n hn := ⟨[], by rw [mem_singleton.mp hn]; rfl⟩

section
variable (h : Walking F slots D w)
include h

theorem Walking.nodup_dirs : (w.pending ++ D).Nodup :=
  h.pending.nodup_iff.mpr (h.nodup.sublist (directoriesOf_sublist.cons_cons 1))

theorem Walking.dir_of_pending (hroot : ∃ bytes, F 1 = some (.directory, bytes))
    (hn : n ∈ w.pending ++ D) : ∃ bytes, F n = some (.directory, bytes) := by
  rcases mem_cons.mp (h.pending.mem_iff.mp hn) with rfl | hn
  · exact hroot
  · obtain ⟨e, he, hk, rfl⟩ := mem_directoriesOf.mp hn
    obtain ⟨bytes, hb⟩ := h.target e he
    exact ⟨bytes, hk ▸ hb⟩

theorem Walking.expand (hp : w.pending = n :: rest) (hF : F n = some (.directory, bytes))
    (hd : decodeEntries bytes = .ok es) (hv : Visitable F w.reached es)
    (hlt : ∀ m, F m ≠ none → m < slots) :
    Walking F slots (n :: D) (es.foldl visit { w with pending := rest, names := [] }) := by
  have hes : entriesAt F n = es := entriesAt_dir hF hd
  have hseen : entriesIn F (n :: D) = es ++ entriesIn F D := by
    rw [entriesIn, flatMap_cons, hes, entriesIn]
  have htarget : ∀ e ∈ es, e.inode < slots := by
    intro e he
    obtain ⟨b, hb⟩ := hv.target e he
    exact hlt _ (by rw [hb]; simp)
  have hfresh : ∀ e ∈ es, e.inode ∉ 1 :: (entriesIn F D).map DirectoryEntry.inode := by
    intro e he hm
    have := (h.reached _ (htarget e he)).symm.trans (hv.fresh e he)
    rw [mem_cons] at hm
    rw [decide_eq_true hm] at this
    cases this
  refine ⟨foldl_visit_length.trans h.length, ?_, ?_, ?_, ?_, ?_, ?_, ?_, ?_⟩
  · intro m hm
    rw [foldl_visit_reached (by rw [h.length]; exact hm), hseen]
    split
    · rename_i hin
      simp [hin]
    · rename_i hin
      rw [h.reached m hm]
      simp [hin]
  · rw [foldl_visit_count, hseen, length_append, h.count, Nat.add_comm]
  · have hnodup := nodup_cons.mp h.nodup
    rw [hseen, map_append, nodup_cons, mem_append, nodup_append]
    refine ⟨?_, hv.nodup, hnodup.2, ?_⟩
    · rintro (hm | hm)
      · obtain ⟨e, he, h1⟩ := mem_map.mp hm
        exact hv.ne_root e he h1
      · exact hnodup.1 hm
    · rintro a ha b hb rfl
      obtain ⟨e, he, rfl⟩ := mem_map.mp ha
      exact hfresh e he (mem_cons_of_mem _ hb)
  · have hperm := h.pending
    rw [hp] at hperm
    rw [foldl_visit_pending, hseen, directoriesOf_append]
    calc (directoriesOf es).reverse ++ rest ++ n :: D
      _ = (directoriesOf es).reverse ++ (rest ++ n :: D) := append_assoc ..
      _ |>.Perm (directoriesOf es ++ (n :: rest ++ D)) :=
        (reverse_perm _).append perm_middle
      _ |>.Perm (directoriesOf es ++ 1 :: directoriesOf (entriesIn F D)) := hperm.append_left _
      _ |>.Perm (1 :: (directoriesOf es ++ directoriesOf (entriesIn F D))) := perm_middle
  · exact forall_mem_cons.mpr ⟨⟨bytes, es, hF, hd⟩, h.decoded⟩
  · exact forall_mem_cons.mpr ⟨hes ▸ hv.names, h.names⟩
  · rw [hseen]
    exact forall_mem_append.mpr ⟨hv.target, h.target⟩
  · have hbelow := h.below
    rw [hp] at hbelow
    intro m hm
    rw [foldl_visit_pending, append_assoc, mem_append, mem_reverse] at hm
    rcases hm with hm | hm
    · obtain ⟨e, he, -, rfl⟩ := mem_directoriesOf.mp hm
      obtain ⟨path, hpath⟩ := hbelow n mem_cons_self
      refine ⟨path ++ [e.name], (follow_concat_of_some hpath).trans ?_⟩
      exact (lookup_eq_some (hes ▸ hv.names)).mpr ⟨e, hes ▸ he, rfl, rfl⟩
    · exact hbelow m (perm_middle.mem_iff.mp hm)

theorem Walking.visitable (hL : Linked F) (hp : w.pending = n :: rest)
    (hlt : ∀ m, F m ≠ none → m < slots) : Visitable F w.reached (entriesAt F n) where
  names := hL.names n
  nodup := by
    refine Nodup.map_on (fun e he e' he' hi => ?_) (Nodup.of_map _ (hL.names n))
    exact (hL.entry_unique he he' hi).2
  ne_root _ := hL.entry_ne_root
  target := hL.target n
  fresh e he := by
    obtain ⟨b, hb⟩ := hL.target n e he
    rw [h.reached _ (hlt _ (by rw [hb]; simp)), decide_eq_false]
    rintro (h1 | hm)
    · exact hL.entry_ne_root he h1
    · obtain ⟨e', he', hi⟩ := mem_map.mp hm
      obtain ⟨m, hm, he'⟩ := mem_entriesIn.mp he'
      obtain ⟨rfl, -⟩ := hL.entry_unique he he' hi.symm
      have hnodup := h.nodup_dirs
      rw [hp, cons_append, nodup_cons] at hnodup
      exact hnodup.1 (mem_append_right _ hm)

theorem Walking.length_le (hlt : ∀ m, F m ≠ none → m < slots) : D.length ≤ slots := by
  have hsub : D ⊆ range slots := by
    intro n hn
    obtain ⟨bytes, _, hF, _⟩ := h.decoded n hn
    exact mem_range.mpr (hlt n (by rw [hF]; simp))
  have hnodup := (nodup_append.mp h.nodup_dirs).2.1
  simpa using (hnodup.subperm hsub).length_le

theorem Walking.count_le (hlt : ∀ m, F m ≠ none → m < slots) : w.directoryEntries ≤ slots := by
  have hsub : (entriesIn F D).map DirectoryEntry.inode ⊆ range slots := by
    intro n hn
    obtain ⟨e, he, rfl⟩ := mem_map.mp hn
    obtain ⟨bytes, hF⟩ := h.target e he
    exact mem_range.mpr (hlt _ (by rw [hF]; simp))
  have hle := ((nodup_cons.mp h.nodup).2.subperm hsub).length_le
  rwa [length_map, length_range, ← h.count] at hle

section
variable (hp : w.pending = [])
include hp

theorem Walking.expanded (hn : n = 1 ∨ ∃ e ∈ entriesIn F D, e.kind = .directory ∧ e.inode = n) :
    n ∈ D := by
  have hperm := h.pending
  rw [hp, nil_append] at hperm
  rw [hperm.mem_iff, mem_cons, mem_directoriesOf]
  exact hn

theorem Walking.linked (hroot : ∃ bytes, F 1 = some (.directory, bytes))
    (hwhole : ∀ n bytes, F n = some (.directory, bytes) → bytes.length % 256 = 0)
    (hall : ∀ n, F n ≠ none → w.reached[n]? = some true) (hlt : ∀ n, F n ≠ none → n < slots) :
    Linked F := by
  have hseen : ∀ n, F n ≠ none → n = 1 ∨ ∃ e ∈ entriesIn F D, e.inode = n := by
    intro n hn
    have hr := (h.reached n (hlt n hn)).symm.trans (hall n hn)
    simpa using hr
  have hdirs : ∀ n bytes, F n = some (.directory, bytes) → n ∈ D := by
    intro n bytes hF
    refine h.expanded hp ((hseen n (by rw [hF]; simp)).imp_right ?_)
    rintro ⟨e, he, rfl⟩
    obtain ⟨b, hb⟩ := h.target e he
    rw [hF, Option.some_inj, Prod.mk.injEq] at hb
    exact ⟨e, he, hb.1.symm, rfl⟩
  have hmem : ∀ n, ∀ e ∈ entriesAt F n, n ∈ D := fun n e he => by
    obtain ⟨bytes, hF⟩ := dir_of_mem he
    exact hdirs n bytes hF
  have hnames : ∀ n, Distinct (entriesAt F n) := by
    intro n
    by_cases hnil : entriesAt F n = []
    · rw [hnil]
      exact nodup_nil
    · obtain ⟨e, he⟩ := exists_mem_of_ne_nil _ hnil
      exact h.names n (hmem n e he)
  have hchild : ∀ n a k, childOf F n a = some k →
      ∃ e ∈ entriesAt F n, e.name = a ∧ e.inode = k :=
    fun n a k hc => (lookup_eq_some (hnames n)).mp hc
  refine ⟨hroot, hwhole, ?_, hnames, ?_, ⟨?_, ?_⟩, ?_⟩
  · intro n bytes hF
    obtain ⟨b, es, hb, hes⟩ := h.decoded n (hdirs n bytes hF)
    cases hF.symm.trans hb
    exact ⟨es, hes⟩
  · intro n e he
    exact h.target e (mem_entriesIn.mpr ⟨n, hmem n e he, he⟩)
  · intro n a hc
    obtain ⟨e, he, -, h1⟩ := hchild n a 1 hc
    refine (nodup_cons.mp h.nodup).1 (mem_map.mpr ⟨e, ?_, h1⟩)
    exact mem_entriesIn.mpr ⟨n, hmem n e he, he⟩
  · intro i j a b k hi hj
    obtain ⟨e, he, rfl, rfl⟩ := hchild i a k hi
    obtain ⟨e', he', rfl, hk⟩ := hchild j b _ hj
    have hnodup := (nodup_cons.mp h.nodup).2
    have hsame : e = e' := inj_on_of_nodup_map hnodup
      (mem_entriesIn.mpr ⟨i, hmem i e he, he⟩) (mem_entriesIn.mpr ⟨j, hmem j e' he', he'⟩) hk.symm
    subst hsame
    refine ⟨by_contra fun hne => ?_, rfl⟩
    have hdisjoint := (nodup_flatMap.mp (Nodup.of_map _ hnodup)).2
    have hsymm : Std.Symm (onFun Disjoint (entriesAt F)) := ⟨fun _ _ hd => hd.symm⟩
    exact hdisjoint.forall (hmem i e he) (hmem j e he') hne he he'
  · intro n hn
    rcases hseen n hn with rfl | ⟨e, he, rfl⟩
    · exact ⟨[], rfl⟩
    · obtain ⟨m, hm, he⟩ := mem_entriesIn.mp he
      obtain ⟨path, hpath⟩ := h.below m (mem_append_right _ hm)
      exact ⟨path ++ [e.name], (follow_concat_of_some hpath).trans
        ((lookup_eq_some (hnames m)).mpr ⟨e, he, rfl, rfl⟩)⟩

theorem Walking.all_reached (hL : Linked F) (hlt : ∀ n, F n ≠ none → n < slots) (hn : F n ≠ none) :
    w.reached[n]? = some true := by
  obtain ⟨path, hpath⟩ := hL.reached n hn
  suffices hseen : n = 1 ∨ ∃ e ∈ entriesIn F D, e.inode = n by
    rw [h.reached n (hlt n hn), decide_eq_true (by simpa using hseen)]
  induction path using reverseRecOn generalizing n with
  | nil =>
    cases hpath
    exact .inl rfl
  | append_singleton path a ih =>
    rw [follow_concat, Option.bind_eq_some_iff] at hpath
    obtain ⟨m, hm, hc⟩ := hpath
    obtain ⟨e, he, -, rfl⟩ := hL.childOf_eq_some.mp hc
    obtain ⟨bytes, hF⟩ := dir_of_mem he
    refine .inr ⟨e, mem_entriesIn.mpr ⟨m, h.expanded hp ?_, he⟩, rfl⟩
    refine (ih (by rw [hF]; simp) hm).imp_right ?_
    rintro ⟨e', he', rfl⟩
    obtain ⟨b, hb⟩ := h.target e' he'
    rw [hF, Option.some_inj, Prod.mk.injEq] at hb
    exact ⟨e', he', hb.1.symm, rfl⟩

end

end

end

variable {n : Nat}

def foundInodes (sb : Superblock) (d : Disk) : List (Option Inode) :=
  (scanOf sb (viewOf sb d) sb.inodeNumbers).inodes

theorem length_foundInodes : (foundInodes sb d).length = sb.slots := by
  simp [foundInodes, scanOf]

theorem getElem_foundInodes (ho : Owned sb (viewOf sb d)) :
    (foundInodes sb d)[n]?.join = (viewOf sb d).inode n := by
  by_cases hlt : n < sb.slots
  · simp only [foundInodes, scanOf, getElem?_map, getElem?_range hlt, Option.map_some,
      mem_inodeNumbers]
    split
    · rfl
    · rename_i hn
      have h0 : n = 0 := by omega
      simp [h0, View.inode]
  · rw [getElem?_eq_none (by rw [length_foundInodes]; omega)]
    cases hI : (viewOf sb d).inode n with
    | none => rfl
    | some I => exact absurd (ho.lt_slots hI) hlt

theorem walkTree_run (h : Ready d sb) (ho : Owned sb (viewOf sb d)) (hd : Directories (viewOf sb d))
    (fuel : Nat) (hw : Walking (viewOf sb d).flat sb.slots D w)
    (hfuel : sb.slots < fuel + D.length) :
    (∃ w' D', walkTree sb sb.slots (foundInodes sb d) fuel w d = (.ok w', d) ∧
      Walking (viewOf sb d).flat sb.slots D' w' ∧ w'.pending = []) ∨
    (¬Linked (viewOf sb d).flat ∧
      ∃ e, walkTree sb sb.slots (foundInodes sb d) fuel w d = (.error (.error e), d)) := by
  have hlt : ∀ m, (viewOf sb d).flat m ≠ none → m < sb.slots := fun _ => ho.lt_of_flat
  have hroot : ∃ bytes, (viewOf sb d).flat 1 = some (.directory, bytes) := by
    obtain ⟨I, hI, hk⟩ := hd.root
    exact ⟨_, (View.flat_of_inode hI).trans (by rw [hk])⟩
  induction fuel generalizing D w with
  | zero =>
    have := hw.length_le hlt
    omega
  | succ fuel ih =>
    cases hp : w.pending with
    | nil =>
      refine .inl ⟨w, D, ?_, hw, hp⟩
      rw [walkTree, hp]
      rfl
    | cons n rest =>
      obtain ⟨bytes, hF⟩ := hw.dir_of_pending (n := n) hroot (by simp [hp])
      obtain ⟨I, hI, hk, rfl⟩ := View.flat_eq_some.mp hF
      have hlen := (ho.intact n I hI).length_content h.sized (ho.count n I hI)
      have hread := readAllInodeData_run h (ho.intact n I hI) (ho.count n I hI)
      rw [walkTree, hp]
      dsimp only
      rw [getElem_foundInodes ho, hI, okOr_some, pure_bind_run, ensure_bind_pos hk,
        bind_of_ok hread, ensure_bind_pos (by rw [hlen]; exact hd.whole n I hI hk)]
      have hcount : w.directoryEntries + ((viewOf sb d).content I).length < 2 ^ 64 := by
        have hslots := h.valid.slots_le
        have hcount := hw.count_le hlt
        have hsize := size_le_of_count (ho.count n I hI)
        have hblocks := (ho.intact n I hI).count_le
        omega
      have hvisit : Result.Decides ((entryChunks ((viewOf sb d).content I)).foldlM
            (visitEntry sb (foundInodes sb d).length (foundInodes sb d))
            { w with pending := rest, names := [] })
          (∃ es, decodeEntries ((viewOf sb d).content I) = .ok es ∧
            Visitable (viewOf sb d).flat w.reached es) _ :=
        visitEntries_decides h.valid.root_eq (fun m k => by
          simp only [getElem_foundInodes ho, View.flat_eq_some]
          exact ⟨fun ⟨_, J, hJ, hk, _⟩ => ⟨J, hJ, hk⟩, fun ⟨J, hJ, hk⟩ => ⟨_, J, hJ, hk, rfl⟩⟩)
          (hw.length.trans length_foundInodes.symm) rfl hcount
      rw [length_foundInodes] at hvisit
      rcases hvisit with ⟨⟨es, hes, hv⟩, hrun⟩ | ⟨hnot, e, hrun⟩
      · rw [hrun, hes]
        refine ih (hw.expand hp hF hes hv hlt) ?_
        rw [length_cons]
        omega
      · rw [hrun]
        refine .inr ⟨fun hL => hnot ?_, e, rfl⟩
        obtain ⟨es, hes⟩ := hL.decoded n _ hF
        exact ⟨es, hes, entriesAt_dir hF hes ▸ hw.visitable hL hp hlt⟩

end NexOs.Nexfs
