import NexOs.Kernel.PageTree
import NexOs.Kernel.FrameRuns

/-! What `map_page` does to the tree above the last level: tables are created, and entries are
opened to the user, but no translation changes. -/
namespace NexOs.Kernel.PagingInfo
open List Bytes Align Exec

variable {info : PagingInfo} {memory memory' : Nat → Nat} {s s' : PageState}
  {p u page rest frames : List Nat} {t e i flags : Nat} {view view' : List Nat → Option Nat}

/-! ## Changes that no translation sees -/

def Dead (view : List Nat → Option Nat) (u : List Nat) : Prop :=
  ∀ e, view u = some e → e &&& present = 0

/-- The entry at `u` is as before, or points to the same table, or to a new one without present
entries. -/
inductive Unseen (view view' : List Nat → Option Nat) (u : List Nat) : Prop
  | same (h : view' u = view u)
  | inner {e e' : Nat} (h : view u = some e) (hpresent : e &&& present ≠ 0)
      (hleaf : ¬IsLeaf (u.length - 1) e) (h' : view' u = some e') (hpresent' : e' &&& present ≠ 0)
      (hleaf' : ¬IsLeaf (u.length - 1) e')
  | linked {e' : Nat} (h : Dead view u) (h' : view' u = some e') (hpresent' : e' &&& present ≠ 0)
      (hleaf' : ¬IsLeaf (u.length - 1) e') (hbelow : ∀ j, Dead view' (j :: u))
  | dead (h : Dead view u) (h' : Dead view' u)

theorem dead_of_some (h : view u = some e) (hpresent : e &&& present = 0) : Dead view u := by
  intro d hd
  cases h.symm.trans hd
  exact hpresent

theorem not_isLeaf (hhuge : e &&& hugePage = 0) (hlevel : level ≤ 2) :
    ¬IsLeaf level e := by
  rw [IsLeaf]
  omega

theorem lookup_of_dead (h : Dead view (i :: p)) : lookup view p (i :: rest) = none := by
  rw [lookup]
  cases he : view (i :: p) with
  | none => rfl
  | some e => rw [Option.bind_some, if_pos (h e he)]

theorem lookup_of_inner (h : view (i :: p) = some e) (hpresent : e &&& present ≠ 0)
    (hleaf : ¬IsLeaf p.length e) : lookup view p (i :: rest) = lookup view (i :: p) rest := by
  rw [lookup, h, Option.bind_some, if_neg hpresent, if_neg hleaf]

theorem lookup_of_leaf (h : view (i :: p) = some e) (hpresent : e &&& present ≠ 0)
    (hleaf : IsLeaf p.length e) : lookup view p (i :: rest) = some (i :: p, e) := by
  rw [lookup, h, Option.bind_some, if_neg hpresent, if_pos hleaf]

theorem lookup_of_unseen (h : ∀ u, Unseen view view' u) :
    lookup view' p rest = lookup view p rest := by
  induction rest generalizing p with
  | nil => rfl
  | cons i rest ih =>
    cases h (i :: p) with
    | same heq =>
      rw [lookup]
      congr 1
      funext e
      rw [ih]
    | inner he hpresent hleaf he' hpresent' hleaf' =>
      rw [lookup_of_inner he hpresent hleaf, lookup_of_inner he' hpresent' hleaf', ih]
    | linked hdead he' hpresent' hleaf' hbelow =>
      rw [lookup_of_dead hdead, lookup_of_inner he' hpresent' hleaf']
      cases rest with
      | nil => rfl
      | cons j rest => exact lookup_of_dead (hbelow j)
    | dead hdead hdead' => rw [lookup_of_dead hdead, lookup_of_dead hdead']

theorem lookup_congr (h : ∀ u, p <:+ u → u <:+ rest.reverse ++ p → view' u = view u) :
    lookup view' p rest = lookup view p rest := by
  induction rest generalizing p with
  | nil => rfl
  | cons i rest ih =>
    rw [reverse_cons, append_assoc] at h
    rw [lookup, h (i :: p) (suffix_cons i p) (suffix_append _ _)]
    congr 1
    funext e
    rw [ih fun u hp hu => h u ((suffix_cons i p).trans hp) hu]

theorem lookup_of_table (h : (info.radix memory).table p = some t) :
    lookup (info.radix memory).entry [] (p.reverse ++ rest) =
      lookup (info.radix memory).entry p rest := by
  induction p generalizing t rest with
  | nil => rfl
  | cons i p ih =>
    rw [Radix.table_cons, Option.bind_eq_some_iff] at h
    obtain ⟨e, he, hchild⟩ := h
    obtain ⟨hpresent, hleaf, -⟩ := childOf_eq_some hchild
    have hparent : ∃ t, (info.radix memory).table p = some t := by
      rw [Radix.entry, Option.bind_eq_some_iff] at he
      obtain ⟨t, ht, -⟩ := he
      exact ⟨t, ht⟩
    obtain ⟨t, ht⟩ := hparent
    rw [reverse_cons, append_assoc, singleton_append, ih ht, lookup_of_inner he hpresent hleaf]

/-! ## The state of the tables -/

/-- A four-level page table in whole frames, each of them used once. -/
structure TreeShaped (info : PagingInfo) (memory : Nat → Nat) : Prop where
  root : info.level4Frame % 4096 = 0
  tree : (info.radix memory).Tree

/-- The frames that the allocator will return are distinct, and none of them is a table. -/
structure Fresh (info : PagingInfo) (s : PageState) (frames : List Nat) : Prop where
  obtains : s.allocator.Obtains frames
  nodup : frames.Nodup
  frame : ∀ f ∈ frames, f % 4096 = 0 ∧ f < 2 ^ 52
  outside : ∀ f ∈ frames, ∀ p, (info.radix s.memory).table p ≠ some f

structure Good (info : PagingInfo) (s : PageState) : Prop extends TreeShaped info s.memory where
  fresh : ∃ frames, Fresh info s frames

/-- Every entry that was present still is, with at least the access it had. -/
structure Grown (info : PagingInfo) (s s' : PageState) : Prop where
  good : Good info s'
  lookup : ∀ page, lookup (info.radix s'.memory).entry [] page =
    lookup (info.radix s.memory).entry [] page
  entry : ∀ u e, (info.radix s.memory).entry u = some e → e &&& present ≠ 0 →
    ∃ e', (info.radix s'.memory).entry u = some e' ∧ e' &&& present ≠ 0 ∧
      e' &&& hugePage = e &&& hugePage ∧
      (e &&& userAccessible ≠ 0 → e' &&& userAccessible ≠ 0)
  table : ∀ u t, (info.radix s.memory).table u = some t → (info.radix s'.memory).table u = some t

theorem Grown.trans {s'' : PageState} (h : Grown info s s') (h' : Grown info s' s'') :
    Grown info s s'' where
  good := h'.good
  lookup page := (h'.lookup page).trans (h.lookup page)
  entry u e he hpresent := by
    obtain ⟨e', he', hpresent', hhuge', huser'⟩ := h.entry u e he hpresent
    obtain ⟨e'', he'', hpresent'', hhuge'', huser''⟩ := h'.entry u e' he' hpresent'
    exact ⟨e'', he'', hpresent'', hhuge''.trans hhuge', fun huser => huser'' (huser' huser)⟩
  table u t ht := h'.table u t (h.table u t ht)

theorem Grown.allocator (h : Good info s) (hfresh : Fresh info { s with allocator := b } frames) :
    Grown info s { s with allocator := b } where
  good := ⟨h.toTreeShaped, frames, hfresh⟩
  lookup _ := rfl
  entry _ e he hpresent := ⟨e, he, hpresent, rfl, id⟩
  table _ _ ht := ht

theorem Grown.refl (h : Good info s) : Grown info s s :=
  have ⟨_, hfresh⟩ := h.fresh
  .allocator h hfresh

/-! ## One entry -/

theorem allocateFrame_run (h : Fresh info s frames) :
    ∃ b, allocateFrame s = (.ok frames.head?, { s with allocator := b }) ∧
      Fresh info { s with allocator := b } frames.tail := by
  have hrun : ∀ {result b}, (FrameAllocator.allocate s.allocator : Result Empty _ × _) =
      (.ok result, b) → allocateFrame s = (.ok result, { s with allocator := b }) := by
    intro result b hallocate
    rw [allocateFrame, zoom, mapError_of_ok hallocate]
  have hobtains := h.obtains
  cases hobtains with
  | @none _ b hnone =>
    exact ⟨b, hrun hnone, .none (FrameAllocator.allocate_of_none hnone), .nil,
      forall_mem_nil _, forall_mem_nil _⟩
  | @some _ b f frames hsome hrest =>
    refine ⟨b, hrun hsome, hrest, ?_, ?_, ?_⟩
    · exact (nodup_cons.mp h.nodup).2
    · intro g hg
      exact h.frame g (.tail _ hg)
    · intro g hg
      exact h.outside g (.tail _ hg)

theorem or_user_present : (e ||| userAccessible) &&& present = e &&& present :=
  or_and_of_disjoint (by decide)

theorem or_user_huge : (e ||| userAccessible) &&& hugePage = e &&& hugePage :=
  or_and_of_disjoint (by decide)

theorem or_user_mask : (e ||| userAccessible) &&& entryAddressMask = e &&& entryAddressMask :=
  or_and_of_disjoint (by decide)

theorem or_user_user : (e ||| userAccessible) &&& userAccessible ≠ 0 := by
  rw [or_and_absorb]
  decide

def tableEntry (newTable flags : Nat) : Nat :=
  if flags &&& userAccessible ≠ 0 then newTable ||| present ||| writable ||| userAccessible
  else newTable ||| present ||| writable

theorem tableEntry_bits (hmod : t % 4096 = 0) (hlt : t < 2 ^ 52) (flags : Nat) :
    tableEntry t flags &&& present ≠ 0 ∧ tableEntry t flags &&& hugePage = 0 ∧
      tableEntry t flags &&& entryAddressMask = t ∧
      (flags &&& userAccessible ≠ 0 → tableEntry t flags &&& userAccessible ≠ 0) := by
  have hpresent : (t ||| present ||| writable) &&& present ≠ 0 := by
    rw [or_and_of_disjoint (by decide), or_and_absorb]
    decide
  have hhuge : (t ||| present ||| writable) &&& hugePage = 0 := by
    rw [or_and_of_disjoint (by decide), or_and_of_disjoint (by decide), and_huge]
    omega
  have hmask : (t ||| present ||| writable) &&& entryAddressMask = t := by
    rw [or_and_of_disjoint (by decide), or_and_of_disjoint (by decide), mask_of_frame hmod hlt]
  rw [tableEntry]
  by_cases huser : flags &&& userAccessible ≠ 0
  · rw [if_pos huser, or_user_present, or_user_huge, or_user_mask]
    exact ⟨hpresent, hhuge, hmask, fun _ => or_user_user⟩
  · rw [if_neg huser]
    exact ⟨hpresent, hhuge, hmask, fun h => absurd h huser⟩

section
variable (h : TreeShaped info memory) (ht : (info.radix memory).table p = some t)
include h ht

theorem rewrites_writeWord (hi : i < 512) (v : Nat) :
    Radix.Rewrites (info.radix memory)
      (info.radix (writeWord memory (info.hhdmOffset + t + i * 8) v)) p i where
  root := rfl
  child := rfl
  cell q u j hu hne := by
    apply readEntry_writeWord (table_mod h.root ht) (table_mod h.root hu) hi
    rintro ⟨rfl, rfl⟩
    exact hne (by rw [h.tree q p u hu ht])

omit h in
theorem entry_of_table (hi : i < 512 ∧ info.hhdmOffset + t + i * 8 < 2 ^ 64) :
    (info.radix memory).entry (i :: p) = some (memory (info.hhdmOffset + t + i * 8)) :=
  (Radix.entry_cons ht).trans ((readEntry_eq info memory t i).trans (if_pos hi))

theorem entry_writeWord (hi : i < 512 ∧ info.hhdmOffset + t + i * 8 < 2 ^ 64) (v : Nat) :
    (info.radix (writeWord memory (info.hhdmOffset + t + i * 8) v)).entry (i :: p) = some v := by
  rw [(rewrites_writeWord h ht hi.1 v).entry_self ht]
  exact readEntry_writeWord_self hi v

end

theorem Good.rewritten (h : Good info s)
    (hrewrites : Radix.Rewrites (info.radix s.memory) (info.radix memory') p i)
    (hsame : (info.radix memory').table (i :: p) = (info.radix s.memory).table (i :: p)) :
    Good info ⟨memory', s.allocator⟩ := by
  obtain ⟨frames, hfresh⟩ := h.fresh
  refine ⟨⟨h.root, hrewrites.tree_of_same hsame h.tree⟩, frames, hfresh.obtains, hfresh.nodup,
    hfresh.frame, ?_⟩
  intro f hf q
  rw [hrewrites.table_of_same hsame]
  exact hfresh.outside f hf q

theorem Grown.opened (h : Good info s) (ht : (info.radix s.memory).table p = some t)
    (hi : i < 512 ∧ info.hhdmOffset + t + i * 8 < 2 ^ 64)
    (he : (info.radix s.memory).entry (i :: p) = some e) (hpresent : e &&& present ≠ 0)
    (hhuge : e &&& hugePage = 0) (hlevel : p.length ≤ 2) :
    Grown info s ⟨writeWord s.memory (info.hhdmOffset + t + i * 8) (e ||| userAccessible),
      s.allocator⟩ := by
  have hrewrites := rewrites_writeWord h.toTreeShaped ht hi.1 (e ||| userAccessible)
  have hself := entry_writeWord h.toTreeShaped ht hi (e ||| userAccessible)
  generalize writeWord s.memory (info.hhdmOffset + t + i * 8) (e ||| userAccessible) = memory'
    at hrewrites hself
  have hleaf := not_isLeaf hhuge hlevel
  have hpresent' : (e ||| userAccessible) &&& present ≠ 0 := by rwa [or_user_present]
  have hleaf' : ¬IsLeaf p.length (e ||| userAccessible) := by
    rwa [IsLeaf, or_user_huge]
  have hsame : (info.radix memory').table (i :: p) = (info.radix s.memory).table (i :: p) := by
    rw [Radix.table_cons, Radix.table_cons, hself, he]
    refine (childOf_eq hpresent' hleaf').trans ?_
    rw [or_user_mask]
    exact (childOf_eq hpresent hleaf).symm
  have hother : ∀ u, u ≠ i :: p →
      (info.radix memory').entry u = (info.radix s.memory).entry u :=
    fun u hu => hrewrites.entry_of_same hsame hu
  refine ⟨h.rewritten hrewrites hsame, ?_, ?_, ?_⟩
  · intro page
    apply lookup_of_unseen
    intro u
    by_cases hu : u = i :: p
    · subst hu
      exact .inner he hpresent hleaf hself hpresent' hleaf'
    · exact .same (hother u hu)
  · intro u d hd hdpresent
    by_cases hu : u = i :: p
    · subst hu
      rw [he] at hd
      cases hd
      exact ⟨_, hself, hpresent', or_user_huge, fun _ => or_user_user⟩
    · exact ⟨d, (hother u hu).trans hd, hdpresent, rfl, id⟩
  · intro u t hut
    rw [hrewrites.table_of_same hsame]
    exact hut

def linkTable (info : PagingInfo) (memory : Nat → Nat) (t i f flags : Nat) : Nat → Nat :=
  writeWord (clearPage memory (info.hhdmOffset + f)) (info.hhdmOffset + t + i * 8)
    (tableEntry f flags)

theorem links_linkTable (h : TreeShaped info memory) (ht : (info.radix memory).table p = some t)
    (hi : i < 512 ∧ info.hhdmOffset + t + i * 8 < 2 ^ 64)
    (he : (info.radix memory).entry (i :: p) = some e) (hpresent : e &&& present = 0)
    (hlevel : p.length ≤ 2) (hframe : f % 4096 = 0 ∧ f < 2 ^ 52)
    (hfresh : ∀ q, (info.radix memory).table q ≠ some f) (flags : Nat) :
    Radix.Links (info.radix memory) (info.radix (info.linkTable memory t i f flags)) p i f ∧
      (info.radix (info.linkTable memory t i f flags)).entry (i :: p) =
        some (tableEntry f flags) ∧
      ∀ j, Dead (info.radix (info.linkTable memory t i f flags)).entry (j :: i :: p) := by
  obtain ⟨hnew, hhuge, hmask, -⟩ := tableEntry_bits hframe.1 hframe.2 flags
  have htmod := table_mod h.root ht
  have hft : f ≠ t := by
    rintro rfl
    exact hfresh p ht
  have hcell : (info.radix (info.linkTable memory t i f flags)).cell t i =
      some (tableEntry f flags) := readEntry_writeWord_self hi _
  have hempty : ∀ j d, (info.radix (info.linkTable memory t i f flags)).cell f j = some d →
      d = 0 := by
    intro j d hd
    have hclear : info.readEntry (info.linkTable memory t i f flags) f j =
        info.readEntry (clearPage memory (info.hhdmOffset + f)) f j :=
      readEntry_writeWord htmod hframe.1 hi.1 (fun hsame => hft hsame.1) _
    exact readEntry_clearPage_self (hclear.symm.trans hd)
  have hrewrites : Radix.Rewrites (info.radix memory)
      (info.radix (info.linkTable memory t i f flags)) p i := by
    refine ⟨rfl, rfl, ?_⟩
    intro q u j hu hne
    have humod := table_mod h.root hu
    have huf : u ≠ f := by
      rintro rfl
      exact hfresh q hu
    refine (readEntry_writeWord htmod humod hi.1 ?_ _).trans
      (readEntry_clearPage hframe.1 humod huf)
    rintro ⟨rfl, rfl⟩
    exact hne (by rw [h.tree q p u hu ht])
  have hentry := hrewrites.entry_self ht
  rw [hcell] at hentry
  have hleaf := not_isLeaf hhuge hlevel
  have hlinked : (info.radix (info.linkTable memory t i f flags)).table (i :: p) = some f := by
    rw [Radix.table_cons, hentry]
    refine (childOf_eq hnew hleaf).trans ?_
    rw [hmask]
  refine ⟨⟨hrewrites, ?_, hlinked, ?_⟩, hentry, ?_⟩
  · rw [Radix.table_cons, he]
    exact childOf_eq_none hpresent
  · intro j d hd
    rw [hempty j d hd]
    exact childOf_eq_none (e := 0) (i := p.length + 1) rfl
  · intro j d hd
    rw [Radix.entry_cons hlinked] at hd
    rw [hempty j d hd]
    rfl

variable (h : Good info s) (ht : (info.radix s.memory).table p = some t)
  (hi : i < 512 ∧ info.hhdmOffset + t + i * 8 < 2 ^ 64)
include h ht hi

theorem Grown.linked (he : (info.radix s.memory).entry (i :: p) = some e)
    (hpresent : e &&& present = 0) (hlevel : p.length ≤ 2) (hframe : f % 4096 = 0 ∧ f < 2 ^ 52)
    (hnew : ∀ q, (info.radix s.memory).table q ≠ some f) (hother : f ∉ frames)
    (hfresh : Fresh info s frames) (flags : Nat) :
    Grown info s ⟨info.linkTable s.memory t i f flags, s.allocator⟩ := by
  obtain ⟨hlinks, hentry, hbelow⟩ :=
    links_linkTable h.toTreeShaped ht hi he hpresent hlevel hframe hnew flags
  obtain ⟨hnewpresent, hhuge, -, -⟩ := tableEntry_bits hframe.1 hframe.2 flags
  have hleaf := not_isLeaf hhuge hlevel
  have hdead := dead_of_some he hpresent
  have hnone : ∀ j, (info.radix s.memory).entry (j :: i :: p) = none := by
    intro j
    rw [Radix.entry, hlinks.before, Option.bind_none]
  -- A path is that of the new entry, that of an entry in the new table, or as before.
  have hpaths : ∀ u, u = i :: p ∨ (∃ j, u = j :: i :: p) ∨
      (info.radix (info.linkTable s.memory t i f flags)).entry u =
        (info.radix s.memory).entry u := by
    intro u
    by_cases hself : u = i :: p
    · exact .inl hself
    · by_cases hinside : ∃ j, u = j :: i :: p
      · exact .inr (.inl hinside)
      · exact .inr (.inr (hlinks.entry_eq hself fun j hj => hinside ⟨j, hj⟩))
  refine ⟨⟨⟨h.root, hlinks.tree h.tree hnew⟩, frames, hfresh.obtains, hfresh.nodup,
    hfresh.frame, ?_⟩, ?_, ?_, ?_⟩
  · intro g hg q hq
    by_cases hself : q = i :: p
    · rw [hself, hlinks.linked] at hq
      cases hq
      exact hother hg
    · rw [hlinks.table_eq hself] at hq
      exact hfresh.outside g hg q hq
  · intro page
    apply lookup_of_unseen
    intro u
    rcases hpaths u with rfl | ⟨j, rfl⟩ | hsame
    · exact .linked hdead hentry hnewpresent hleaf hbelow
    · refine .dead ?_ (hbelow j)
      intro d hd
      rw [hnone j] at hd
      cases hd
    · exact .same hsame
  · intro u d hd hdpresent
    rcases hpaths u with rfl | ⟨j, rfl⟩ | hsame
    · exact absurd (hdead d hd) hdpresent
    · rw [hnone j] at hd
      cases hd
    · exact ⟨d, hsame.trans hd, hdpresent, rfl, id⟩
  · intro u t hut
    have hne : u ≠ i :: p := by
      rintro rfl
      rw [hlinks.before] at hut
      cases hut
    rw [hlinks.table_eq hne]
    exact hut

inductive Prepared (info : PagingInfo) (flags : Nat) (s : PageState) (u : List Nat) :
    Result PageMapError Nat × PageState → Prop
  | ready {entry : Nat} {s' : PageState} (grown : Grown info s s')
      (hentry : (info.radix s'.memory).entry u = some entry) (hpresent : entry &&& present ≠ 0)
      (hhuge : entry &&& hugePage = 0)
      (huser : flags &&& userAccessible ≠ 0 → entry &&& userAccessible ≠ 0) :
      Prepared info flags s u (.ok entry, s')
  | failed {error : PageMapError} {s' : PageState} (grown : Grown info s s')
      (hcause : Dead (info.radix s.memory).entry u ∨ error = .hugePageConflict) :
      Prepared info flags s u (.error (.error error), s')

theorem createTable_run (he : (info.radix s.memory).entry (i :: p) = some e)
    (hpresent : e &&& present = 0) (hlevel : p.length ≤ 2) :
    Prepared info flags s (i :: p)
      (info.createTable (info.hhdmOffset + t + i * 8) flags s) := by
  have hdead := dead_of_some he hpresent
  obtain ⟨frames, hfresh⟩ := h.fresh
  obtain ⟨b, hrun, hrest⟩ := allocateFrame_run hfresh
  have hmoved : Grown info s ⟨s.memory, b⟩ := Grown.allocator h hrest
  rw [createTable, bind_of_ok hrun]
  cases frames with
  | nil => exact .failed hmoved (.inl hdead)
  | cons f frames =>
    rw [head?_cons, okOr_some, pure_bind_run]
    by_cases hbase : info.hhdmOffset + f < 2 ^ 64
    · rw [checkedAdd_eq hbase]
      have hframe := hfresh.frame f (.head _)
      have hlinked := Grown.linked hmoved.good ht hi he hpresent hlevel hframe
        (hfresh.outside f (.head _)) (nodup_cons.mp hfresh.nodup).1 hrest flags
      obtain ⟨-, hentry, -⟩ := links_linkTable h.toTreeShaped ht hi he hpresent hlevel hframe
        (hfresh.outside f (.head _)) flags
      obtain ⟨hnew, hhuge, -, huser⟩ := tableEntry_bits hframe.1 hframe.2 flags
      exact .ready (hmoved.trans hlinked) hentry hnew hhuge huser
    · rw [checkedAdd_none hbase]
      exact .failed hmoved (.inl hdead)

theorem prepareEntry_run (hlevel : p.length ≤ 2) (flags : Nat) :
    Prepared info flags s (i :: p) (info.prepareEntry (info.hhdmOffset + t + i * 8) flags
      (s.memory (info.hhdmOffset + t + i * 8)) s) := by
  have he := entry_of_table ht hi
  generalize s.memory (info.hhdmOffset + t + i * 8) = e at he
  rw [prepareEntry]
  by_cases hpresent : e &&& present = 0
  · rw [if_pos hpresent]
    exact createTable_run h ht hi he hpresent hlevel
  · rw [if_neg hpresent]
    by_cases hhuge : e &&& hugePage ≠ 0
    · rw [if_pos hhuge]
      exact .failed (.refl h) (.inr rfl)
    · rw [if_neg hhuge]
      have hnothuge : e &&& hugePage = 0 := not_not.mp hhuge
      by_cases hopen : flags &&& userAccessible ≠ 0 ∧ e &&& userAccessible = 0
      · rw [if_pos hopen]
        have hself := entry_writeWord h.toTreeShaped ht hi (e ||| userAccessible)
        refine .ready (Grown.opened h ht hi he hpresent hnothuge hlevel) hself ?_ ?_ ?_
        · rwa [or_user_present]
        · rwa [or_user_huge]
        · exact fun _ => or_user_user
      · rw [if_neg hopen]
        refine .ready (.refl h) he hpresent hnothuge ?_
        intro hflags huser
        exact hopen ⟨hflags, huser⟩

end NexOs.Kernel.PagingInfo
