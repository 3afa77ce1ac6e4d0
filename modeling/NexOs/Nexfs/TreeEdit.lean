import NexOs.Nexfs.Tree

/-! What the operations do to the directory tree, one change of an entry list
at a time. -/
namespace NexOs.Nexfs
open List Bytes Storage Function NamedTree

variable {d n : Nat} {e : DirectoryEntry} {entries : List DirectoryEntry} {F F' : Flat}
  {bytes : List UInt8}

section
variable {E : Nat → List DirectoryEntry}

def childrenOf (E : Nat → List DirectoryEntry) (n : Nat) (name : String) : Option Nat :=
  lookup (E n) name

theorem childOf_eq (F : Flat) : childOf F = childrenOf (entriesAt F) := rfl

theorem childrenOf_add (hp : entries.Perm (e :: E d)) (hd : Distinct entries) :
    childrenOf (update E d entries) = link (childrenOf E) d e.name e.inode := by
  funext n name
  by_cases hn : n = d
  · subst hn
    rw [childrenOf, update_self, ← lookup_perm hd hp, lookup_cons, link]
    simp only [true_and]
    rfl
  · rw [childrenOf, update_of_ne hn, link, if_neg fun hc => hn hc.1]
    rfl

theorem childrenOf_remove (hp : (E d).Perm (e :: entries)) (hd : Distinct (E d)) :
    childrenOf (update E d entries) = unlink (childrenOf E) d e.name := by
  have hcons : Distinct (e :: entries) := (hp.map _).nodup_iff.mp hd
  funext n name
  by_cases hn : n = d
  · subst hn
    rw [childrenOf, update_self, unlink]
    simp only [true_and]
    by_cases hname : name = e.name
    · rw [if_pos hname, lookup_eq_none]
      rintro e' he' rfl
      exact (nodup_cons.mp hcons).1 (hname ▸ mem_map_of_mem he')
    · rw [if_neg hname, childrenOf, ← lookup_perm hd hp, lookup_cons, if_neg hname]
  · rw [childrenOf, update_of_ne hn, unlink, if_neg fun hc => hn hc.1]
    rfl

end

theorem length_decodeEntries (h : decodeEntries bytes = .ok entries) :
    entries.length = bytes.length / 256 := by
  rw [Result.length_of_mapM h, entryChunks, length_map, length_range]

theorem valid_of_mem (he : e ∈ entriesAt F n) : e.Valid := by
  unfold entriesAt at he
  split at he
  · rename_i bytes _
    cases hd : decodeEntries bytes with
    | error x => simp [hd, Except.toOption] at he
    | ok es =>
      simp only [hd] at he
      exact Result.forall_of_mapM (fun _ _ => DirectoryEntry.valid_of_decode) hd e he
  · cases he

def withEntries (F : Flat) (d : Nat) (entries : List DirectoryEntry) : Flat :=
  update F d (some (.directory, encodeEntries entries))

theorem withEntries_self : withEntries F d entries d = some (.directory, encodeEntries entries) :=
  update_self ..

theorem withEntries_of_ne (h : n ≠ d) : withEntries F d entries n = F n := update_of_ne h ..

theorem entriesAt_withEntries (hv : ∀ e ∈ entries, e.Valid) :
    entriesAt (withEntries F d entries) = update (entriesAt F) d entries := by
  funext n
  by_cases hn : n = d
  · subst hn
    rw [update_self]
    exact entriesAt_update_dir hv
  · rw [update_of_ne hn]
    exact entriesAt_update_other hn

theorem entriesAt_update_nil {x : Option (FileType × List UInt8)} (hn : entriesAt F n = [])
    (hx : entriesAt (update F n x) n = []) : entriesAt (update F n x) = entriesAt F := by
  funext m
  by_cases hm : m = n
  · rw [hm, hx, hn]
  · exact entriesAt_update_other hm

theorem nodes_withEntries (hd : F d = some (.directory, bytes)) (n : Nat) :
    (withEntries F d entries n).map nodeOf = (F n).map nodeOf := by
  by_cases hn : n = d
  · subst hn
    rw [withEntries_self, hd]
    rfl
  · rw [withEntries_of_ne hn]

def DirectoryData (bytes : List UInt8) : Prop :=
  bytes.length % 256 = 0 ∧ ∃ entries, decodeEntries bytes = .ok entries

theorem directoryData_encode (hv : ∀ e ∈ entries, e.Valid) :
    DirectoryData (encodeEntries entries) :=
  ⟨by rw [length_encodeEntries hv, Nat.mul_mod_right], entries, decodeEntries_encodeEntries hv⟩

theorem directoryData_nil : DirectoryData [] := ⟨rfl, [], decodeEntries_nil⟩

theorem Linked.directoryData (h : Linked F) (hn : F n = some (.directory, bytes)) :
    DirectoryData bytes :=
  ⟨h.whole n bytes hn, h.decoded n bytes hn⟩

theorem Linked.of_data (hroot : ∃ bytes, F' 1 = some (.directory, bytes))
    (hdata : ∀ n bytes, F' n = some (.directory, bytes) → DirectoryData bytes)
    (hnames : ∀ n, Distinct (entriesAt F' n))
    (htarget : ∀ n, ∀ e ∈ entriesAt F' n, ∃ bytes, F' e.inode = some (e.kind, bytes))
    (htree : Rooted (childOf F') 1)
    (hreached : ∀ n, F' n ≠ none → ∃ path, follow (childOf F') 1 path = some n) : Linked F' :=
  ⟨hroot, fun n bytes hn => (hdata n bytes hn).1, fun n bytes hn => (hdata n bytes hn).2, hnames,
    htarget, htree, hreached⟩

section
variable {old new : List UInt8}

theorem childOf_write (hn : F n = some (.regular, old)) :
    childOf (update F n (some (.regular, new))) = childOf F := by
  rw [childOf_eq, childOf_eq, entriesAt_update_nil (entriesAt_file hn)]
  exact entriesAt_file (update_self ..)

theorem Linked.write (h : Linked F) (hn : F n = some (.regular, old)) :
    Linked (update F n (some (.regular, new))) := by
  have hE : entriesAt (update F n (some (.regular, new))) = entriesAt F :=
    entriesAt_update_nil (entriesAt_file hn) (entriesAt_file (update_self ..))
  have hdir : ∀ {m bytes}, update F n (some (.regular, new)) m = some (.directory, bytes) ↔
      F m = some (.directory, bytes) := by
    intro m bytes
    by_cases hm : m = n
    · subst hm
      simp [hn]
    · rw [update_of_ne hm]
  refine .of_data ?_ ?_ ?_ ?_ ?_ ?_
  · simpa only [hdir] using h.root
  · intro m bytes hm
    exact h.directoryData (hdir.mp hm)
  · rw [hE]
    exact h.names
  · rw [hE]
    intro m e he
    obtain ⟨bytes, hb⟩ := h.target m e he
    by_cases hm : e.inode = n
    · rw [hm, hn] at hb
      cases hk : e.kind with
      | regular => exact ⟨new, by rw [hm, update_self]⟩
      | directory =>
        rw [hk] at hb
        cases hb
    · exact ⟨bytes, by rw [update_of_ne hm, hb]⟩
  · rw [childOf_write hn]
    exact h.tree
  · rw [childOf_write hn]
    intro m hm
    refine h.reached m ?_
    by_cases hmn : m = n
    · rw [hmn, hn]
      simp
    · rwa [update_of_ne hmn] at hm

theorem Linked.pathsOf_write (h : Linked F) (hn : F n = some (.regular, old)) {path : List String}
    (hp : follow (childOf F) 1 path = some n) :
    pathsOf (update F n (some (.regular, new))) =
      update (pathsOf F) path (some (.file new)) := by
  funext q
  rw [pathsOf, childOf_write hn]
  by_cases hq : q = path
  · subst hq
    rw [hp, Option.bind_some, update_self, update_self]
    rfl
  · rw [update_of_ne hq, pathsOf]
    cases hf : follow (childOf F) 1 q with
    | none => rfl
    | some m =>
      have hm : m ≠ n := by
        rintro rfl
        exact hq (h.tree.path_unique hf hp)
      rw [Option.bind_some, Option.bind_some, update_of_ne hm]

end

section
variable (hn : (F' n).map nodeOf = (F n).map nodeOf)
include hn

theorem kind_of_nodes {kind : FileType} (hF : F n = some (kind, bytes)) :
    ∃ bytes', F' n = some (kind, bytes') := by
  rw [hF] at hn
  obtain ⟨⟨kind', bytes'⟩, hF', hnode⟩ := Option.map_eq_some_iff.mp hn
  refine ⟨bytes', ?_⟩
  cases kind <;> cases kind' <;> simp_all [nodeOf]

theorem ne_none_of_nodes : F' n ≠ none ↔ F n ≠ none := by
  rw [not_iff_not, ← Option.map_eq_none_iff (f := nodeOf), hn, Option.map_eq_none_iff]

end

theorem perm_concat : (entries ++ [e]).Perm (e :: entries) :=
  perm_append_comm

theorem distinct_cons (h : Distinct entries) (hfresh : lookup entries e.name = none) :
    Distinct (e :: entries) := by
  refine nodup_cons.mpr ⟨?_, h⟩
  rw [mem_map]
  rintro ⟨x, hx, hname⟩
  exact lookup_eq_none.mp hfresh x hx hname

theorem Distinct.perm {entries' : List DirectoryEntry} (h : Distinct entries)
    (hp : entries.Perm entries') : Distinct entries' :=
  (hp.map _).nodup_iff.mp h

section

/-- The tree with a new empty inode named by the entry `e` of directory `d`. -/
def withChild (F : Flat) (d : Nat) (e : DirectoryEntry) : Flat :=
  withEntries (update F e.inode (some (e.kind, []))) d (entriesAt F d ++ [e])

variable (h : Linked F) (hd : F d = some (.directory, bytes)) (hm : F e.inode = none)
  (he : e.Valid) (hfresh : lookup (entriesAt F d) e.name = none)

include hd hm in
theorem withChild_inode : withChild F d e e.inode = some (e.kind, []) := by
  have hne : e.inode ≠ d := by
    rintro rfl
    rw [hm] at hd
    cases hd
  rw [withChild, withEntries_of_ne hne, update_self]

theorem withChild_other (hn : n ≠ d) (hne : n ≠ e.inode) : withChild F d e n = F n := by
  rw [withChild, withEntries_of_ne hn, update_of_ne hne]

include hd in
theorem nodes_withChild (hne : n ≠ e.inode) :
    (withChild F d e n).map nodeOf = (F n).map nodeOf := by
  by_cases hn : n = d
  · subst hn
    rw [withChild, withEntries_self, hd]
    rfl
  · rw [withChild_other hn hne]

theorem valid_concat (he : e.Valid) : ∀ x ∈ entriesAt F d ++ [e], x.Valid := by
  intro x hx
  rcases mem_append.mp hx with hx | hx
  · exact valid_of_mem hx
  · rw [mem_singleton.mp hx]
    exact he

include hm he in
theorem entriesAt_withChild :
    entriesAt (withChild F d e) = update (entriesAt F) d (entriesAt F d ++ [e]) := by
  rw [withChild, entriesAt_withEntries (valid_concat he),
    entriesAt_update_nil (entriesAt_none hm) (entriesAt_update_empty e.kind)]

include h hfresh in
theorem distinct_concat : Distinct (entriesAt F d ++ [e]) :=
  (distinct_cons (h.names d) hfresh).perm perm_concat.symm

include h hm he hfresh in
theorem childOf_withChild : childOf (withChild F d e) = link (childOf F) d e.name e.inode := by
  rw [childOf_eq, entriesAt_withChild hm he, childrenOf_add perm_concat (distinct_concat h hfresh),
    childOf_eq]

include h hd hm he hfresh in
theorem Linked.follow_withChild {path : List String} (hp : follow (childOf F) 1 path = some d)
    (q : List String) :
    follow (childOf (withChild F d e)) 1 q =
      if q = path ++ [e.name] then some e.inode else follow (childOf F) 1 q := by
  have hne : e.inode ≠ d := by
    rintro rfl
    rw [hm] at hd
    cases hd
  rw [childOf_withChild h hm he hfresh]
  exact follow_link h.tree hp hfresh (fun b => Linked.child_none_of_file (.inl hm)) hne q

include h hd hm he hfresh in
theorem Linked.create : Linked (withChild F d e) := by
  have hE := entriesAt_withChild (d := d) hm he
  obtain ⟨path, hp⟩ := h.reached d (by rw [hd]; simp)
  have hnew : follow (childOf F) 1 (path ++ [e.name]) = none :=
    (follow_concat_of_some hp).trans hfresh
  have hroot : 1 ≠ e.inode := fun h1 => h.root_ne_none (h1 ▸ hm)
  refine .of_data ?_ ?_ ?_ ?_ ?_ ?_
  · obtain ⟨bytes', hb⟩ := h.root
    exact kind_of_nodes (nodes_withChild hd hroot) hb
  · intro n bytes' hn
    by_cases hnd : n = d
    · subst hnd
      rw [withChild, withEntries_self] at hn
      cases hn
      exact directoryData_encode (valid_concat he)
    · by_cases hne : n = e.inode
      · rw [hne, withChild_inode hd hm, Option.some_inj, Prod.mk.injEq] at hn
        rw [← hn.2]
        exact directoryData_nil
      · rw [withChild_other hnd hne] at hn
        exact h.directoryData hn
  · intro n
    rw [hE]
    by_cases hnd : n = d
    · subst hnd
      rw [update_self]
      exact distinct_concat h hfresh
    · rw [update_of_ne hnd]
      exact h.names n
  · have hold : ∀ n, ∀ x ∈ entriesAt F n, ∃ b, withChild F d e x.inode = some (x.kind, b) := by
      intro n x hx
      obtain ⟨b, hb⟩ := h.target n x hx
      refine kind_of_nodes (nodes_withChild hd ?_) hb
      intro hxe
      rw [hxe, hm] at hb
      cases hb
    intro n x hx
    rw [hE] at hx
    by_cases hnd : n = d
    · rw [hnd, update_self] at hx
      rcases mem_append.mp hx with hx | hx
      · exact hold d x hx
      · rw [mem_singleton.mp hx]
        exact ⟨[], withChild_inode hd hm⟩
    · rw [update_of_ne hnd] at hx
      exact hold n x hx
  · rw [childOf_withChild h hm he hfresh]
    exact h.tree.link (fun j b hc => h.target_of_child hc hm) hroot.symm
  · intro n hn
    by_cases hne : n = e.inode
    · exact ⟨path ++ [e.name], by rw [h.follow_withChild hd hm he hfresh hp, if_pos rfl, hne]⟩
    · obtain ⟨q, hq⟩ := h.reached n ((ne_none_of_nodes (nodes_withChild hd hne)).mp hn)
      refine ⟨q, ?_⟩
      rw [h.follow_withChild hd hm he hfresh hp, if_neg, hq]
      rintro rfl
      rw [hnew] at hq
      cases hq

include h hd hm he hfresh in
theorem Linked.pathsOf_create {path : List String} (hp : follow (childOf F) 1 path = some d) :
    pathsOf (withChild F d e) =
      update (pathsOf F) (path ++ [e.name]) (some (nodeOf (e.kind, []))) := by
  funext q
  rw [pathsOf, h.follow_withChild hd hm he hfresh hp]
  by_cases hq : q = path ++ [e.name]
  · rw [if_pos hq, hq, update_self, Option.bind_some, withChild_inode hd hm]
    rfl
  · rw [if_neg hq, update_of_ne hq, pathsOf]
    cases hn : follow (childOf F) 1 q with
    | none => rfl
    | some n =>
      rw [Option.bind_some, Option.bind_some, nodes_withChild hd]
      rintro rfl
      exact h.follow_ne_none h.root_ne_none hn hm

end

section
variable {rest : List DirectoryEntry}

def withoutChild (F : Flat) (d : Nat) (e : DirectoryEntry) (rest : List DirectoryEntry) : Flat :=
  update (withEntries F d rest) e.inode none

variable (h : Linked F) (hd : F d = some (.directory, bytes))
  (hp : (entriesAt F d).Perm (e :: rest)) (hempty : entriesAt F e.inode = [])

include hp in
theorem mem_of_perm_cons : e ∈ entriesAt F d := hp.mem_iff.mpr mem_cons_self

include hp in
theorem valid_rest : ∀ x ∈ rest, x.Valid := fun _ hx =>
  valid_of_mem (hp.mem_iff.mpr (mem_cons_of_mem e hx))

include hp hempty in
theorem inode_ne_of_empty : e.inode ≠ d := by
  rintro rfl
  have := mem_of_perm_cons hp
  rw [hempty] at this
  cases this

include h hp in
theorem childOf_entry : childOf F d e.name = some e.inode :=
  h.childOf_eq_some.mpr ⟨e, mem_of_perm_cons hp, rfl, rfl⟩

include hd in
theorem nodes_withoutChild (hne : n ≠ e.inode) :
    (withoutChild F d e rest n).map nodeOf = (F n).map nodeOf := by
  rw [withoutChild, update_of_ne hne, nodes_withEntries hd]

include hp hempty in
theorem entriesAt_withoutChild :
    entriesAt (withoutChild F d e rest) = update (entriesAt F) d rest := by
  have hE := entriesAt_withEntries (F := F) (d := d) (valid_rest hp)
  rw [withoutChild, entriesAt_update_nil ?_ (entriesAt_none (update_self ..)), hE]
  rw [hE, update_of_ne (inode_ne_of_empty hp hempty), hempty]

include h hp hempty in
theorem childOf_withoutChild : childOf (withoutChild F d e rest) = unlink (childOf F) d e.name := by
  rw [childOf_eq, entriesAt_withoutChild hp hempty, childrenOf_remove hp (h.names d), childOf_eq]

include h hp hempty in
theorem Linked.follow_withoutChild {path : List String}
    (hpath : follow (childOf F) 1 path = some d) (q : List String) :
    follow (childOf (withoutChild F d e rest)) 1 q =
      if q = path ++ [e.name] then none else follow (childOf F) 1 q := by
  rw [childOf_withoutChild h hp hempty]
  refine follow_unlink h.tree hpath (childOf_entry h hp) (fun b => ?_) q
  rw [childOf, hempty, lookup_nil]

include h hd hp hempty in
theorem Linked.remove : Linked (withoutChild F d e rest) := by
  have hE := entriesAt_withoutChild hp hempty
  have hmem := mem_of_perm_cons hp
  obtain ⟨path, hpath⟩ := h.reached d (by rw [hd]; simp)
  refine .of_data ?_ ?_ ?_ ?_ ?_ ?_
  · obtain ⟨bytes', hb⟩ := h.root
    exact kind_of_nodes (nodes_withoutChild hd (h.entry_ne_root hmem).symm) hb
  · intro n bytes' hn
    by_cases hne : n = e.inode
    · rw [hne, withoutChild, update_self] at hn
      cases hn
    rw [withoutChild, update_of_ne hne] at hn
    by_cases hnd : n = d
    · rw [hnd, withEntries_self] at hn
      cases hn
      exact directoryData_encode (valid_rest hp)
    · rw [withEntries_of_ne hnd] at hn
      exact h.directoryData hn
  · intro n
    rw [hE]
    by_cases hnd : n = d
    · rw [hnd, update_self]
      exact (nodup_cons.mp ((h.names d).perm hp)).2
    · rw [update_of_ne hnd]
      exact h.names n
  · -- the removed inode has no other entry
    have hkeep : ∀ n, ∀ x ∈ entriesAt F n, x ≠ e ∨ n ≠ d →
        ∃ b, withoutChild F d e rest x.inode = some (x.kind, b) := by
      intro n x hx hother
      obtain ⟨b, hb⟩ := h.target n x hx
      refine kind_of_nodes (nodes_withoutChild hd ?_) hb
      intro hxe
      obtain ⟨rfl, rfl⟩ := h.entry_unique hx hmem hxe
      simp at hother
    intro n x hx
    rw [hE] at hx
    by_cases hnd : n = d
    · rw [hnd, update_self] at hx
      refine hkeep d x (hp.mem_iff.mpr (mem_cons_of_mem e hx)) (.inl ?_)
      rintro rfl
      exact (nodup_cons.mp ((h.names d).perm hp)).1 (mem_map_of_mem hx)
    · rw [update_of_ne hnd] at hx
      exact hkeep n x hx (.inr hnd)
  · rw [childOf_withoutChild h hp hempty]
    exact h.tree.unlink
  · intro n hn
    have hne : n ≠ e.inode := by
      rintro rfl
      rw [withoutChild, update_self] at hn
      exact hn rfl
    obtain ⟨q, hq⟩ := h.reached n ((ne_none_of_nodes (nodes_withoutChild hd hne)).mp hn)
    refine ⟨q, ?_⟩
    rw [h.follow_withoutChild hp hempty hpath, if_neg, hq]
    rintro rfl
    rw [follow_concat_of_some hpath, childOf_entry h hp, Option.some_inj] at hq
    exact hne hq.symm

include h hd hp hempty in
theorem Linked.pathsOf_remove {path : List String}
    (hpath : follow (childOf F) 1 path = some d) :
    pathsOf (withoutChild F d e rest) = update (pathsOf F) (path ++ [e.name]) none := by
  funext q
  rw [pathsOf, h.follow_withoutChild hp hempty hpath]
  by_cases hq : q = path ++ [e.name]
  · rw [if_pos hq, hq, update_self]
    rfl
  · rw [if_neg hq, update_of_ne hq, pathsOf]
    cases hn : follow (childOf F) 1 q with
    | none => rfl
    | some n =>
      rw [Option.bind_some, Option.bind_some, nodes_withoutChild hd]
      rintro rfl
      exact hq (h.tree.path_unique hn ((follow_concat_of_some hpath).trans (childOf_entry h hp)))

end

section
variable {i j k : Nat} {a b : String} {p q : List String}

/-- The tree after an entry has moved from directory `i` to directory `j`: only
entry lists differ, and every entry names an inode that was named before. -/
structure Moves (F F' : Flat) (i : Nat) (a : String) (j : Nat) (b : String) (k : Nat) : Prop where
  nodes : ∀ n, (F' n).map nodeOf = (F n).map nodeOf
  data : ∀ n bytes, F' n = some (.directory, bytes) → DirectoryData bytes
  names : ∀ n, Distinct (entriesAt F' n)
  entries : ∀ n, ∀ x ∈ entriesAt F' n, ∃ m, ∃ y ∈ entriesAt F m,
    x.inode = y.inode ∧ x.kind = y.kind
  child : childOf F' = link (unlink (childOf F) i a) j b k

variable (h : Linked F) (hm : Moves F F' i a j b k) (hp : follow (childOf F) 1 p = some i)
  (ha : childOf F i a = some k) (hq : follow (childOf F) 1 q = some j)
  (hb : childOf F j b = none) (hout : ∀ r, follow (childOf F) k r ≠ some j)

include h hm hp ha hq hb hout in
theorem Linked.follow_moves (path : List String) :
    follow (childOf F') 1 path =
      if q ++ [b] <+: path then
        follow (childOf F) 1 (p ++ [a] ++ path.drop (q ++ [b]).length)
      else if p ++ [a] <+: path then none
      else follow (childOf F) 1 path := by
  rw [hm.child]
  exact follow_move h.tree hp ha hq hb hout path

include h hm hp ha hq hb hout in
theorem Linked.moves : Linked F' := by
  have hfollow := h.follow_moves hm hp ha hq hb hout
  refine .of_data ?_ hm.data hm.names ?_ ?_ ?_
  · obtain ⟨bytes, hr⟩ := h.root
    exact kind_of_nodes (hm.nodes 1) hr
  · intro n x hx
    obtain ⟨m, y, hy, hi, hk⟩ := hm.entries n x hx
    obtain ⟨bytes, ht⟩ := h.target m y hy
    rw [hi, hk]
    exact kind_of_nodes (hm.nodes y.inode) ht
  · rw [hm.child]
    refine (Rooted.unlink h.tree).link ?_ fun h1 => h.tree.root_not_child i a (h1 ▸ ha)
    intro m x hx
    unfold unlink at hx
    split at hx
    · cases hx
    · rename_i hne
      exact hne (h.tree.unique m i x a k hx ha)
  · intro n hn
    obtain ⟨path, hpath⟩ := h.reached n ((ne_none_of_nodes (hm.nodes n)).mp hn)
    by_cases hpre : p ++ [a] <+: path
    · obtain ⟨r, rfl⟩ := hpre
      exact ⟨q ++ [b] ++ r, by rw [hfollow, if_pos (prefix_append ..), drop_left, hpath]⟩
    · refine ⟨path, ?_⟩
      rw [hfollow, if_neg, if_neg hpre, hpath]
      -- nothing stood below the destination
      rintro ⟨r, rfl⟩
      rw [follow_append, follow_concat_of_some hq, hb] at hpath
      cases hpath

include h hm hp ha hq hb hout in
theorem Linked.pathsOf_moves : pathsOf F' = relocate (pathsOf F) (p ++ [a]) (q ++ [b]) := by
  funext path
  have hnodes : ∀ o : Option Nat,
      (o.bind fun n => (F' n).map nodeOf) = o.bind fun n => (F n).map nodeOf := by
    intro o
    congr 1
    funext n
    exact hm.nodes n
  rw [pathsOf, h.follow_moves hm hp ha hq hb hout, hnodes, relocate]
  by_cases h₁ : q ++ [b] <+: path
  · rw [if_pos h₁, if_pos h₁, pathsOf]
  · rw [if_neg h₁, if_neg h₁]
    by_cases h₂ : p ++ [a] <+: path
    · rw [if_pos h₂, if_pos h₂]
      rfl
    · rw [if_neg h₂, if_neg h₂, pathsOf]

end

variable {d i j : Nat} {bytes bytes' : List UInt8} {b : String} {rest entries : List DirectoryEntry}

theorem valid_of_perm (hp : entries.Perm (e :: rest)) (he : e.Valid) (hr : ∀ x ∈ rest, x.Valid) :
    ∀ x ∈ entries, x.Valid := by
  intro x hx
  rcases mem_cons.mp (hp.mem_iff.mp hx) with rfl | hx
  · exact he
  · exact hr x hx

theorem DirectoryEntry.Valid.with_name (h : e.Valid) (hb : ValidName b) :
    DirectoryEntry.Valid { e with name := b } :=
  { h with name := hb }

theorem directoryData_withEntries
    (hold : ∀ n bytes, F n = some (.directory, bytes) → DirectoryData bytes)
    (hv : ∀ x ∈ entries, x.Valid) (n : Nat) (bytes : List UInt8)
    (hn : withEntries F d entries n = some (.directory, bytes)) : DirectoryData bytes := by
  by_cases hnd : n = d
  · rw [hnd, withEntries_self] at hn
    cases hn
    exact directoryData_encode hv
  · rw [withEntries_of_ne hnd] at hn
    exact hold n bytes hn

theorem moves_same (h : Linked F) (hd : F d = some (.directory, bytes))
    (hp : (entriesAt F d).Perm (e :: rest)) (hp' : entries.Perm ({ e with name := b } :: rest))
    (hfresh : lookup (entriesAt F d) b = none) (hb : ValidName b) :
    Moves F (withEntries F d entries) d e.name d b e.inode := by
  have hrest : Distinct rest := (nodup_cons.mp ((h.names d).perm hp)).2
  have hnew : lookup rest b = none := by
    rw [lookup_eq_none] at hfresh ⊢
    exact fun x hx => hfresh x (hp.mem_iff.mpr (mem_cons_of_mem e hx))
  have hdist : Distinct entries :=
    (distinct_cons (e := { e with name := b }) hrest hnew).perm hp'.symm
  have hvalid : ∀ x ∈ entries, x.Valid :=
    valid_of_perm hp' ((valid_of_mem (mem_of_perm_cons hp)).with_name hb) (valid_rest hp)
  have hE := entriesAt_withEntries (F := F) (d := d) hvalid
  refine ⟨nodes_withEntries hd,
    directoryData_withEntries (fun n bytes hn => h.directoryData hn) hvalid, ?_, ?_, ?_⟩
  · rw [hE]
    exact (forall_update_iff _ fun _ => Distinct).mpr ⟨hdist, fun n _ => h.names n⟩
  · rw [hE]
    refine (forall_update_iff (entriesAt F) fun _ es => ∀ x ∈ es, ∃ m, ∃ y ∈ entriesAt F m,
      x.inode = y.inode ∧ x.kind = y.kind).mpr ⟨?_, fun n _ x hx => ⟨n, x, hx, rfl, rfl⟩⟩
    intro x hx
    rcases mem_cons.mp (hp'.mem_iff.mp hx) with rfl | hx
    · exact ⟨d, e, mem_of_perm_cons hp, rfl, rfl⟩
    · exact ⟨d, x, hp.mem_iff.mpr (mem_cons_of_mem e hx), rfl, rfl⟩
  · -- first the entry goes, then it comes back under its new name
    have hadd := childrenOf_add (E := update (entriesAt F) d rest) (d := d)
      (e := { e with name := b }) (by rwa [update_self]) hdist
    rw [update_idem] at hadd
    rw [childOf_eq, hE, hadd, childrenOf_remove hp (h.names d), childOf_eq]

theorem moves_other (h : Linked F) (hij : i ≠ j) (hi : F i = some (.directory, bytes))
    (hj : F j = some (.directory, bytes')) (hp : (entriesAt F i).Perm (e :: rest))
    (hfresh : lookup (entriesAt F j) b = none) (hb : ValidName b) :
    Moves F (withEntries (withEntries F j (entriesAt F j ++ [{ e with name := b }])) i rest)
      i e.name j b e.inode := by
  have he : DirectoryEntry.Valid { e with name := b } :=
    (valid_of_mem (mem_of_perm_cons hp)).with_name hb
  have hdist : Distinct (entriesAt F j ++ [{ e with name := b }]) := distinct_concat h hfresh
  have hE : entriesAt (withEntries (withEntries F j (entriesAt F j ++ [{ e with name := b }]))
      i rest) =
      update (update (entriesAt F) j (entriesAt F j ++ [{ e with name := b }])) i rest := by
    rw [entriesAt_withEntries (valid_rest hp), entriesAt_withEntries (valid_concat he)]
  have hi' : withEntries F j (entriesAt F j ++ [{ e with name := b }]) i =
      some (.directory, bytes) := by
    rw [withEntries_of_ne hij, hi]
  have hpi : (update (entriesAt F) j (entriesAt F j ++ [{ e with name := b }]) i).Perm
      (e :: rest) := by
    rwa [update_of_ne hij]
  refine ⟨fun n => (nodes_withEntries hi' n).trans (nodes_withEntries hj n),
    directoryData_withEntries (directoryData_withEntries (fun n bytes hn => h.directoryData hn)
      (valid_concat he)) (valid_rest hp), ?_, ?_, ?_⟩
  · rw [hE]
    refine (forall_update_iff _ fun _ => Distinct).mpr
      ⟨(nodup_cons.mp ((h.names i).perm hp)).2, fun n _ => ?_⟩
    exact (forall_update_iff _ fun _ => Distinct).mpr ⟨hdist, fun n _ => h.names n⟩ n
  · rw [hE]
    let Named : List DirectoryEntry → Prop := fun es => ∀ x ∈ es, ∃ m, ∃ y ∈ entriesAt F m,
      x.inode = y.inode ∧ x.kind = y.kind
    refine (forall_update_iff _ fun _ => Named).mpr ⟨fun x hx =>
      ⟨i, x, hp.mem_iff.mpr (mem_cons_of_mem e hx), rfl, rfl⟩, fun n _ => ?_⟩
    refine (forall_update_iff _ fun _ => Named).mpr ⟨fun x hx => ?_,
      fun n _ x hx => ⟨n, x, hx, rfl, rfl⟩⟩ n
    rcases mem_append.mp hx with hx | hx
    · exact ⟨j, x, hx, rfl, rfl⟩
    · rw [mem_singleton.mp hx]
      exact ⟨i, e, mem_of_perm_cons hp, rfl, rfl⟩
  · rw [childOf_eq, hE, childrenOf_remove hpi (by rw [update_of_ne hij]; exact h.names i),
      childrenOf_add perm_concat hdist]
    exact unlink_link hij

end NexOs.Nexfs
