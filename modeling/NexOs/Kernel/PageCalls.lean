import NexOs.Kernel.PageMap

/-! What a whole call of `map_page` or `unmap_page` does to the tree. -/
namespace NexOs.Kernel.PagingInfo
open List Bytes Align Exec

variable {info : PagingInfo} {memory : Nat → Nat} {s s' : PageState}
  {p u page rest : List Nat} {t e i flags virtualAddress physicalAddress v : Nat}

/-! ## The upper levels -/

/-- The entries on the way to a table: none maps memory itself, and the user may pass them if the
flags ask for it. -/
def Passed (info : PagingInfo) (flags : Nat) (memory : Nat → Nat) (p : List Nat) : Prop :=
  ∀ u, u ≠ [] → u <:+ p → ∃ e, (info.radix memory).entry u = some e ∧ e &&& present ≠ 0 ∧
    e &&& hugePage = 0 ∧ (flags &&& userAccessible ≠ 0 → e &&& userAccessible ≠ 0)

theorem Grown.passed (h : Grown info s s') (hp : Passed info flags s.memory p) :
    Passed info flags s'.memory p := by
  intro u hne hsuffix
  obtain ⟨e, he, hpresent, hhuge, huser⟩ := hp u hne hsuffix
  obtain ⟨e', he', hpresent', hhuge', huser'⟩ := h.entry u e he hpresent
  exact ⟨e', he', hpresent', hhuge'.trans hhuge, fun hflags => huser' (huser hflags)⟩

theorem Passed.cons (hp : Passed info flags memory p)
    (he : (info.radix memory).entry (i :: p) = some e) (hpresent : e &&& present ≠ 0)
    (hhuge : e &&& hugePage = 0)
    (huser : flags &&& userAccessible ≠ 0 → e &&& userAccessible ≠ 0) :
    Passed info flags memory (i :: p) := by
  intro u hne hsuffix
  rcases suffix_cons_iff.mp hsuffix with rfl | hsuffix
  · exact ⟨e, he, hpresent, hhuge, huser⟩
  · exact hp u hne hsuffix

theorem passed_nil : Passed info flags memory [] := by
  intro u hne hsuffix
  exact absurd (suffix_nil.mp hsuffix) hne

theorem table_of_entry (he : (info.radix memory).entry (i :: p) = some e)
    (hpresent : e &&& present ≠ 0) (hhuge : e &&& hugePage = 0) (hlevel : p.length ≤ 2) :
    (info.radix memory).table (i :: p) = some (e &&& entryAddressMask) := by
  rw [Radix.table_cons, he]
  exact childOf_eq hpresent (not_isLeaf hhuge hlevel)

theorem dead_of_overflow (ht : (info.radix memory).table p = some t)
    (hi : ¬(i < 512 ∧ info.hhdmOffset + t + i * 8 < 2 ^ 64)) :
    Dead (info.radix memory).entry (i :: p) := by
  intro e he
  rw [Radix.entry_cons ht] at he
  have hnone := (readEntry_eq info memory t i).trans (if_neg hi)
  cases hnone.symm.trans he

theorem lookup_of_dead_path (ht : (info.radix memory).table p = some t)
    (hdead : Dead (info.radix memory).entry (i :: p)) :
    lookup (info.radix memory).entry [] (p.reverse ++ i :: rest) = none := by
  rw [lookup_of_table ht, lookup_of_dead hdead]

inductive Reached (info : PagingInfo) (flags : Nat) (s : PageState) (p rest : List Nat) :
    Result PageMapError Nat × PageState → Prop
  | ready {t : Nat} {s' : PageState} (grown : Grown info s s')
      (htable : (info.radix s'.memory).table (rest.reverse ++ p) = some t)
      (hpassed : Passed info flags s'.memory (rest.reverse ++ p)) :
      Reached info flags s p rest (.ok t, s')
  | failed {error : PageMapError} {s' : PageState} (grown : Grown info s s')
      (hcause : (∀ more, lookup (info.radix s.memory).entry [] (p.reverse ++ (rest ++ more)) =
        none) ∨ error = .hugePageConflict) :
      Reached info flags s p rest (.error (.error error), s')

theorem mapTables_run (h : Good info s) (ht : (info.radix s.memory).table p = some t)
    (hpassed : Passed info flags s.memory p) (hlength : p.length + rest.length ≤ 3) :
    Reached info flags s p rest (info.mapTables flags rest t s) := by
  induction rest generalizing s p t with
  | nil => exact .ready (.refl h) ht hpassed
  | cons i rest ih =>
    rw [length_cons] at hlength
    rw [mapTables]
    by_cases hi : i < 512 ∧ info.hhdmOffset + t + i * 8 < 2 ^ 64
    · rw [entryPointer_ok hi, lift_ok_bind, get_bind]
      have hrun := prepareEntry_run h ht hi (by omega) flags
      generalize hout : info.prepareEntry (info.hhdmOffset + t + i * 8) flags
        (s.memory (info.hhdmOffset + t + i * 8)) s = out at hrun
      cases hrun with
      | ready grown hentry hpresent hhuge huser =>
        have htable := table_of_entry hentry hpresent hhuge (by omega)
        have hnext := ih grown.good htable ((grown.passed hpassed).cons hentry hpresent hhuge huser)
          (by rw [length_cons]; omega)
        rw [bind_of_ok hout]
        generalize info.mapTables flags rest _ _ = result at hnext
        cases hnext with
        | ready grown' htable' hpassed' =>
          rw [← singleton_append, ← append_assoc, ← reverse_cons] at htable' hpassed'
          exact .ready (grown.trans grown') htable' hpassed'
        | failed grown' hcause =>
          refine .failed (grown.trans grown') (hcause.imp_left ?_)
          intro hnone more
          rw [← grown.lookup, ← hnone more, reverse_cons, append_assoc]
          rfl
      | failed grown hcause =>
        rw [bind_of_error hout]
        refine .failed grown (hcause.imp_left ?_)
        intro hdead more
        exact lookup_of_dead_path ht hdead
    · obtain ⟨error, herror⟩ := entryPointer_error hi
      rw [herror]
      refine .failed (.refl h) (.inl ?_)
      intro more
      exact lookup_of_dead_path ht (dead_of_overflow ht hi)

/-! ## The last level -/

structure LeafSet (info : PagingInfo) (s s' : PageState) (u : List Nat) (v : Nat) : Prop where
  good : Good info s'
  length : u.length = 4
  self : (info.radix s'.memory).entry u = some v
  other : ∀ w, w ≠ u → (info.radix s'.memory).entry w = (info.radix s.memory).entry w
  table : ∀ w, (info.radix s'.memory).table w = (info.radix s.memory).table w

theorem leafSet_writeWord (h : Good info s) (ht : (info.radix s.memory).table p = some t)
    (hi : i < 512 ∧ info.hhdmOffset + t + i * 8 < 2 ^ 64) (hlength : p.length = 3) :
    LeafSet info s ⟨writeWord s.memory (info.hhdmOffset + t + i * 8) v, s.allocator⟩
      (i :: p) v := by
  have hrewrites := rewrites_writeWord h.toTreeShaped ht hi.1 v
  have hself := entry_writeWord h.toTreeShaped ht hi v
  have hnone : ∀ memory, (info.radix memory).table (i :: p) = none := by
    intro memory
    rw [Radix.table_cons, Option.bind_eq_none_iff]
    intro e _
    exact if_pos (.inr (.inl (Nat.le_of_eq hlength.symm)))
  have hsame := (hnone (writeWord s.memory (info.hhdmOffset + t + i * 8) v)).trans
    (hnone s.memory).symm
  exact ⟨h.rewritten hrewrites hsame, by rw [length_cons, hlength], hself,
    fun w hw => hrewrites.entry_of_same hsame hw, fun w => hrewrites.table_of_same hsame⟩

theorem LeafSet.lookup_other (h : LeafSet info s s' u v) (hpage : page.length = 4)
    (hne : page.reverse ≠ u) : lookup (info.radix s'.memory).entry [] page =
      lookup (info.radix s.memory).entry [] page := by
  apply lookup_congr
  intro w _ hw
  rw [append_nil] at hw
  apply h.other
  rintro rfl
  apply hne
  have hlength : w.length = page.reverse.length := by
    rw [h.length, length_reverse, hpage]
  exact (hw.eq_of_length hlength).symm

theorem LeafSet.lookup_self (h : LeafSet info s s' (i :: p) v)
    (ht : (info.radix s.memory).table p = some t) :
    lookup (info.radix s'.memory).entry [] (i :: p).reverse =
      if v &&& present = 0 then none else some (i :: p, v) := by
  have hlength : p.length = 3 := Nat.succ.inj h.length
  have ht' := (h.table p).trans ht
  rw [reverse_cons, lookup_of_table ht']
  by_cases hpresent : v &&& present = 0
  · rw [if_pos hpresent]
    exact lookup_of_dead (dead_of_some h.self hpresent)
  · rw [if_neg hpresent]
    exact lookup_of_leaf h.self hpresent (.inl (Nat.le_of_eq hlength.symm))

theorem LeafSet.passed (h : LeafSet info s s' (i :: p) v) (hp : Passed info flags s.memory p) :
    Passed info flags s'.memory p := by
  intro w hne hsuffix
  have hw : w ≠ i :: p := by
    rintro rfl
    exact Radix.not_cons_suffix hsuffix
  rw [h.other w hw]
  exact hp w hne hsuffix

/-! ## Calls -/

def leafIndex (virtualAddress : Nat) : Nat := virtualAddress >>> 12 &&& 0x1ff

def upperPath (virtualAddress : Nat) : List Nat := ((indices virtualAddress).take 3).reverse

def pagePath (virtualAddress : Nat) : List Nat :=
  leafIndex virtualAddress :: upperPath virtualAddress

theorem reverse_pagePath :
    (pagePath virtualAddress).reverse = indices virtualAddress := rfl

theorem low_eq (a : Nat) : a &&& (pageSize - 1) = a % 4096 := Nat.and_two_pow_sub_one_eq_mod a 12

inductive Maps (info : PagingInfo) (virtualAddress physicalAddress flags : Nat) (s : PageState) :
    Result PageMapError Unit × PageState → Prop
  | mapped {t : Nat} {between s' : PageState} (grown : Grown info s between)
      (htable : (info.radix between.memory).table (upperPath virtualAddress) = some t)
      (hpassed : Passed info flags between.memory (upperPath virtualAddress))
      (hdead : Dead (info.radix between.memory).entry (pagePath virtualAddress))
      (hleaf : LeafSet info between s' (pagePath virtualAddress)
        (physicalAddress ||| flags ||| present)) :
      Maps info virtualAddress physicalAddress flags s (.ok (), s')
  | failed {error : PageMapError} {s' : PageState} (grown : Grown info s s')
      (hcause : lookup (info.radix s.memory).entry [] (indices virtualAddress) = none ∨
        error = .hugePageConflict ∨ error = .alreadyMapped) :
      Maps info virtualAddress physicalAddress flags s (.error (.error error), s')

theorem mapPage_run (h : Good info s) (hva : virtualAddress % 4096 = 0)
    (hpa : physicalAddress % 4096 = 0) (flags : Nat) :
    Maps info virtualAddress physicalAddress flags s
      (info.mapPage virtualAddress physicalAddress flags s) := by
  have haligned : ¬(virtualAddress &&& (pageSize - 1) ≠ 0 ∨
      physicalAddress &&& (pageSize - 1) ≠ 0) := by
    rw [low_eq, low_eq]
    omega
  rw [mapPage, ensure_bind_pos haligned]
  have hrun : Reached info flags s [] ((indices virtualAddress).take 3)
      (info.mapTables flags ((indices virtualAddress).take 3) info.level4Frame s) :=
    mapTables_run h rfl passed_nil (Nat.le_refl 3)
  generalize hout : info.mapTables flags ((indices virtualAddress).take 3) info.level4Frame s = out
    at hrun
  cases hrun with
  | failed grown hcause =>
    rw [bind_of_error hout]
    refine .failed grown ?_
    rcases hcause with hnone | hhuge
    · exact .inl (hnone [leafIndex virtualAddress])
    · exact .inr (.inl hhuge)
  | @ready t between grown htable hpassed =>
    have hindex : (index (indices virtualAddress) 3 : Result PageMapError Nat) =
        .ok (leafIndex virtualAddress) := rfl
    rw [bind_of_ok hout, hindex, lift_ok_bind]
    by_cases hi : leafIndex virtualAddress < 512 ∧
        info.hhdmOffset + t + leafIndex virtualAddress * 8 < 2 ^ 64
    · rw [entryPointer_ok hi, lift_ok_bind, get_bind]
      have hentry := entry_of_table htable hi
      by_cases hpresent : between.memory (info.hhdmOffset + t + leafIndex virtualAddress * 8) &&&
          present ≠ 0
      · rw [ensure_bind_neg (not_not.mpr hpresent)]
        exact .failed grown (.inr (.inr rfl))
      · rw [ensure_bind_pos hpresent]
        exact .mapped grown htable hpassed (dead_of_some hentry (not_not.mp hpresent))
          (leafSet_writeWord grown.good htable hi rfl)
    · obtain ⟨error, herror⟩ := entryPointer_error hi
      rw [herror]
      refine .failed grown (.inl ?_)
      rw [← grown.lookup]
      exact lookup_of_dead_path htable (dead_of_overflow htable hi)

theorem mapPage_unaligned (h : ¬(virtualAddress % 4096 = 0 ∧ physicalAddress % 4096 = 0)) :
    info.mapPage virtualAddress physicalAddress flags s =
      (.error (.error .unaligned), s) := by
  rw [mapPage, ensure_bind_neg]
  rw [low_eq, low_eq]
  omega

/-! ## Unmapping -/

theorem findTable_run (ht : (info.radix s.memory).table p = some t)
    (hlength : p.length + rest.length ≤ 3) :
    (∃ t', info.findTable rest t s = (.ok t', s) ∧
      (info.radix s.memory).table (rest.reverse ++ p) = some t') ∨
    ¬Passed info 0 s.memory (rest.reverse ++ p) ∧
      ∃ error, info.findTable rest t s = (.error (.error error), s) := by
  induction rest generalizing p t with
  | nil => exact .inl ⟨t, rfl, ht⟩
  | cons i rest ih =>
    rw [length_cons] at hlength
    rw [reverse_cons, append_assoc, singleton_append]
    have hcell : (info.radix s.memory).entry (i :: p) = info.readEntry s.memory t i :=
      Radix.entry_cons ht
    -- The entry at `i :: p` is on the way to the table.
    have hon : Passed info 0 s.memory (rest.reverse ++ i :: p) →
        ∃ e, info.readEntry s.memory t i = some e ∧ e &&& present ≠ 0 ∧ e &&& hugePage = 0 := by
      intro hpassed
      obtain ⟨e, he, hpresent, hhuge, -⟩ :=
        hpassed (i :: p) (cons_ne_nil i p) (suffix_append _ _)
      exact ⟨e, hcell.symm.trans he, hpresent, hhuge⟩
    rw [findTable, get_bind]
    cases hread : info.readEntry s.memory t i with
    | none =>
      refine .inr ⟨?_, .notMapped, rfl⟩
      intro hpassed
      obtain ⟨e, he, -⟩ := hon hpassed
      cases hread.symm.trans he
    | some e =>
      rw [okOr_some, pure_bind_run]
      have hsame : ∀ {d}, info.readEntry s.memory t i = some d → d = e := by
        intro d hd
        exact Option.some.inj (hd.symm.trans hread)
      by_cases hpresent : e &&& present = 0
      · rw [ensure_bind_neg (not_not.mpr hpresent)]
        refine .inr ⟨?_, .notMapped, rfl⟩
        intro hpassed
        obtain ⟨d, hd, hdpresent, -⟩ := hon hpassed
        rw [hsame hd] at hdpresent
        exact hdpresent hpresent
      · rw [ensure_bind_pos hpresent]
        by_cases hhuge : e &&& hugePage ≠ 0
        · rw [ensure_bind_neg (not_not.mpr hhuge)]
          refine .inr ⟨?_, .hugePageConflict, rfl⟩
          intro hpassed
          obtain ⟨d, hd, -, hdhuge⟩ := hon hpassed
          rw [hsame hd] at hdhuge
          exact hhuge hdhuge
        · rw [ensure_bind_pos hhuge]
          have htable := table_of_entry (hcell.trans hread) hpresent (not_not.mp hhuge) (by omega)
          exact ih htable (by rw [length_cons]; omega)

inductive Unmaps (info : PagingInfo) (virtualAddress : Nat) (s : PageState) :
    Result PageMapError Nat × PageState → Prop
  | unmapped {t e : Nat} {s' : PageState}
      (htable : (info.radix s.memory).table (upperPath virtualAddress) = some t)
      (hentry : (info.radix s.memory).entry (pagePath virtualAddress) = some e)
      (hpresent : e &&& present ≠ 0) (hleaf : LeafSet info s s' (pagePath virtualAddress) 0) :
      Unmaps info virtualAddress s (.ok (e &&& entryAddressMask), s')
  | failed {error : PageMapError} (hcause : ¬(virtualAddress % 4096 = 0 ∧
        Passed info 0 s.memory (upperPath virtualAddress)) ∨
        Dead (info.radix s.memory).entry (pagePath virtualAddress)) :
      Unmaps info virtualAddress s (.error (.error error), s)

theorem unmapPage_run (h : Good info s) (virtualAddress : Nat) :
    Unmaps info virtualAddress s (info.unmapPage virtualAddress s) := by
  rw [unmapPage]
  by_cases hva : virtualAddress % 4096 = 0
  · have haligned : ¬virtualAddress &&& (pageSize - 1) ≠ 0 := by
      rw [low_eq]
      exact not_not.mpr hva
    have hroot : (info.radix s.memory).table [] = some info.level4Frame := rfl
    have hwalk := @findTable_run info s [] ((indices virtualAddress).take 3) _ hroot
      (Nat.le_refl 3)
    rw [ensure_bind_pos haligned]
    rcases hwalk with ⟨t, hfind, htable⟩ | ⟨hpassed, error, hfind⟩
    · have hindex : (index (indices virtualAddress) 3 : Result PageMapError Nat) =
          .ok (leafIndex virtualAddress) := rfl
      rw [bind_of_ok hfind, hindex, lift_ok_bind]
      by_cases hi : leafIndex virtualAddress < 512 ∧
          info.hhdmOffset + t + leafIndex virtualAddress * 8 < 2 ^ 64
      · rw [entryPointer_ok hi, lift_ok_bind, get_bind]
        have hentry := entry_of_table htable hi
        by_cases hpresent : s.memory (info.hhdmOffset + t + leafIndex virtualAddress * 8) &&&
            present = 0
        · rw [ensure_bind_neg (not_not.mpr hpresent)]
          exact .failed (.inr (dead_of_some hentry hpresent))
        · rw [ensure_bind_pos hpresent]
          exact .unmapped htable hentry hpresent (leafSet_writeWord h htable hi rfl)
      · obtain ⟨error, herror⟩ := entryPointer_error hi
        rw [herror]
        exact .failed (.inr (dead_of_overflow htable hi))
    · rw [bind_of_error hfind]
      exact .failed (.inl fun hcause => hpassed hcause.2)
  · have hunaligned : ¬¬virtualAddress &&& (pageSize - 1) ≠ 0 := by
      rw [low_eq]
      exact not_not.mpr hva
    rw [ensure_bind_neg hunaligned]
    exact .failed (.inl fun hcause => hva hcause.1)

end NexOs.Kernel.PagingInfo
