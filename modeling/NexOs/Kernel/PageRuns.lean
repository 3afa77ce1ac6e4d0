import Mathlib.Data.Set.Insert
import NexOs.Kernel.PageCalls

/-! Editing the page tables: which translations change, and which pages the user can reach. -/
namespace NexOs.Kernel.PagingInfo
open List Bytes Align

variable {info : PagingInfo} {memory : Nat → Nat} {s s' : PageState}
  {p u page : List Nat} {t e flags virtualAddress physicalAddress a v : Nat}

/-! ## Translations -/

def Canonical (a : Nat) : Prop := a < 2 ^ 47 ∨ 2 ^ 64 - 2 ^ 47 ≤ a ∧ a < 2 ^ 64

def LeafFlags (flags : Nat) : Prop :=
  flags &&& (writable ||| userAccessible ||| cacheDisable ||| noExecute) = flags

theorem index_eq_mod (k : Nat) : a >>> k &&& 0x1ff = a / 2 ^ k % 512 := by
  rw [Nat.shiftRight_eq_div_pow]
  exact Nat.and_two_pow_sub_one_eq_mod _ 9

theorem indices_eq : indices a =
    [a / 2 ^ 39 % 512, a / 2 ^ 30 % 512, a / 2 ^ 21 % 512, a / 2 ^ 12 % 512] := by
  rw [indices, index_eq_mod, index_eq_mod, index_eq_mod, index_eq_mod]

theorem indices_of_page (h : a / 4096 = b / 4096) : indices a = indices b := by
  rw [indices_eq, indices_eq]
  have h39 : a / 2 ^ 39 = b / 2 ^ 39 := by omega
  have h30 : a / 2 ^ 30 = b / 2 ^ 30 := by omega
  have h21 : a / 2 ^ 21 = b / 2 ^ 21 := by omega
  have h12 : a / 2 ^ 12 = b / 2 ^ 12 := h
  rw [h39, h30, h21, h12]

theorem page_of_indices (ha : Canonical a) (hb : Canonical b)
    (h : indices a = indices b) : a / 4096 = b / 4096 := by
  rw [indices_eq, indices_eq] at h
  injection h with h39 h
  injection h with h30 h
  injection h with h21 h
  injection h with h12 h
  rw [Canonical] at ha hb
  omega

theorem leaf_bits (hmod : physicalAddress % 4096 = 0) (hlt : physicalAddress < 2 ^ 52)
    (hflags : LeafFlags flags) :
    (physicalAddress ||| flags ||| present) &&& entryAddressMask = physicalAddress ∧
      (physicalAddress ||| flags ||| present) &&& notU64 entryAddressMask = flags ||| present := by
  have hmask := mask_of_frame hmod hlt
  have hinside : flags &&& entryAddressMask = 0 := by
    rw [← hflags, Nat.and_assoc]
    exact Nat.and_zero _
  have houtside : flags &&& notU64 entryAddressMask = flags := by
    calc flags &&& notU64 entryAddressMask
        = flags &&& ((writable ||| userAccessible ||| cacheDisable ||| noExecute) &&&
            notU64 entryAddressMask) := by rw [← Nat.and_assoc, hflags]
      _ = flags &&& (writable ||| userAccessible ||| cacheDisable ||| noExecute) := rfl
      _ = flags := hflags
  have hframe : physicalAddress &&& notU64 entryAddressMask = 0 := by
    rw [← hmask, Nat.and_assoc]
    exact Nat.and_zero _
  constructor
  · rw [or_and_of_disjoint (by decide), or_and_of_disjoint hinside, hmask]
  · rw [Nat.and_or_distrib_right, Nat.and_or_distrib_right, hframe, houtside, Nat.zero_or]
    rfl

theorem or_present (e : Nat) : (e ||| present) &&& present ≠ 0 := by
  rw [or_and_absorb]
  decide

theorem Grown.translate (h : Grown info s s') (a : Nat) :
    info.translate s'.memory a = info.translate s.memory a := by
  rw [translate_eq, translate_eq, h.lookup]

theorem LeafSet.translate_self (h : LeafSet info s s' (pagePath virtualAddress) v)
    (ht : (info.radix s.memory).table (upperPath virtualAddress) = some t)
    (ha : a / 4096 = virtualAddress / 4096) :
    info.translate s'.memory a = if v &&& present = 0 then none
      else some ⟨(v &&& entryAddressMask) + a % 4096, 4096, v⟩ := by
  rw [translate_eq, indices_of_page ha, ← reverse_pagePath, pagePath, h.lookup_self ht]
  by_cases hpresent : v &&& present = 0
  · rw [if_pos hpresent, if_pos hpresent]
    rfl
  · rw [if_neg hpresent, if_neg hpresent]
    have hlow : a &&& (4096 - 1) = a % 4096 := low_eq a
    rw [← hlow]
    rfl

theorem LeafSet.translate_other (h : LeafSet info s s' (pagePath virtualAddress) v)
    (hva : Canonical virtualAddress) (ha : Canonical a) (hne : a / 4096 ≠ virtualAddress / 4096) :
    info.translate s'.memory a = info.translate s.memory a := by
  have hpath : (indices a).reverse ≠ pagePath virtualAddress := by
    intro heq
    apply hne
    apply page_of_indices ha hva
    rw [← reverse_reverse (indices a), heq, reverse_pagePath]
  rw [translate_eq, translate_eq, h.lookup_other rfl hpath]

/-- `map_page` changes the translation of its page and of no other; an error changes none, and a
page that is mapped already is an error. What was mapped can be unmapped. -/
theorem mapPage_exact (htree : TreeShaped info s.memory) (hfresh : ∃ frames, Fresh info s frames)
    (hva : Canonical virtualAddress) (hvmod : virtualAddress % 4096 = 0)
    (hpmod : physicalAddress % 4096 = 0) (hpa : physicalAddress < 2 ^ 52)
    (hflags : LeafFlags flags) :
    ∃ result s', info.mapPage virtualAddress physicalAddress flags s = (result, s') ∧
      (result = .ok () →
        (∀ o < 4096, ∃ m, info.translate s'.memory (virtualAddress + o) = some m ∧
          m.physicalAddress = physicalAddress + o ∧ m.pageSize = 4096 ∧
          m.flags &&& notU64 entryAddressMask = flags ||| present) ∧
        (∀ a, Canonical a → ¬(virtualAddress ≤ a ∧ a < virtualAddress + 4096) →
          info.translate s'.memory a = info.translate s.memory a) ∧
        ∃ s'', info.unmapPage virtualAddress s' = (.ok physicalAddress, s'') ∧
          (∀ o < 4096, info.translate s''.memory (virtualAddress + o) = none) ∧
          ∀ a, Canonical a → ¬(virtualAddress ≤ a ∧ a < virtualAddress + 4096) →
            info.translate s''.memory a = info.translate s'.memory a) ∧
      (result ≠ .ok () → (∃ error, result = .error (.error error)) ∧
        ∀ a, info.translate s'.memory a = info.translate s.memory a) ∧
      (info.translate s.memory virtualAddress ≠ none →
        result = .error (.error .alreadyMapped) ∨ result = .error (.error .hugePageConflict)) := by
  have hrun := mapPage_run (s := s) ⟨htree, hfresh⟩ hvmod hpmod flags
  generalize hout : info.mapPage virtualAddress physicalAddress flags s = out at hrun
  have hpage : ∀ o < 4096, (virtualAddress + o) / 4096 = virtualAddress / 4096 ∧
      (virtualAddress + o) % 4096 = o := by
    intro o ho
    omega
  cases hrun with
  | failed grown hcause =>
    refine ⟨_, _, rfl, nofun, fun _ => ⟨⟨_, rfl⟩, grown.translate⟩, ?_⟩
    intro hsome
    rcases hcause with hnone | rfl | rfl
    · rw [translate_eq, hnone] at hsome
      exact absurd rfl hsome
    · exact .inr rfl
    · exact .inl rfl
  | @mapped t between s' grown htable hpassed hdead hleaf =>
    obtain ⟨hmask, hbits⟩ := leaf_bits hpmod hpa hflags
    have hpresent := or_present (physicalAddress ||| flags)
    have hother : ∀ a, Canonical a → ¬(virtualAddress ≤ a ∧ a < virtualAddress + 4096) →
        a / 4096 ≠ virtualAddress / 4096 := by
      intro a _ hout
      omega
    refine ⟨_, _, rfl, fun _ => ⟨?_, ?_, ?_⟩, fun h => absurd rfl h, ?_⟩
    · intro o ho
      obtain ⟨hsame, hlow⟩ := hpage o ho
      refine ⟨_, (hleaf.translate_self htable hsame).trans (if_neg hpresent), ?_, rfl, hbits⟩
      rw [hmask, hlow]
    · intro a ha houtside
      rw [hleaf.translate_other hva ha (hother a ha houtside), grown.translate]
    · have htable' := (hleaf.table (upperPath virtualAddress)).trans htable
      have hunmap := unmapPage_run hleaf.good virtualAddress
      generalize hout' : info.unmapPage virtualAddress s' = out' at hunmap
      cases hunmap with
      | @unmapped t' e s'' _ hentry _ hleaf' =>
        rw [hleaf.self] at hentry
        cases hentry
        refine ⟨s'', by rw [hmask], ?_, ?_⟩
        · intro o ho
          exact (hleaf'.translate_self htable' (hpage o ho).1).trans (if_pos rfl)
        · intro a ha houtside
          exact hleaf'.translate_other hva ha (hother a ha houtside)
      | failed hcause =>
        rcases hcause with hcause | hdead'
        · refine absurd ⟨hvmod, ?_⟩ hcause
          intro w hne hsuffix
          obtain ⟨e, he, hpresent, hhuge, -⟩ := hleaf.passed hpassed w hne hsuffix
          exact ⟨e, he, hpresent, hhuge, fun hzero => absurd rfl hzero⟩
        · exact absurd (hdead' _ hleaf.self) hpresent
    · intro hsome
      have hnone : info.translate s.memory virtualAddress = none := by
        rw [← grown.translate, translate_eq]
        exact congrArg _ (lookup_of_dead_path htable hdead)
      exact absurd hnone hsome

def emptyState : PageState := ⟨fun _ => 0, ⟨[⟨0x100000, 0x103000⟩], 0, 3, 0⟩⟩

theorem entry_empty (he : (radix ⟨2 ^ 40, 0x1000⟩ emptyState.memory).entry p = some e) : e = 0 := by
  cases p with
  | nil => cases he
  | cons i p =>
    rw [Radix.entry, Option.bind_eq_some_iff] at he
    obtain ⟨t, -, hcell⟩ := he
    have hread := (readEntry_eq ⟨2 ^ 40, 0x1000⟩ emptyState.memory t i).symm.trans hcell
    by_cases hi : i < 512 ∧ 2 ^ 40 + t + i * 8 < 2 ^ 64
    · rw [if_pos hi] at hread
      exact (Option.some.inj hread).symm
    · rw [if_neg hi] at hread
      cases hread

theorem table_empty (i : Nat) :
    (radix ⟨2 ^ 40, 0x1000⟩ emptyState.memory).table (i :: p) = none := by
  rw [Radix.table_cons, Option.bind_eq_none_iff]
  intro e he
  rw [entry_empty he]
  exact childOf_eq_none (e := 0) (i := p.length) rfl

theorem treeShaped_empty : TreeShaped ⟨2 ^ 40, 0x1000⟩ emptyState.memory := by
  refine ⟨rfl, ?_⟩
  intro p q t hp hq
  cases p with
  | nil =>
    cases q with
    | nil => rfl
    | cons j q => cases (table_empty j).symm.trans hq
  | cons i p => cases (table_empty i).symm.trans hp

theorem fresh_empty : Fresh ⟨2 ^ 40, 0x1000⟩ emptyState [0x100000, 0x101000, 0x102000] := by
  refine ⟨.some rfl (.some rfl (.some rfl (.none rfl))), by decide, by decide, ?_⟩
  intro f hf p hp
  cases p with
  | nil =>
    cases hp
    exact absurd hf (by decide)
  | cons i p => cases (table_empty i).symm.trans hp

theorem mapPage_exact_user :
    ∃ s', mapPage ⟨2 ^ 40, 0x1000⟩ 0x7ffff000 0x200000 (userAccessible ||| noExecute) emptyState =
        (.ok (), s') ∧
      (∃ m, translate ⟨2 ^ 40, 0x1000⟩ s'.memory (0x7ffff000 + 0x123) = some m ∧
        m.physicalAddress = 0x200000 + 0x123) ∧
      ∃ s'', unmapPage ⟨2 ^ 40, 0x1000⟩ 0x7ffff000 s' = (.ok 0x200000, s'') := by
  obtain ⟨result, s', hrun, hok, -, -⟩ := @mapPage_exact ⟨2 ^ 40, 0x1000⟩ emptyState
    (userAccessible ||| noExecute) 0x7ffff000 0x200000 treeShaped_empty ⟨_, fresh_empty⟩
    (.inl (by decide)) rfl rfl (by decide) rfl
  have hresult : result = .ok () := (congrArg Prod.fst hrun).symm.trans rfl
  subst hresult
  obtain ⟨hself, -, s'', hunmap, -⟩ := hok rfl
  obtain ⟨m, hm, haddress, -⟩ := hself 0x123 (by decide)
  exact ⟨s', hrun, ⟨m, hm, haddress⟩, s'', hunmap⟩

/-! ## Pages of the user -/

def UserPage (info : PagingInfo) (memory : Nat → Nat) (page : List Nat) : Prop :=
  ∃ q e, lookup (info.radix memory).entry [] page = some (q, e) ∧ e &&& userAccessible ≠ 0 ∧
    ∀ u, u ≠ [] → u <:+ q → ∃ d, (info.radix memory).entry u = some d ∧ d &&& userAccessible ≠ 0

def userPages (info : PagingInfo) (memory : Nat → Nat) : Set (List Nat) :=
  { page | page.length = 4 ∧ info.UserPage memory page }

/-- Every leaf that allows the user has only such entries above it. -/
def AncestorsOpen (info : PagingInfo) (memory : Nat → Nat) : Prop :=
  ∀ q e, (info.radix memory).entry q = some e → e &&& present ≠ 0 → IsLeaf (q.length - 1) e →
    e &&& userAccessible ≠ 0 → ∀ u, u ≠ [] → u <:+ q →
      ∃ d, (info.radix memory).entry u = some d ∧ d &&& userAccessible ≠ 0

theorem lookup_eq_some {view : List Nat → Option Nat} (h : lookup view p page = some (q, e)) :
    view q = some e ∧ e &&& present ≠ 0 ∧ IsLeaf (q.length - 1) e := by
  induction page generalizing p with
  | nil => cases h
  | cons i rest ih =>
    rw [lookup, Option.bind_eq_some_iff] at h
    obtain ⟨d, hd, h⟩ := h
    by_cases hpresent : d &&& present = 0
    · rw [if_pos hpresent] at h
      cases h
    · rw [if_neg hpresent] at h
      by_cases hleaf : IsLeaf p.length d
      · rw [if_pos hleaf] at h
        cases h
        exact ⟨hd, hpresent, hleaf⟩
      · rw [if_neg hleaf] at h
        exact ih h

section
variable {q : List Nat} (he : (info.radix memory).entry q = some e) (hpresent : e &&& present ≠ 0)
include he hpresent

theorem lookup_of_entry (hleaf : IsLeaf (q.length - 1) e) :
    lookup (info.radix memory).entry [] q.reverse = some (q, e) := by
  cases q with
  | nil => cases he
  | cons i p =>
    have hparent := he
    rw [Radix.entry, Option.bind_eq_some_iff] at hparent
    obtain ⟨t, ht, -⟩ := hparent
    rw [reverse_cons, lookup_of_table ht]
    exact lookup_of_leaf he hpresent hleaf

theorem present_of_suffix (hne : u ≠ []) (hsuffix : u <:+ q) :
    ∃ d, (info.radix memory).entry u = some d ∧ d &&& present ≠ 0 := by
  induction q generalizing e with
  | nil => cases he
  | cons i p ih =>
    rcases suffix_cons_iff.mp hsuffix with rfl | hsuffix
    · exact ⟨e, he, hpresent⟩
    · rw [Radix.entry, Option.bind_eq_some_iff] at he
      obtain ⟨t, ht, -⟩ := he
      cases p with
      | nil => exact absurd (suffix_nil.mp hsuffix) hne
      | cons j p =>
        rw [Radix.table_cons, Option.bind_eq_some_iff] at ht
        obtain ⟨d, hd, hchild⟩ := ht
        exact ih hd (childOf_eq_some hchild).1 hsuffix

end

theorem AncestorsOpen.userPage_iff (h : AncestorsOpen info memory) :
    info.UserPage memory page ↔
      ∃ q e, lookup (info.radix memory).entry [] page = some (q, e) ∧
        e &&& userAccessible ≠ 0 := by
  constructor
  · rintro ⟨q, e, hlookup, huser, -⟩
    exact ⟨q, e, hlookup, huser⟩
  · rintro ⟨q, e, hlookup, huser⟩
    obtain ⟨he, hpresent, hleaf⟩ := lookup_eq_some hlookup
    exact ⟨q, e, hlookup, huser, h q e he hpresent hleaf huser⟩

/-! ### What each call does to them -/

theorem Grown.ancestorsOpen (hgrown : Grown info s s') (h : AncestorsOpen info s.memory) :
    AncestorsOpen info s'.memory := by
  intro q e he hpresent hleaf huser u hne hsuffix
  have hlookup := (hgrown.lookup q.reverse).symm.trans (lookup_of_entry he hpresent hleaf)
  obtain ⟨he', hpresent', hleaf'⟩ := lookup_eq_some hlookup
  obtain ⟨d, hd, hduser⟩ := h q e he' hpresent' hleaf' huser u hne hsuffix
  obtain ⟨c, hc, hcpresent⟩ := present_of_suffix he' hpresent' hne hsuffix
  cases hd.symm.trans hc
  obtain ⟨d', hd', -, -, hkept⟩ := hgrown.entry u d hd hcpresent
  exact ⟨d', hd', hkept hduser⟩

theorem Grown.userPages (hgrown : Grown info s s') (h : AncestorsOpen info s.memory) :
    info.userPages s'.memory = info.userPages s.memory := by
  ext page
  simp only [PagingInfo.userPages, (hgrown.ancestorsOpen h).userPage_iff,
    h.userPage_iff, hgrown.lookup]

theorem eq_of_suffix (he : (info.radix memory).entry q = some e)
    (hlength : u.length = 4) (hsuffix : u <:+ q) : q = u := by
  rcases Radix.eq_or_cons_suffix hsuffix with heq | ⟨j, hbelow⟩
  · exact heq
  · have hnone : (info.radix memory).table u = none := by
      cases u with
      | nil => cases hlength
      | cons i p =>
        rw [Radix.table_cons, Option.bind_eq_none_iff]
        intro d _
        exact if_pos (.inr (.inl (Nat.le_of_eq (Nat.succ.inj hlength).symm)))
    cases q with
    | nil => cases he
    | cons k q =>
      have hsuffix' : u <:+ q := by
        rcases suffix_cons_iff.mp hbelow with heq | hbelow
        · injection heq with _ heq
          rw [heq]
        · exact (suffix_cons j u).trans hbelow
      rw [Radix.entry, Radix.table_of_suffix hnone hsuffix'] at he
      cases he

theorem LeafSet.ancestorsOpen (hleaf : LeafSet info s s' u v) (h : AncestorsOpen info s.memory)
    (hself : v &&& present ≠ 0 → v &&& userAccessible ≠ 0 → ∀ w, w ≠ [] → w <:+ u → w ≠ u →
      ∃ d, (info.radix s.memory).entry w = some d ∧ d &&& userAccessible ≠ 0) :
    AncestorsOpen info s'.memory := by
  intro q e he hpresent hleaf' huser w hne hsuffix
  by_cases hq : q = u
  · subst hq
    cases hleaf.self.symm.trans he
    by_cases hw : w = q
    · subst hw
      exact ⟨_, he, huser⟩
    · rw [hleaf.other w hw]
      exact hself hpresent huser w hne hsuffix hw
  · rw [hleaf.other q hq] at he
    have hw : w ≠ u := by
      rintro rfl
      exact hq (eq_of_suffix he hleaf.length hsuffix)
    rw [hleaf.other w hw]
    exact h q e he hpresent hleaf' huser w hne hsuffix

theorem LeafSet.mem_userPages (hleaf : LeafSet info s s' (pagePath virtualAddress) v)
    (ht : (info.radix s.memory).table (upperPath virtualAddress) = some t)
    (h : AncestorsOpen info s.memory) (h' : AncestorsOpen info s'.memory) :
    page ∈ info.userPages s'.memory ↔
      if page = indices virtualAddress then v &&& present ≠ 0 ∧ v &&& userAccessible ≠ 0
      else page ∈ info.userPages s.memory := by
  simp only [userPages, Set.mem_ofPred_eq, h.userPage_iff, h'.userPage_iff]
  by_cases hpage : page = indices virtualAddress
  · rw [if_pos hpage, hpage, ← reverse_pagePath, pagePath, hleaf.lookup_self ht]
    by_cases hpresent : v &&& present = 0
    · simp [hpresent]
    · rw [if_neg hpresent]
      constructor
      · rintro ⟨-, q, e, heq, huser⟩
        cases heq
        exact ⟨hpresent, huser⟩
      · rintro ⟨-, huser⟩
        exact ⟨rfl, _, v, rfl, huser⟩
  · rw [if_neg hpage]
    refine and_congr_right fun hlength => ?_
    have hne : page.reverse ≠ pagePath virtualAddress := by
      intro heq
      apply hpage
      rw [← reverse_reverse page, heq, reverse_pagePath]
    rw [hleaf.lookup_other hlength hne]

theorem leaf_user (hmod : physicalAddress % 4096 = 0) :
    (physicalAddress ||| flags ||| present) &&& userAccessible = flags &&& userAccessible := by
  have hzero : physicalAddress &&& userAccessible = 0 := by
    rw [and_user]
    omega
  rw [or_and_of_disjoint (by decide), Nat.or_comm, or_and_of_disjoint hzero]

/-! ### Sequences of calls -/

def Call.address : Call → Nat
  | .mapPage virtualAddress _ _ => virtualAddress
  | .mapMmioPage virtualAddress _ => virtualAddress
  | .mapWritablePage virtualAddress _ => virtualAddress
  | .mapUserPage virtualAddress _ _ _ => virtualAddress
  | .unmapPage virtualAddress => virtualAddress

def Call.mapFlags : Call → Option Nat
  | .mapPage _ _ flags => some flags
  | .mapMmioPage _ _ => some (writable ||| cacheDisable ||| noExecute)
  | .mapWritablePage _ _ => some (writable ||| noExecute)
  | .mapUserPage _ _ canWrite canExecute => some (userFlags canWrite canExecute)
  | .unmapPage _ => none

def Call.updated (call : Call) (pages : Set (List Nat)) : Set (List Nat) :=
  match call.mapFlags with
  | some flags =>
    if flags &&& userAccessible ≠ 0 then insert (indices call.address) pages else pages
  | none => pages \ {indices call.address}

def after (info : PagingInfo) : List Call → PageState → PageState
  | [], s => s
  | call :: calls, s => info.after calls (info.perform call s).2

/-- The pages that the user should reach after the calls: one is added for each page mapped with
the flag, and one removed for each page unmapped. -/
def accounted (info : PagingInfo) :
    List Call → PageState → Set (List Nat) → Set (List Nat)
  | [], _, pages => pages
  | call :: calls, s, pages =>
    info.accounted calls (info.perform call s).2
      (if (info.perform call s).1.isOk then call.updated pages else pages)

structure Isolated (info : PagingInfo) (s : PageState) (pages : Set (List Nat)) : Prop
    extends Good info s where
  opened : AncestorsOpen info s.memory
  pages : info.userPages s.memory = pages

variable {pages : Set (List Nat)} {call : Call}

theorem Isolated.grown (h : Isolated info s pages) (hgrown : Grown info s s') :
    Isolated info s' pages :=
  ⟨hgrown.good, hgrown.ancestorsOpen h.opened, (hgrown.userPages h.opened).trans h.pages⟩

theorem perform_mapFlags (h : call.mapFlags = some flags) :
    ∃ physicalAddress, info.perform call = info.mapPage call.address physicalAddress flags := by
  cases call with
  | unmapPage _ => cases h
  | mapPage _ physicalAddress _ =>
    cases h
    exact ⟨physicalAddress, rfl⟩
  | mapMmioPage _ physicalAddress =>
    cases h
    exact ⟨physicalAddress, rfl⟩
  | mapWritablePage _ physicalAddress =>
    cases h
    exact ⟨physicalAddress, rfl⟩
  | mapUserPage _ physicalAddress _ _ =>
    cases h
    exact ⟨physicalAddress, rfl⟩

theorem Isolated.mapped {between : PageState} (h : Isolated info between pages)
    (hpmod : physicalAddress % 4096 = 0)
    (htable : (info.radix between.memory).table (upperPath virtualAddress) = some t)
    (hpassed : Passed info flags between.memory (upperPath virtualAddress))
    (hdead : Dead (info.radix between.memory).entry (pagePath virtualAddress))
    (hleaf : LeafSet info between s' (pagePath virtualAddress)
      (physicalAddress ||| flags ||| present)) :
    Isolated info s' (if flags &&& userAccessible ≠ 0 then insert (indices virtualAddress) pages
      else pages) := by
  have hopened : AncestorsOpen info s'.memory := by
    refine hleaf.ancestorsOpen h.opened ?_
    intro _ huser w hne hsuffix hw
    rw [leaf_user hpmod] at huser
    rcases suffix_cons_iff.mp hsuffix with heq | hsuffix
    · exact absurd heq hw
    · obtain ⟨d, hd, -, -, hduser⟩ := hpassed w hne hsuffix
      exact ⟨d, hd, hduser huser⟩
  have habsent : indices virtualAddress ∉ info.userPages between.memory := by
    rintro ⟨-, q, e, hlookup, -⟩
    have hnone : lookup (info.radix between.memory).entry [] (indices virtualAddress) = none :=
      lookup_of_dead_path htable hdead
    cases hnone.symm.trans hlookup
  refine ⟨hleaf.good, hopened, ?_⟩
  ext page
  rw [hleaf.mem_userPages htable h.opened hopened, leaf_user hpmod, ← h.pages]
  by_cases huser : flags &&& userAccessible ≠ 0
  · rw [if_pos huser]
    by_cases hpage : page = indices virtualAddress
    · simp [hpage, huser]
    · simp [hpage]
  · rw [if_neg huser]
    by_cases hpage : page = indices virtualAddress
    · rw [if_pos hpage, hpage]
      exact iff_of_false (fun hboth => huser hboth.2) habsent
    · rw [if_neg hpage]

section
variable (h : Isolated info s pages)
include h

theorem Isolated.unmapped (htable : (info.radix s.memory).table (upperPath virtualAddress) = some t)
    (hleaf : LeafSet info s s' (pagePath virtualAddress) 0) :
    Isolated info s' (pages \ {indices virtualAddress}) := by
  have hopened : AncestorsOpen info s'.memory :=
    hleaf.ancestorsOpen h.opened fun hpresent => absurd rfl hpresent
  refine ⟨hleaf.good, hopened, ?_⟩
  ext page
  rw [hleaf.mem_userPages htable h.opened hopened, ← h.pages]
  by_cases hpage : page = indices virtualAddress
  · simp [hpage]
  · simp [hpage]

theorem Isolated.perform : Isolated info (info.perform call s).2
      (if (info.perform call s).1.isOk then call.updated pages else pages) := by
  cases hflags : call.mapFlags with
  | some flags =>
    obtain ⟨physicalAddress, hcall⟩ := perform_mapFlags hflags
    have hupdated : call.updated pages = if flags &&& userAccessible ≠ 0 then
        insert (indices call.address) pages else pages := by
      rw [Call.updated, hflags]
    rw [hcall, hupdated]
    by_cases haligned : call.address % 4096 = 0 ∧ physicalAddress % 4096 = 0
    · have hrun := mapPage_run h.toGood haligned.1 haligned.2 flags
      generalize info.mapPage call.address physicalAddress flags s = out at hrun
      cases hrun with
      | mapped grown htable hpassed hdead hleaf =>
        exact (h.grown grown).mapped haligned.2 htable hpassed hdead hleaf
      | failed grown _ => exact h.grown grown
    · rw [mapPage_unaligned haligned]
      exact h
  | none =>
    cases call with
    | unmapPage virtualAddress =>
      have hrun := unmapPage_run h.toGood virtualAddress
      have hperform : info.perform (.unmapPage virtualAddress) s =
          (info.unmapPage virtualAddress >>= fun _ => pure ()) s := rfl
      generalize hout : info.unmapPage virtualAddress s = out at hrun
      cases hrun with
      | unmapped htable _ _ hleaf =>
        rw [hperform, Exec.bind_of_ok hout]
        exact h.unmapped htable hleaf
      | failed _ =>
        rw [hperform, Exec.bind_of_error hout]
        exact h
    | mapPage _ _ _ => cases hflags
    | mapMmioPage _ _ => cases hflags
    | mapWritablePage _ _ => cases hflags
    | mapUserPage _ _ _ _ => cases hflags

theorem Isolated.after (calls : List Call) :
    Isolated info (info.after calls s) (info.accounted calls s pages) := by
  induction calls generalizing s pages with
  | nil => exact h
  | cons call calls ih => exact ih h.perform

end

/-- Whatever is mapped and unmapped, with or without an error, the pages that the user can reach
change only by the pages mapped for the user and the pages unmapped. -/
theorem user_isolation (htree : TreeShaped info s.memory) (hfresh : ∃ frames, Fresh info s frames)
    (hopened : AncestorsOpen info s.memory) (calls : List Call) :
    info.userPages (info.after calls s).memory =
        info.accounted calls s (info.userPages s.memory) ∧
      AncestorsOpen info (info.after calls s).memory ∧
      TreeShaped info (info.after calls s).memory := by
  have hstart : Isolated info s (info.userPages s.memory) := ⟨⟨htree, hfresh⟩, hopened, rfl⟩
  have hend := hstart.after calls
  exact ⟨hend.pages, hend.opened, hend.toTreeShaped⟩

theorem user_isolation_two :
    let calls : List Call := [.mapUserPage 0x7ffff000 0x200000 true false,
      .mapWritablePage 0x7fffe000 0x201000, .unmapPage 0x7ffff000]
    userPages ⟨2 ^ 40, 0x1000⟩ (after ⟨2 ^ 40, 0x1000⟩ calls emptyState).memory =
        accounted ⟨2 ^ 40, 0x1000⟩ calls emptyState
          (userPages ⟨2 ^ 40, 0x1000⟩ emptyState.memory) ∧
      AncestorsOpen ⟨2 ^ 40, 0x1000⟩ (after ⟨2 ^ 40, 0x1000⟩ calls emptyState).memory ∧
      TreeShaped ⟨2 ^ 40, 0x1000⟩ (after ⟨2 ^ 40, 0x1000⟩ calls emptyState).memory := by
  intro calls
  refine user_isolation treeShaped_empty ⟨_, fresh_empty⟩ ?_ calls
  intro q e he hpresent
  have hzero := entry_empty he
  rw [hzero] at hpresent
  exact absurd rfl hpresent

end NexOs.Kernel.PagingInfo
