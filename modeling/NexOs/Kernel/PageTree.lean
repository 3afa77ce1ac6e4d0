import NexOs.Lib.Radix
import NexOs.Kernel.Paging

/-! The page tables as a tree of entries, and what a translation reads of it. -/
namespace NexOs.Kernel.PagingInfo
open Bytes Align Result

variable {info : PagingInfo} {memory : Nat → Nat} {p page : List Nat} {t e i virtualAddress : Nat}

/-! ## Bits of an entry -/

theorem mask_eq : e &&& entryAddressMask = e / 2 ^ 12 % 2 ^ 40 * 2 ^ 12 := and_mask e 12 40

theorem mask_mod : (e &&& entryAddressMask) % 4096 = 0 := by
  rw [mask_eq]
  exact Nat.mul_mod_left _ _

theorem mask_of_frame (hmod : e % 4096 = 0) (hlt : e < 2 ^ 52) : e &&& entryAddressMask = e := by
  rw [mask_eq]
  omega

theorem and_user : e &&& userAccessible = e / 4 % 2 * 4 := and_mask e 2 1

theorem and_huge : e &&& hugePage = e / 128 % 2 * 128 := and_mask e 7 1

/-! ## The tree -/

def IsLeaf (level entry : Nat) : Prop :=
  3 ≤ level ∨ (level = 1 ∨ level = 2) ∧ entry &&& hugePage ≠ 0

instance (level entry : Nat) : Decidable (IsLeaf level entry) :=
  inferInstanceAs (Decidable (_ ∨ _))

def childOf (level entry : Nat) : Option Nat :=
  if entry &&& present = 0 ∨ IsLeaf level entry then none else some (entry &&& entryAddressMask)

/-- The tables as `translate` walks them. -/
def radix (info : PagingInfo) (memory : Nat → Nat) : Radix Nat Nat Nat where
  root := info.level4Frame
  cell := info.readEntry memory
  child := childOf

theorem childOf_eq_some (h : childOf i e = some t) :
    e &&& present ≠ 0 ∧ ¬IsLeaf i e ∧ t = e &&& entryAddressMask := by
  rw [childOf] at h
  by_cases hnone : e &&& present = 0 ∨ IsLeaf i e
  · rw [if_pos hnone] at h
    cases h
  · rw [if_neg hnone] at h
    cases h
    exact ⟨fun hp => hnone (.inl hp), fun hl => hnone (.inr hl), rfl⟩

theorem childOf_eq (hpresent : e &&& present ≠ 0) (hleaf : ¬IsLeaf i e) :
    childOf i e = some (e &&& entryAddressMask) :=
  if_neg (not_or.mpr ⟨hpresent, hleaf⟩)

theorem childOf_eq_none (hpresent : e &&& present = 0) : childOf i e = none :=
  if_pos (.inl hpresent)

theorem table_mod (hroot : info.level4Frame % 4096 = 0) (h : (info.radix memory).table p = some t) :
    t % 4096 = 0 := by
  cases p with
  | nil =>
    cases h
    exact hroot
  | cons i p =>
    rw [Radix.table_cons, Option.bind_eq_some_iff] at h
    obtain ⟨e, -, hchild⟩ := h
    rw [(childOf_eq_some hchild).2.2]
    exact mask_mod

theorem entryPointer_ok (h : i < 512 ∧ info.hhdmOffset + t + i * 8 < 2 ^ 64) :
    info.entryPointer t i = .ok (info.hhdmOffset + t + i * 8) := by
  have hbase : info.hhdmOffset + t < 2 ^ 64 := by omega
  rw [entryPointer, ensure_pos (Nat.not_le_of_lt h.1), bind_ok, checkedAdd_eq hbase,
    Option.bind_some, checkedAdd_eq h.2, okOr_some]

theorem entryPointer_error (h : ¬(i < 512 ∧ info.hhdmOffset + t + i * 8 < 2 ^ 64)) :
    ∃ error, info.entryPointer t i = fail error := by
  by_cases hi : i < 512
  · have hover : ¬info.hhdmOffset + t + i * 8 < 2 ^ 64 := fun hlt => h ⟨hi, hlt⟩
    refine ⟨.addressOverflow, ?_⟩
    rw [entryPointer, ensure_pos (Nat.not_le_of_lt hi)]
    by_cases hbase : info.hhdmOffset + t < 2 ^ 64
    · rw [checkedAdd_eq hbase, Option.bind_some, checkedAdd_none hover]
      rfl
    · rw [checkedAdd_none hbase]
      rfl
  · refine ⟨.invalidIndex, ?_⟩
    rw [entryPointer, ensure_neg (not_not.mpr (Nat.le_of_not_lt hi))]
    rfl

theorem readEntry_eq (info : PagingInfo) (memory : Nat → Nat) (t i : Nat) :
    info.readEntry memory t i = if i < 512 ∧ info.hhdmOffset + t + i * 8 < 2 ^ 64 then
      some (memory (info.hhdmOffset + t + i * 8)) else none := by
  rw [readEntry]
  by_cases h : i < 512 ∧ info.hhdmOffset + t + i * 8 < 2 ^ 64
  · rw [if_pos h, entryPointer_ok h]
  · obtain ⟨error, herror⟩ := entryPointer_error h
    rw [if_neg h, herror]
    rfl

theorem readEntry_writeWord (ht : t % 4096 = 0) (hu : u % 4096 = 0) (hi : i < 512)
    (hne : ¬(u = t ∧ j = i)) (v : Nat) :
    info.readEntry (writeWord memory (info.hhdmOffset + t + i * 8) v) u j =
      info.readEntry memory u j := by
  rw [readEntry_eq, readEntry_eq]
  by_cases h : j < 512 ∧ info.hhdmOffset + u + j * 8 < 2 ^ 64
  · rw [if_pos h, if_pos h, writeWord, if_neg (by omega)]
  · rw [if_neg h, if_neg h]

theorem readEntry_writeWord_self (h : i < 512 ∧ info.hhdmOffset + t + i * 8 < 2 ^ 64) (v : Nat) :
    info.readEntry (writeWord memory (info.hhdmOffset + t + i * 8) v) t i = some v := by
  rw [readEntry_eq, if_pos h, writeWord, if_pos rfl]

theorem readEntry_clearPage (ht : t % 4096 = 0) (hu : u % 4096 = 0) (hne : u ≠ t) :
    info.readEntry (clearPage memory (info.hhdmOffset + t)) u i = info.readEntry memory u i := by
  rw [readEntry_eq, readEntry_eq]
  by_cases h : i < 512 ∧ info.hhdmOffset + u + i * 8 < 2 ^ 64
  · dsimp only [clearPage, pageSize]
    rw [if_pos h, if_pos h, if_neg (by omega)]
  · rw [if_neg h, if_neg h]

theorem readEntry_clearPage_self
    (h : info.readEntry (clearPage memory (info.hhdmOffset + t)) t i = some e) : e = 0 := by
  rw [readEntry_eq] at h
  by_cases hi : i < 512 ∧ info.hhdmOffset + t + i * 8 < 2 ^ 64
  · dsimp only [clearPage, pageSize] at h
    rw [if_pos hi, if_pos (by omega)] at h
    exact (Option.some.inj h).symm
  · rw [if_neg hi] at h
    cases h

/-! ## Translation -/

/-- The leaf that a walk ends at: its path and its entry. -/
def lookup (view : List Nat → Option Nat) : List Nat → List Nat → Option (List Nat × Nat)
  | _, [] => none
  | p, i :: rest => (view (i :: p)).bind fun e =>
    if e &&& present = 0 then none
    else if IsLeaf p.length e then some (i :: p, e)
    else lookup view (i :: p) rest

def pageBytes (depth : Nat) : Nat :=
  if depth = 2 then 1024 * 1024 * 1024 else if depth = 3 then 2 * 1024 * 1024 else 4096

def mappingAt (virtualAddress : Nat) (leaf : List Nat × Nat) : Mapping where
  physicalAddress := (leaf.2 &&& entryAddressMask) +
    (virtualAddress &&& (pageBytes leaf.1.length - 1))
  pageSize := pageBytes leaf.1.length
  flags := leaf.2

theorem translateFrom_leaf (hleaf : IsLeaf p.length e) (hlength : p.length ≤ 3)
    (other : Option Mapping) : (let frame := e &&& entryAddressMask
      if p.length = 1 ∧ e &&& hugePage ≠ 0 then
        some ⟨frame + (virtualAddress &&& (1024 * 1024 * 1024 - 1)), 1024 * 1024 * 1024, e⟩
      else if p.length = 2 ∧ e &&& hugePage ≠ 0 then
        some ⟨frame + (virtualAddress &&& (2 * 1024 * 1024 - 1)), 2 * 1024 * 1024, e⟩
      else if p.length = 3 then some ⟨frame + (virtualAddress &&& 0xfff), 4096, e⟩ else other) =
      some (mappingAt virtualAddress (i :: p, e)) := by
  rw [mappingAt, List.length_cons]
  rcases Nat.lt_or_ge p.length 3 with hlt | hge
  · obtain ⟨hlevel, hhuge⟩ := hleaf.resolve_left (Nat.not_le_of_lt hlt)
    rcases hlevel with hone | htwo
    · rw [if_pos ⟨hone, hhuge⟩, hone]
      rfl
    · rw [if_neg (by omega), if_pos ⟨htwo, hhuge⟩, htwo]
      rfl
  · have hthree : p.length = 3 := Nat.le_antisymm hlength hge
    rw [hthree]
    rfl

theorem translateFrom_eq (virtualAddress : Nat) (h : (info.radix memory).table p = some t)
    (hlength : p.length + page.length ≤ 4) :
    info.translateFrom memory virtualAddress p.length t page =
      (lookup (info.radix memory).entry p page).map (mappingAt virtualAddress) := by
  induction page generalizing p t with
  | nil => rfl
  | cons i rest ih =>
    rw [List.length_cons] at hlength
    rw [lookup, Radix.entry_cons h]
    change (info.readEntry memory t i).bind _ = Option.map _ ((info.readEntry memory t i).bind _)
    cases hentry : info.readEntry memory t i with
    | none => rfl
    | some e =>
      have hcell : (info.radix memory).entry (i :: p) = some e := by
        rw [Radix.entry_cons h]
        exact hentry
      rw [Option.bind_some, Option.bind_some]
      by_cases hpresent : e &&& present = 0
      · rw [if_pos hpresent, if_pos hpresent]
        rfl
      · rw [if_neg hpresent, if_neg hpresent]
        by_cases hleaf : IsLeaf p.length e
        · rw [if_pos hleaf]
          exact translateFrom_leaf hleaf (by omega) _
        · rw [if_neg hleaf]
          have hone : ¬(p.length = 1 ∧ e &&& hugePage ≠ 0) := fun h => hleaf (.inr ⟨.inl h.1, h.2⟩)
          have htwo : ¬(p.length = 2 ∧ e &&& hugePage ≠ 0) := fun h => hleaf (.inr ⟨.inr h.1, h.2⟩)
          have hthree : ¬p.length = 3 := fun h => hleaf (.inl (Nat.le_of_eq h.symm))
          rw [if_neg hone, if_neg htwo, if_neg hthree]
          apply @ih (i :: p)
          · rw [Radix.table_cons, hcell]
            exact childOf_eq hpresent hleaf
          · rw [List.length_cons]
            omega

theorem translate_eq :
    info.translate memory virtualAddress =
      (lookup (info.radix memory).entry [] (indices virtualAddress)).map
        (mappingAt virtualAddress) :=
  @translateFrom_eq info memory [] _ _ virtualAddress rfl (Nat.le_refl 4)

end NexOs.Kernel.PagingInfo
