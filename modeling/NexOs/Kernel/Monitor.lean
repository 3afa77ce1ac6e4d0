import Mathlib.Data.Nat.Digits.Defs
import NexOs.Lib.Bytes

/-! The arguments of the monitor's installer command. The disk to erase is named twice, once as
the target and once in the confirmation. -/
namespace NexOs.Kernel.Monitor
open List Bytes

def space : UInt8 := 32

/-- `b"disk"` -/
def disk : List UInt8 := [100, 105, 115, 107]

/-- `b"ERASE-"` -/
def erase : List UInt8 := [69, 82, 65, 83, 69, 45]

def isAsciiDigit (byte : UInt8) : Bool := 48 ≤ byte && byte ≤ 57

/-- The body of the loop of `parse_decimal`. -/
def appendDigit (value : Nat) (byte : UInt8) : Option Nat := do
  if ¬ isAsciiDigit byte then none
  let value ← checkedMul value 10
  checkedAdd value (byte - 48).toNat

def parseDecimal (bytes : List UInt8) : Option Nat :=
  if bytes = [] then none else bytes.foldlM appendDigit 0

def parseDiskName (bytes : List UInt8) : Option Nat := do
  parseDecimal (← bytes.dropPrefix? disk)

def parseInstallArguments (bytes : List UInt8) : Option Nat := do
  let separator ← bytes.idxOf? space
  let target := bytes.take separator
  let confirmation := bytes.drop (separator + 1)
  if target = [] then none
  else if (← confirmation.dropPrefix? erase) ≠ target ∨ space ∈ confirmation then none
  else parseDiskName target

/-! ## What the arguments mean -/

def decimalValue (digits : List UInt8) : Nat :=
  Nat.ofDigits 10 (digits.reverse.map fun byte => (byte - 48).toNat)

def Names (text : List UInt8) (index : Nat) : Prop :=
  ∃ digits, text = disk ++ digits ∧ digits ≠ [] ∧ (∀ byte ∈ digits, isAsciiDigit byte) ∧
    decimalValue digits = index ∧ index < 2 ^ 64

theorem decimalValue_concat (digits : List UInt8) (byte : UInt8) :
    decimalValue (digits ++ [byte]) = decimalValue digits * 10 + (byte - 48).toNat := by
  simp only [decimalValue, reverse_append, reverse_singleton, singleton_append, map_cons,
    Nat.ofDigits_cons]
  omega

theorem appendDigit_eq_some {value index : Nat} {byte : UInt8} :
    appendDigit value byte = some index ↔
      isAsciiDigit byte ∧ value * 10 + (byte - 48).toNat = index ∧ index < 2 ^ 64 := by
  by_cases hdigit : isAsciiDigit byte
  · simp only [appendDigit, hdigit, not_true, if_false, checkedMul, checkedAdd, Option.bind_eq_bind,
      Option.bind_eq_some_iff, Option.ite_none_right_eq_some, Option.some.injEq]
    constructor
    · rintro ⟨_, ⟨_, rfl⟩, hlt, rfl⟩
      exact ⟨trivial, rfl, hlt⟩
    · rintro ⟨_, rfl, hlt⟩
      exact ⟨_, ⟨Nat.lt_of_le_of_lt (Nat.le_add_right _ _) hlt, rfl⟩, hlt, rfl⟩
  · simp [appendDigit, hdigit]

variable {bytes : List UInt8}

theorem foldlM_appendDigit {index : Nat} :
    bytes.foldlM appendDigit 0 = some index ↔ (∀ byte ∈ bytes, isAsciiDigit byte) ∧
      decimalValue bytes = index ∧ index < 2 ^ 64 := by
  induction bytes using reverseRecOn generalizing index with
  | nil =>
    have hvalue : decimalValue [] = 0 := rfl
    simp only [foldlM_nil, pure, Option.some.injEq, not_mem_nil, false_implies,
      implies_true, true_and]
    omega
  | append_singleton bytes byte ih =>
    rw [foldlM_append, Option.bind_eq_bind, Option.bind_eq_some_iff, decimalValue_concat]
    simp only [ih, foldlM_cons, foldlM_nil, bind_pure, appendDigit_eq_some, forall_mem_append,
      forall_mem_singleton]
    constructor
    · rintro ⟨value, ⟨hbytes, rfl, _⟩, hbyte, hindex⟩
      exact ⟨⟨hbytes, hbyte⟩, hindex⟩
    · rintro ⟨⟨hbytes, hbyte⟩, hindex⟩
      exact ⟨_, ⟨hbytes, rfl, by omega⟩, hbyte, hindex⟩

theorem parseDiskName_eq_some {index : Nat} :
    parseDiskName bytes = some index ↔ Names bytes index := by
  simp only [parseDiskName, Option.bind_eq_bind, Option.bind_eq_some_iff,
    dropPrefix?_eq_some_iff, beq_iff_eq]
  constructor
  · rintro ⟨digits, ⟨_, rfl, rfl⟩, hdigits⟩
    unfold parseDecimal at hdigits
    split at hdigits
    · cases hdigits
    · exact ⟨digits, rfl, ‹_›, foldlM_appendDigit.mp hdigits⟩
  · rintro ⟨digits, rfl, hnil, hdigits⟩
    refine ⟨digits, ⟨_, rfl, rfl⟩, ?_⟩
    rw [parseDecimal, if_neg hnil]
    exact foldlM_appendDigit.mpr hdigits

namespace Names
variable {text : List UInt8} {index other : Nat}

variable (h : Names text index)
include h

theorem unique (h' : Names text other) : index = other := by
  rw [← parseDiskName_eq_some] at h h'
  exact Option.some.inj (h.symm.trans h')

theorem space_notMem : space ∉ text := by
  obtain ⟨digits, rfl, -, hdigits, -⟩ := h
  intro hmem
  rcases mem_append.mp hmem with hdisk | hdigit
  · revert hdisk
    decide
  · have := hdigits _ hdigit
    revert this
    decide

theorem space_notMem_confirmation : space ∉ erase ++ text := by
  rw [mem_append, not_or]
  exact ⟨by decide, h.space_notMem⟩

theorem ne_nil : text ≠ [] := by
  obtain ⟨digits, rfl, -⟩ := h
  exact append_ne_nil_of_left_ne_nil (by decide) digits

end Names

theorem parseInstallArguments_split {target confirmation : List UInt8} {index : Nat}
    (hspace : space ∉ target) :
    parseInstallArguments (target ++ space :: confirmation) = some index ↔
      Names target index ∧ confirmation = erase ++ target := by
  have hseparator : (target ++ space :: confirmation).idxOf? space = some target.length := by
    rw [idxOf?, findIdx?_append, findIdx?_eq_none_iff.mpr (by grind), findIdx?_cons]
    simp
  have hdrop : (target ++ space :: confirmation).drop (target.length + 1) = confirmation := by
    simp
  simp only [parseInstallArguments, hseparator, Option.bind_eq_bind, Option.bind_some, hdrop,
    take_left]
  constructor
  · intro hparse
    split at hparse
    · cases hparse
    · rw [Option.bind_eq_some_iff] at hparse
      obtain ⟨marked, hmarked, hparse⟩ := hparse
      split at hparse
      · cases hparse
      · rename_i hsame
        push Not at hsame
        obtain ⟨_, rfl, hpre⟩ := dropPrefix?_eq_some_iff.mp hmarked
        exact ⟨parseDiskName_eq_some.mp hparse, by rw [beq_iff_eq.mp hpre, hsame.1]⟩
  · rintro ⟨hnames, rfl⟩
    have hmarked : (erase ++ target).dropPrefix? erase = some target :=
      dropPrefix?_append_of_beq target (beq_self_eq_true erase)
    rw [if_neg hnames.ne_nil, hmarked]
    simp only [Option.bind_some, ne_eq, hnames.space_notMem_confirmation]
    exact parseDiskName_eq_some.mpr hnames

theorem parseInstallArguments_eq_some {index : Nat} :
    parseInstallArguments bytes = some index ↔
      ∃ target, Names target index ∧ bytes = target ++ space :: (erase ++ target) := by
  constructor
  · intro hparse
    have hmem : space ∈ bytes := by
      by_contra hspace
      simp [parseInstallArguments, idxOf?_eq_none_iff.mpr hspace] at hparse
    obtain ⟨target, confirmation, rfl, hspace⟩ := eq_append_cons_of_mem hmem
    obtain ⟨hnames, rfl⟩ := (parseInstallArguments_split hspace).mp hparse
    exact ⟨target, hnames, rfl⟩
  · rintro ⟨target, hnames, rfl⟩
    exact (parseInstallArguments_split hnames.space_notMem).mpr ⟨hnames, rfl⟩

def firstToken (bytes : List UInt8) : List UInt8 := bytes.takeWhile (· != space)

theorem firstToken_append {target : List UInt8} (rest : List UInt8) (h : space ∉ target) :
    firstToken (target ++ space :: rest) = target := by
  rw [firstToken, takeWhile_append_of_pos, takeWhile_cons_of_neg (by simp), append_nil]
  intro byte hbyte
  simpa using ne_of_mem_of_not_mem hbyte h

/-- The arguments are accepted exactly when they name one disk twice, so the first token decides
them, and neither name can be that of another disk than the one to erase. -/
theorem installation_confirmed :
    (∀ bytes index, parseInstallArguments bytes = some index ↔
      ∃ target, Names target index ∧ bytes = target ++ space :: (erase ++ target)) ∧
    (∀ bytes bytes' index index', parseInstallArguments bytes = some index →
      parseInstallArguments bytes' = some index' → firstToken bytes = firstToken bytes' →
      bytes = bytes') ∧
    ∀ target confirmed index other,
      parseInstallArguments (target ++ space :: (erase ++ confirmed)) = some index →
      Names target other ∨ Names confirmed other → other = index := by
  refine ⟨fun _ _ => parseInstallArguments_eq_some, ?_, ?_⟩
  · intro bytes bytes' index index' h h' htoken
    obtain ⟨target, hnames, rfl⟩ := parseInstallArguments_eq_some.mp h
    obtain ⟨target', hnames', rfl⟩ := parseInstallArguments_eq_some.mp h'
    rw [firstToken_append _ hnames.space_notMem, firstToken_append _ hnames'.space_notMem]
      at htoken
    rw [htoken]
  · intro target confirmed index other h hother
    obtain ⟨text, hnames, heq⟩ := parseInstallArguments_eq_some.mp h
    obtain ⟨rfl, -, hrest⟩ := (append_cons_inj_of_notMem hnames.space_notMem
      hnames.space_notMem_confirmation).mp heq.symm
    obtain rfl := append_cancel_left hrest
    exact (hother.elim id id).unique hnames

end NexOs.Kernel.Monitor
