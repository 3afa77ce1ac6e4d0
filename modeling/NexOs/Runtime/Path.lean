import NexOs.Lib.Bytes
import NexOs.Lib.Segments
import NexOs.Runtime.Abi

/-! Paths of the virtual file system: a fixed buffer that normalization edits in place. -/
namespace NexOs.Runtime
open List hiding Vector
open Result

def pathCapacity : Nat := 256
def nameCapacity : Nat := 64

/-- A buffer with the length of its visible part. Paths are compared by the whole buffer. -/
structure Path where
  bytes : Vector UInt8 pathCapacity
  length : Fin (pathCapacity + 1)
  deriving DecidableEq

namespace Path

def asBytes (p : Path) : List UInt8 := p.bytes.toList.take p.length

def isRoot (p : Path) : Bool := p.asBytes = [47]

def empty : Path := ⟨Vector.replicate pathCapacity 0, 0⟩

def pushByte (p : Path) (byte : UInt8) : Result Abi.Error Path :=
  if h : p.length.val < pathCapacity then
    .ok ⟨p.bytes.set p.length byte h, ⟨p.length + 1, Nat.succ_lt_succ h⟩⟩
  else
    Result.fail .nameTooLong

def pushBytes (p : Path) (bytes : List UInt8) : Result Abi.Error Path := bytes.foldlM pushByte p

/-- The output and the used part of `component_starts`. -/
structure Cursor where
  path : Path
  componentStarts : List (Fin (pathCapacity + 1))

/-- `..`: the visible part ends where the last component started. -/
def popComponent (c : Cursor) : Result Abi.Error Cursor :=
  match c.componentStarts.getLast? with
  | none => .ok c
  | some start => do
    let path ← restored { c.path with length := start }
    .ok ⟨path, c.componentStarts.dropLast⟩
where
  restored (path : Path) : Result Abi.Error Path :=
    if path.length = 0 then path.pushByte 47 else .ok path

def pushComponent (c : Cursor) (component : List UInt8) : Result Abi.Error Cursor := do
  Result.ensure (¬(nameCapacity < component.length ∨ 0 ∈ component)) .nameTooLong
  Result.ensure (c.componentStarts.length ≠ 64) .nameTooLong
  let path ← separated c.path
  let path ← path.pushBytes component
  .ok ⟨path, c.componentStarts ++ [c.path.length]⟩
where
  separated (path : Path) : Result Abi.Error Path :=
    if path.isRoot then .ok path else path.pushByte 47

/-- The body of the loop of `append_components`. -/
def appendComponent (c : Cursor) (component : List UInt8) : Result Abi.Error Cursor :=
  if component = [] ∨ component = [46] then
    .ok c
  else if component = [46, 46] then
    popComponent c
  else
    pushComponent c component

def appendComponents (c : Cursor) (input : List UInt8) : Result Abi.Error Cursor :=
  (input.splitOn 47).foldlM appendComponent c

/-- The components of the current directory, for a path that does not start at the root. -/
def appendDirectory (path currentDirectory : List UInt8) (c : Cursor) : Result Abi.Error Cursor :=
  if path.head? = some 47 then
    .ok c
  else do
    Result.ensure (currentDirectory.head? = some 47) .invalidArgument
    appendComponents c (currentDirectory.drop 1)

/-- `path.strip_prefix(b"/").unwrap_or(path)` -/
def stripSlash (path : List UInt8) : List UInt8 :=
  if path.head? = some 47 then path.drop 1 else path

def normalize (path currentDirectory : List UInt8) : Result Abi.Error Path := do
  let output ← empty.pushByte 47
  let cursor ← appendDirectory path currentDirectory ⟨output, []⟩
  let cursor ← appendComponents cursor (stripSlash path)
  .ok cursor.path

/-! ## The meaning of a path -/

/-- The bytes of the absolute path with these components. -/
def absolute (cs : List (List UInt8)) : List UInt8 := if cs = [] then [47] else Segments.joined 47 cs

def resolveComponent (cs : List (List UInt8)) (component : List UInt8) : List (List UInt8) :=
  if component = [] ∨ component = [46] then
    cs
  else if component = [46, 46] then
    cs.dropLast
  else
    cs ++ [component]

/-- The components of the input, in the order in which they are taken. -/
def inputComponents (path currentDirectory : List UInt8) : List (List UInt8) :=
  (if path.head? = some 47 then [] else (currentDirectory.drop 1).splitOn 47) ++
    (stripSlash path).splitOn 47

def resolved (path currentDirectory : List UInt8) : List (List UInt8) :=
  (inputComponents path currentDirectory).foldl resolveComponent []

/-! ## The visible bytes -/

variable {p q : Path} {c c' : Cursor} {byte : UInt8} {cs : List (List UInt8)}
  {component d : List UInt8}

theorem length_asBytes : p.asBytes.length = p.length := by
  have hle := Nat.le_of_lt_succ p.length.isLt
  rw [asBytes, length_take, Vector.length_toList, Nat.min_eq_left hle]

def Clean (p : Path) : Prop :=
  ∀ (i : Nat) (b : UInt8), p.length.val ≤ i → p.bytes.toList[i]? = some b → b = 0

theorem Clean.ext (hp : p.Clean) (hq : q.Clean) (h : p.asBytes = q.asBytes) : p = q := by
  have hlength : p.length = q.length := by
    apply Fin.ext
    rw [← length_asBytes, h, length_asBytes]
  have hbytes : p.bytes.toList = q.bytes.toList := by
    apply ext_getElem
    · rw [Vector.length_toList, Vector.length_toList]
    · intro i hi hi'
      by_cases hlt : i < p.length.val
      · have hsame := congrArg (·[i]?) h
        simp only [asBytes, getElem?_take, hlt, hlength ▸ hlt] at hsame
        rw [getElem?_eq_getElem hi, getElem?_eq_getElem hi'] at hsame
        exact Option.some.inj hsame
      · have hle := Nat.le_of_not_lt hlt
        rw [hp i _ hle (getElem?_eq_getElem hi), hq i _ (hlength ▸ hle) (getElem?_eq_getElem hi')]
  rcases p with ⟨pbytes, plength⟩
  rcases q with ⟨qbytes, qlength⟩
  exact congr (congrArg mk (Vector.toList_inj.mp hbytes)) hlength

theorem pushByte_eq_ok (h : p.pushByte byte = .ok q) :
    q.asBytes = p.asBytes ++ [byte] ∧ (p.Clean → q.Clean) := by
  unfold pushByte at h
  split at h
  · rename_i hlt
    cases h
    constructor
    · exact Bytes.take_set p.bytes hlt
    · intro hclean i b hle hget
      rw [Vector.toList_set] at hget
      have hne : p.length.val ≠ i := Nat.ne_of_lt hle
      rw [getElem?_set_ne hne] at hget
      exact hclean i b (Nat.le_of_succ_le hle) hget
  · cases h

theorem pushBytes_eq_ok {bytes : List UInt8} (h : p.pushBytes bytes = .ok q) :
    q.asBytes = p.asBytes ++ bytes ∧ (p.Clean → q.Clean) := by
  induction bytes generalizing p with
  | nil =>
    cases h
    exact ⟨(append_nil _).symm, fun hclean => hclean⟩
  | cons byte bytes ih =>
    obtain ⟨r, hr, h⟩ := bind_eq_ok h
    obtain ⟨hbyte, hfirst⟩ := pushByte_eq_ok hr
    obtain ⟨hbytes, hrest⟩ := ih h
    rw [hbytes, hbyte, append_assoc]
    exact ⟨rfl, fun hclean => hrest (hfirst hclean)⟩

/-! ## Components -/

theorem absolute_concat :
    absolute (cs ++ [d]) = if cs = [] then 47 :: d else absolute cs ++ 47 :: d := by
  rw [absolute, Segments.joined_append]
  by_cases hcs : cs = []
  · simp [hcs]
  · simp [hcs, absolute]

theorem absolute_ne_nil : absolute cs ≠ [] := by
  cases cs with
  | nil => exact cons_ne_nil _ _
  | cons c cs => exact cons_ne_nil _ _

theorem absolute_eq_root (h : Segments.Proper 47 cs) : absolute cs = [47] ↔ cs = [] := by
  constructor
  · intro heq
    cases cs with
    | nil => rfl
    | cons c cs =>
      have hnil := append_eq_nil_iff.mp (cons.inj heq).2
      exact absurd hnil.1 (h c mem_cons_self).1
  · rintro rfl
    rfl

/-- The lengths of the path when the components were added. -/
def startsOf (cs : List (List UInt8)) : List Nat :=
  (List.range cs.length).map fun k => (absolute (cs.take k)).length

theorem startsOf_concat : startsOf (cs ++ [d]) = startsOf cs ++ [(absolute cs).length] := by
  rw [startsOf, length_append, length_singleton, range_succ, map_append, map_singleton, take_left]
  congr 1
  apply map_congr_left
  intro k hk
  rw [take_append_of_le_length (Nat.le_of_lt (mem_range.mp hk))]

structure Spells (c : Cursor) (cs : List (List UInt8)) : Prop where
  bytes : c.path.asBytes = absolute cs
  starts : c.componentStarts.map Fin.val = startsOf cs
  proper : Segments.Proper 47 cs

section
variable (h : Spells c cs)
include h

theorem Spells.length : c.path.length.val = (absolute cs).length := by
  rw [← length_asBytes, h.bytes]

theorem Spells.pop (hok : popComponent c = .ok c') : Spells c' cs.dropLast := by
  unfold popComponent at hok
  cases cs using reverseRecOn with
  | nil =>
    have hnil : c.componentStarts = [] := map_eq_nil_iff.mp h.starts
    rw [hnil] at hok
    cases hok
    exact h
  | append_singleton cs d =>
    have hstarts := h.starts
    rw [startsOf_concat] at hstarts
    obtain ⟨starts, last, hsplit, hbefore, hlast⟩ := map_eq_append_iff.mp hstarts
    obtain ⟨start, rfl, hstart⟩ := map_eq_singleton_iff.mp hlast
    have hpos : start ≠ 0 := by
      intro hzero
      rw [hzero] at hstart
      exact absolute_ne_nil (length_eq_zero_iff.mp hstart.symm)
    rw [hsplit, getLast?_concat, dropLast_concat] at hok
    dsimp only at hok
    rw [popComponent.restored, if_neg hpos] at hok
    cases hok
    rw [dropLast_concat]
    refine ⟨?_, hbefore, h.proper.left⟩
    have hfront : absolute cs <+: c.path.bytes.toList := by
      have hshort : absolute cs <+: absolute (cs ++ [d]) := by
        rw [absolute_concat]
        split
        · rename_i hcs
          rw [hcs]
          exact cons_prefix_cons.mpr ⟨rfl, nil_prefix⟩
        · exact prefix_append _ _
      rw [← h.bytes] at hshort
      exact hshort.trans (List.take_prefix _ _)
    change c.path.bytes.toList.take start.val = absolute cs
    rw [hstart]
    exact (prefix_iff_eq_take.mp hfront).symm

theorem Spells.push (hne : component ≠ []) (hsep : 47 ∉ component)
    (hok : pushComponent c component = .ok c') :
    Spells c' (cs ++ [component]) ∧ (c.path.Clean → c'.path.Clean) := by
  obtain ⟨-, -, hok⟩ := bind_eq_ok hok
  obtain ⟨-, -, hok⟩ := bind_eq_ok hok
  obtain ⟨p, hp, hok⟩ := bind_eq_ok hok
  obtain ⟨q, hq, hok⟩ := bind_eq_ok hok
  cases hok
  obtain ⟨hbytes, hclean⟩ := pushBytes_eq_ok hq
  have hproper : Segments.Proper 47 (cs ++ [component]) := by
    intro d hd
    rcases mem_append.mp hd with hd | hd
    · exact h.proper d hd
    · rw [mem_singleton.mp hd]
      exact ⟨hne, hsep⟩
  have hstarts : (c.componentStarts ++ [c.path.length]).map Fin.val =
      startsOf (cs ++ [component]) := by
    rw [map_append, h.starts, startsOf_concat, map_singleton, h.length]
  unfold pushComponent.separated at hp
  split at hp
  · rename_i hroot
    cases hp
    have hnil : cs = [] := by
      rw [isRoot, decide_eq_true_iff, h.bytes] at hroot
      exact (absolute_eq_root h.proper).mp hroot
    refine ⟨⟨?_, hstarts, hproper⟩, hclean⟩
    rw [hbytes, h.bytes, absolute_concat, hnil]
    rfl
  · rename_i hroot
    obtain ⟨hslash, hcleanSlash⟩ := pushByte_eq_ok hp
    have hcs : cs ≠ [] := by
      rintro rfl
      apply hroot
      rw [isRoot, h.bytes]
      rfl
    refine ⟨⟨?_, hstarts, hproper⟩, fun hfirst => hclean (hcleanSlash hfirst)⟩
    rw [hbytes, hslash, h.bytes, absolute_concat, if_neg hcs, append_assoc]
    rfl

/-- One component of the input. Only `..` leaves bytes behind the visible part. -/
theorem Spells.append (hsep : 47 ∉ component) (hok : appendComponent c component = .ok c') :
    Spells c' (resolveComponent cs component) ∧
      (component ≠ [46, 46] → c.path.Clean → c'.path.Clean) := by
  unfold appendComponent at hok
  unfold resolveComponent
  split at hok
  · rename_i hskip
    cases hok
    rw [if_pos hskip]
    exact ⟨h, fun _ hclean => hclean⟩
  · rename_i hskip
    rw [if_neg hskip]
    split at hok
    · rename_i hdots
      rw [if_pos hdots]
      exact ⟨h.pop hok, fun hnot => absurd hdots hnot⟩
    · rename_i hdots
      rw [if_neg hdots]
      obtain ⟨hspells, hclean⟩ := h.push (not_or.mp hskip).1 hsep hok
      exact ⟨hspells, fun _ => hclean⟩

theorem Spells.appendAll {components : List (List UInt8)}
    (hsep : ∀ component ∈ components, 47 ∉ component)
    (hok : components.foldlM appendComponent c = .ok c') :
    Spells c' (components.foldl resolveComponent cs) ∧
      ([46, 46] ∉ components → c.path.Clean → c'.path.Clean) := by
  induction components generalizing c cs with
  | nil =>
    cases hok
    exact ⟨h, fun _ hclean => hclean⟩
  | cons component components ih =>
    rw [forall_mem_cons] at hsep
    obtain ⟨d, hd, hok⟩ := bind_eq_ok hok
    obtain ⟨hfirst, hcleanFirst⟩ := h.append hsep.1 hd
    obtain ⟨hrest, hcleanRest⟩ := ih hfirst hsep.2 hok
    refine ⟨hrest, fun hdots hclean => ?_⟩
    rw [mem_cons, not_or] at hdots
    exact hcleanRest hdots.2 (hcleanFirst (Ne.symm hdots.1) hclean)

end

theorem notMem_inputComponents {path currentDirectory : List UInt8}
    (h : component ∈ inputComponents path currentDirectory) : 47 ∉ component := by
  rw [inputComponents, mem_append] at h
  rcases h with h | h
  · split at h
    · cases h
    · exact Segments.notMem_of_mem_splitOn h
  · exact Segments.notMem_of_mem_splitOn h

variable {path currentDirectory : List UInt8} (h : normalize path currentDirectory = .ok p)
include h

theorem normalize_loop : ∃ output c, empty.pushByte 47 = .ok output ∧
      (inputComponents path currentDirectory).foldlM appendComponent ⟨output, []⟩ = .ok c ∧
      p = c.path := by
  obtain ⟨output, houtput, h⟩ := bind_eq_ok h
  obtain ⟨c, hc, h⟩ := bind_eq_ok h
  obtain ⟨d, hd, h⟩ := bind_eq_ok h
  cases h
  refine ⟨output, d, houtput, ?_, rfl⟩
  rw [inputComponents, foldlM_append]
  unfold appendDirectory at hc
  split at hc
  · rename_i habsolute
    cases hc
    rw [if_pos habsolute]
    exact hd
  · rename_i habsolute
    obtain ⟨-, -, hc⟩ := bind_eq_ok hc
    rw [if_neg habsolute]
    change ((currentDirectory.drop 1).splitOn 47).foldlM appendComponent ⟨output, []⟩ = .ok c at hc
    rw [hc]
    exact hd

/-- A normalized path shows the components that the input resolves to. Without `..` in the input
the rest of its buffer is zero. -/
theorem normalize_eq_ok :
    p.asBytes = absolute (resolved path currentDirectory) ∧
      Segments.Proper 47 (resolved path currentDirectory) ∧
      ([46, 46] ∉ inputComponents path currentDirectory → p.Clean) := by
  obtain ⟨output, c, houtput, hloop, rfl⟩ := normalize_loop h
  obtain ⟨hslash, hcleanSlash⟩ := pushByte_eq_ok houtput
  have hempty : empty.Clean := by
    intro i b _ hget
    exact eq_of_mem_replicate (mem_of_getElem? hget)
  have hstart : Spells ⟨output, []⟩ [] := ⟨hslash, rfl, nofun⟩
  have hsep : ∀ component ∈ inputComponents path currentDirectory, 47 ∉ component :=
    fun _ => notMem_inputComponents
  obtain ⟨hspells, hclean⟩ := hstart.appendAll hsep hloop
  exact ⟨hspells.bytes, hspells.proper, fun hdots => hclean hdots (hcleanSlash hempty)⟩

end Path

end NexOs.Runtime
