import NexOs.Usb.Hub

/-! The descriptors of a USB configuration: how a device's bytes are split and counted. -/
namespace NexOs.Usb
open List Bytes Iteration Result

structure Descriptor where
  descriptorType : UInt8
  bytes : List UInt8
  deriving DecidableEq

structure DescriptorIter where
  remaining : List UInt8
  failed : Bool

namespace DescriptorIter

def new (bytes : List UInt8) : DescriptorIter := ⟨bytes, false⟩

/-- `Iterator::next` -/
def next (it : DescriptorIter) : Option Descriptor × DescriptorIter :=
  if it.remaining = [] ∨ it.failed then (none, it)
  else if it.remaining.length < 2 then (none, { it with failed := true })
  else
    let length := (byteAt it.remaining 0).toNat
    if length < 2 ∨ length > it.remaining.length then (none, { it with failed := true })
    else
      let descriptor := it.remaining.take length
      (some ⟨byteAt descriptor 1, descriptor⟩, { it with remaining := it.remaining.drop length })

end DescriptorIter

structure ConfigurationDescriptor where
  totalLength : Nat
  interfaceCount : UInt8
  configurationValue : UInt8
  attributes : UInt8
  maxPowerMilliamps : Nat

def ConfigurationDescriptor.parse (bytes : List UInt8) :
    Result UsbError ConfigurationDescriptor := do
  Result.ensure (¬(bytes.length < 9 ∨ byteAt bytes 0 ≠ 9 ∨ byteAt bytes 1 ≠ 2)) .invalidDescriptor
  let totalLength := le bytes 2 2
  Result.ensure (¬totalLength < 9) .invalidDescriptor
  .ok { totalLength := totalLength, interfaceCount := byteAt bytes 4,
        configurationValue := byteAt bytes 5, attributes := byteAt bytes 7,
        maxPowerMilliamps := (byteAt bytes 8).toNat * 2 }

structure InterfaceDescriptor where
  number : UInt8
  alternateSetting : UInt8
  endpointCount : UInt8
  cls : UInt8
  subclass : UInt8
  protocol : UInt8

namespace InterfaceDescriptor

def parse (bytes : List UInt8) : Result UsbError InterfaceDescriptor := do
  Result.ensure (¬(bytes.length < 9 ∨ byteAt bytes 0 ≠ 9 ∨ byteAt bytes 1 ≠ 4)) .invalidDescriptor
  .ok { number := byteAt bytes 2, alternateSetting := byteAt bytes 3, endpointCount := byteAt bytes 4,
        cls := byteAt bytes 5, subclass := byteAt bytes 6, protocol := byteAt bytes 7 }

def isHidBootKeyboard (i : InterfaceDescriptor) : Bool :=
  i.cls = 3 ∧ i.subclass = 1 ∧ i.protocol = 1

def isHidBootMouse (i : InterfaceDescriptor) : Bool :=
  i.cls = 3 ∧ i.subclass = 1 ∧ i.protocol = 2

def isMassStorageBot (i : InterfaceDescriptor) : Bool := i.cls = 8 ∧ i.protocol = 0x50

def isHub (i : InterfaceDescriptor) : Bool := i.cls = 9

end InterfaceDescriptor

inductive Direction where
  | out
  | into
  deriving DecidableEq

inductive TransferType where
  | control
  | isochronous
  | bulk
  | interrupt
  deriving DecidableEq

structure EndpointDescriptor where
  number : UInt8
  direction : Direction
  transferType : TransferType
  maxPacketSize : Nat
  interval : UInt8

def EndpointDescriptor.parse (bytes : List UInt8) : Result UsbError EndpointDescriptor := do
  Result.ensure (¬(bytes.length < 7 ∨ byteAt bytes 0 ≠ 7 ∨ byteAt bytes 1 ≠ 5)) .invalidDescriptor
  let transferType := match byteAt bytes 3 &&& 3 with
    | 0 => TransferType.control
    | 1 => .isochronous
    | 2 => .bulk
    | _ => .interrupt
  .ok { number := byteAt bytes 2 &&& 0x0f,
        direction := if byteAt bytes 2 &&& 0x80 = 0 then .out else .into,
        transferType := transferType, maxPacketSize := le bytes 4 2 % 2048,
        interval := byteAt bytes 6 }

/-- `descriptors` counts up to 65535, the others up to 255. -/
structure ConfigurationSummary where
  descriptors : Nat
  interfaces : Nat
  endpoints : Nat
  hidKeyboards : Nat
  hidMice : Nat
  hubs : Nat
  massStorage : Nat
  deriving DecidableEq

def addByte (a : Nat) (b : Bool) : Nat := min (a + b.toNat) 255

/-- The body of the loop of `summarize_configuration`. -/
def countDescriptor (summary : ConfigurationSummary) (descriptor : Descriptor) :
    Result UsbError ConfigurationSummary := do
  let summary := { summary with descriptors := min (summary.descriptors + 1) 65535 }
  if descriptor.descriptorType = 4 then do
    let interface ← InterfaceDescriptor.parse descriptor.bytes
    .ok { summary with
      interfaces := addByte summary.interfaces true
      hidKeyboards := addByte summary.hidKeyboards interface.isHidBootKeyboard
      hidMice := addByte summary.hidMice interface.isHidBootMouse
      hubs := addByte summary.hubs interface.isHub
      massStorage := addByte summary.massStorage interface.isMassStorageBot }
  else if descriptor.descriptorType = 5 then do
    let _ ← EndpointDescriptor.parse descriptor.bytes
    .ok { summary with endpoints := addByte summary.endpoints true }
  else
    .ok summary

def summarizeConfiguration (bytes : List UInt8) : Result UsbError ConfigurationSummary := do
  let config ← ConfigurationDescriptor.parse bytes
  Result.ensure (¬bytes.length < config.totalLength) .bufferTooShort
  -- every round takes two bytes or more
  let (summary, descriptors) ← forIn DescriptorIter.next countDescriptor (config.totalLength + 1)
    (.new (bytes.take config.totalLength)) ⟨0, 0, 0, 0, 0, 0, 0⟩
  Result.ensure (¬descriptors.failed) .invalidDescriptor
  .ok summary

/-! ## The split -/

def Sized (d : List UInt8) : Prop := 2 ≤ d.length ∧ (byteAt d 0).toNat = d.length

def Descriptor.of (d : List UInt8) : Descriptor := ⟨byteAt d 1, d⟩

variable {bytes d rest : List UInt8} {ds : List (List UInt8)}

theorem byteAt_append (h : i < d.length) : byteAt (d ++ rest) i = byteAt d i := by
  rw [byteAt, byteAt, getElem?_append_left h]

namespace DescriptorIter

theorem next_sized (h : Sized d) : next (new (d ++ rest)) = (some (.of d), new rest) := by
  obtain ⟨htwo, hlength⟩ := h
  have hbyte : byteAt (d ++ rest) 0 = byteAt d 0 := byteAt_append (by omega)
  have hne : d ++ rest ≠ [] := by
    rintro hnil
    rw [(append_eq_nil_iff.mp hnil).1] at htwo
    cases htwo
  rw [next, new, if_neg (by simpa using hne), if_neg (by simp; omega)]
  rw [hbyte, hlength, if_neg (by simp; omega), take_left, drop_left]
  rfl

theorem next_stuck (hne : bytes ≠ []) (h : ∀ d rest, bytes = d ++ rest → ¬Sized d) :
    next (new bytes) = (none, ⟨bytes, true⟩) := by
  rw [next, new, if_neg (by simpa using hne)]
  split
  · rfl
  · rename_i htwo
    dsimp only
    split
    · rfl
    · rename_i hlength
      refine absurd ⟨?_, ?_⟩ (h _ _ (take_append_drop (byteAt bytes 0).toNat bytes).symm)
      · rw [length_take]
        omega
      · rw [length_take, ← byteAt_append, take_append_drop]
        · omega
        · rw [length_take]
          omega

theorem yields_append (hds : ∀ d ∈ ds, Sized d) (h : Yields next (new rest) xs it) :
    Yields next (new (ds.flatten ++ rest)) (ds.map .of ++ xs) it := by
  induction ds with
  | nil => exact h
  | cons d ds ih =>
    rw [forall_mem_cons] at hds
    rw [flatten_cons, append_assoc]
    exact .step (next_sized hds.1) (ih hds.2)

/-- The iterator yields descriptors as long as there are whole ones in front, and fails if
something is left. -/
theorem yields_descriptors (bytes : List UInt8) : ∃ (ds : List (List UInt8)) (rest : List UInt8), (∀ d ∈ ds, Sized d) ∧
    bytes = ds.flatten ++ rest ∧ Yields next (new bytes) (ds.map .of) ⟨rest, rest ≠ []⟩ := by
  induction hn : bytes.length using Nat.strong_induction_on generalizing bytes with
  | _ n ih =>
    by_cases hfront : ∃ d rest, bytes = d ++ rest ∧ Sized d
    · obtain ⟨d, tail, rfl, hd⟩ := hfront
      have hshort : tail.length < n := by
        rw [← hn, length_append]
        have := hd.1
        omega
      obtain ⟨ds, rest, hds, htail, hyields⟩ := ih tail.length hshort tail rfl
      refine ⟨d :: ds, rest, forall_mem_cons.mpr ⟨hd, hds⟩, ?_, .step (next_sized hd) hyields⟩
      rw [flatten_cons, append_assoc, ← htail]
    · refine ⟨[], bytes, forall_mem_nil _, rfl, .done ?_⟩
      by_cases hnil : bytes = []
      · rw [hnil]
        rfl
      · rw [next_stuck hnil fun d rest heq hd => hfront ⟨d, rest, heq, hd⟩]
        simp [hnil]

end DescriptorIter

/-! ## The summary -/

/-- The counts of descriptors, up to the largest value of each counter. -/
def summaryOf (ds : List (List UInt8)) : ConfigurationSummary :=
  let interfaces (p : List UInt8 → Bool) := min (ds.countP fun d => byteAt d 1 = 4 ∧ p d) 255
  { descriptors := min ds.length 65535
    interfaces := interfaces fun _ => true
    endpoints := min (ds.countP fun d => byteAt d 1 = 5) 255
    hidKeyboards := interfaces fun d => byteAt d 5 = 3 ∧ byteAt d 6 = 1 ∧ byteAt d 7 = 1
    hidMice := interfaces fun d => byteAt d 5 = 3 ∧ byteAt d 6 = 1 ∧ byteAt d 7 = 2
    hubs := interfaces fun d => byteAt d 5 = 9
    massStorage := interfaces fun d => byteAt d 5 = 8 ∧ byteAt d 7 = 0x50 }

/-- Interfaces and endpoints have the length that their class has. -/
def LengthsFine (ds : List (List UInt8)) : Prop :=
  ∀ d ∈ ds, (byteAt d 1 = 4 → d.length = 9) ∧ (byteAt d 1 = 5 → d.length = 7)

/-- A configuration and the descriptors that it consists of. -/
structure Configured (bytes : List UInt8) (ds : List (List UInt8)) : Prop where
  header : 9 ≤ bytes.length ∧ byteAt bytes 0 = 9 ∧ byteAt bytes 1 = 2 ∧ 9 ≤ le bytes 2 2
  present : le bytes 2 2 ≤ bytes.length
  lengths : LengthsFine ds
  sized : ∀ d ∈ ds, Sized d
  split : ds.flatten = bytes.take (le bytes 2 2)

theorem addByte_min (n : Nat) (b : Bool) : addByte (min n 255) b = min (n + b.toNat) 255 := by
  rw [addByte]
  omega

theorem eq_length_iff (hd : Sized d) : byteAt d 0 = n ↔ d.length = n.toNat := by
  rw [← hd.2, UInt8.toNat_inj]

theorem countDescriptor_decides (hd : Sized d) :
    Decides (countDescriptor (summaryOf ds) (.of d))
      ((byteAt d 1 = 4 → d.length = 9) ∧ (byteAt d 1 = 5 → d.length = 7))
      (summaryOf (ds ++ [d])) := by
  have hnine := eq_length_iff hd (n := 9)
  have hseven := eq_length_iff hd (n := 7)
  have hcount : min (min ds.length 65535 + 1) 65535 = min (ds.length + 1) 65535 := by omega
  unfold countDescriptor Descriptor.of
  by_cases hinterface : byteAt d 1 = 4
  · have hparse : Decides (InterfaceDescriptor.parse d) _ _ := .guard fun _ => .of_ok rfl
    rw [if_pos hinterface]
    refine .congr (hparse.bind fun _ => .of_ok rfl) ?_ fun _ => ?_
    · simp [hinterface, hnine]
      omega
    · simp [summaryOf, addByte_min, hinterface, hcount, InterfaceDescriptor.isHidBootKeyboard,
        InterfaceDescriptor.isHidBootMouse, InterfaceDescriptor.isHub,
        InterfaceDescriptor.isMassStorageBot, Bool.toNat, Bool.cond_eq_ite]
  · by_cases hendpoint : byteAt d 1 = 5
    · have hparse : Decides (EndpointDescriptor.parse d) _ _ := .guard fun _ => .of_ok rfl
      rw [if_neg hinterface, if_pos hendpoint]
      refine .congr (hparse.bind fun _ => .of_ok rfl) ?_ fun _ => ?_
      · simp [hendpoint, hseven]
        omega
      · simp [summaryOf, addByte_min, hendpoint, hcount]
    · rw [if_neg hinterface, if_neg hendpoint]
      refine .congr (.of_ok rfl) ?_ fun _ => ?_
      · simp [hinterface, hendpoint]
      · simp [summaryOf, hinterface, hendpoint, hcount]

theorem foldlM_countDescriptor (hds : ∀ d ∈ ds, Sized d) :
    Decides ((ds.map Descriptor.of).foldlM countDescriptor ⟨0, 0, 0, 0, 0, 0, 0⟩)
      (LengthsFine ds) (summaryOf ds) := by
  rw [foldlM_map]
  refine Decides.foldlM (g := fun summary d => countDescriptor summary (.of d)) LengthsFine
    summaryOf ds (forall_mem_nil _) ?_ fun l d h => (forall_mem_append.mp h).1
  rintro l d r rfl hl
  refine (countDescriptor_decides (hds d (by simp))).congr ?_ fun _ => rfl
  rw [LengthsFine, forall_mem_append, forall_mem_singleton]
  exact (and_iff_right hl).symm

theorem length_le_flatten (hds : ∀ d ∈ ds, Sized d) : ds.length ≤ ds.flatten.length := by
  induction ds with
  | nil => exact Nat.le_refl _
  | cons d ds ih =>
    rw [forall_mem_cons] at hds
    have hrest := ih hds.2
    have htwo := hds.1.1
    rw [flatten_cons, length_append, length_cons]
    omega

/-- The iterator over any bytes ends; what it has yielded are whole descriptors that follow each
other from the start, and it has failed exactly if something is left. The summary of a
configuration is made exactly if it has a header and is there in full, splits into descriptors
and has interfaces and endpoints of the right length; it counts them. -/
theorem configuration_summarized (bytes : List UInt8) :
    (∃ (ds : List (List UInt8)) (rest : List UInt8) (it : DescriptorIter),
      Yields DescriptorIter.next (.new bytes) (ds.map .of) it ∧ bytes = ds.flatten ++ rest ∧
      (∀ d ∈ ds, Sized d) ∧ (it.failed = true ↔ rest ≠ [])) ∧
    ((∃ ds, Configured bytes ds ∧ summarizeConfiguration bytes = .ok (summaryOf ds)) ∨
      (¬∃ ds, Configured bytes ds) ∧ ∃ e, summarizeConfiguration bytes = .error (.error e)) := by
  constructor
  · obtain ⟨ds, rest, hds, hbytes, hyields⟩ := DescriptorIter.yields_descriptors bytes
    exact ⟨ds, rest, _, hyields, hbytes, hds, decide_eq_true_iff⟩
  · obtain ⟨ds, rest, hds, hbytes, hyields⟩ :=
      DescriptorIter.yields_descriptors (bytes.take (le bytes 2 2))
    have hfuel : (ds.map Descriptor.of).length < le bytes 2 2 + 1 := by
      have hflatten := length_le_flatten hds
      have htake := congrArg length hbytes
      rw [length_take, length_append] at htake
      rw [length_map]
      omega
    have hloop := hyields.forIn_eq countDescriptor hfuel ⟨0, 0, 0, 0, 0, 0, 0⟩
    have hrun : Decides (summarizeConfiguration bytes) _ _ :=
      .bind (.guard fun _ => .guard fun _ => .of_ok rfl) fun _ => .guard fun _ => by
        rw [hloop, bind_assoc]
        exact (foldlM_countDescriptor hds).bind fun _ => .guard fun _ => .of_ok rfl
    rcases hrun with ⟨⟨⟨hguard, hnine, -⟩, hpresent, hlengths, hdone, -⟩, hok⟩ | ⟨hnot, herror⟩
    · have hrest : rest = [] := by simpa using hdone
      simp only [not_or, not_not, Nat.not_lt] at hguard hnine hpresent
      rw [hrest, append_nil] at hbytes
      exact .inl ⟨ds, ⟨⟨hguard.1, hguard.2.1, hguard.2.2, hnine⟩, hpresent, hlengths, hds,
        hbytes.symm⟩, hok⟩
    · refine .inr ⟨?_, herror⟩
      rintro ⟨ds', h⟩
      -- the bytes split in one way only
      have hnone : Yields DescriptorIter.next (.new []) [] (.new []) := .done rfl
      have hall := DescriptorIter.yields_append h.sized hnone
      rw [append_nil, append_nil, h.split] at hall
      obtain ⟨hmap, hend⟩ := hyields.unique hall
      have hsame : ds = ds' := map_injective_iff.mpr (fun _ _ => congrArg Descriptor.bytes) hmap
      obtain ⟨hlong, hlength, hclass, hnine⟩ := h.header
      refine hnot ⟨⟨?_, Nat.not_lt.mpr hnine, trivial⟩, Nat.not_lt.mpr h.present,
        hsame ▸ h.lengths, ?_, trivial⟩
      · simp only [not_or, not_not, Nat.not_lt]
        exact ⟨hlong, hlength, hclass⟩
      · rw [hend]
        nofun

end NexOs.Usb
