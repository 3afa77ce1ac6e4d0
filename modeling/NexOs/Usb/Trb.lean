import Mathlib.Data.UInt

/-! The transfer request blocks (TRBs) of an xHCI controller. -/
namespace NexOs.Usb

inductive TrbType where
  | normal
  | setupStage
  | dataStage
  | statusStage
  | link
  | enableSlotCommand
  | disableSlotCommand
  | addressDeviceCommand
  | configureEndpointCommand
  | evaluateContextCommand
  | resetEndpointCommand
  | stopEndpointCommand
  | setTransferRingDequeuePointerCommand
  | resetDeviceCommand
  | noOpCommand
  | transferEvent
  | commandCompletionEvent
  | portStatusChangeEvent
deriving DecidableEq, Repr

namespace TrbType

def toRaw : TrbType → UInt32
  | normal => 1
  | setupStage => 2
  | dataStage => 3
  | statusStage => 4
  | link => 6
  | enableSlotCommand => 9
  | disableSlotCommand => 10
  | addressDeviceCommand => 11
  | configureEndpointCommand => 12
  | evaluateContextCommand => 13
  | resetEndpointCommand => 14
  | stopEndpointCommand => 15
  | setTransferRingDequeuePointerCommand => 16
  | resetDeviceCommand => 17
  | noOpCommand => 23
  | transferEvent => 32
  | commandCompletionEvent => 33
  | portStatusChangeEvent => 34

def fromRaw (raw : UInt8) : Option TrbType :=
  match raw.toNat with
  | 1 => some normal
  | 2 => some setupStage
  | 3 => some dataStage
  | 4 => some statusStage
  | 6 => some link
  | 9 => some enableSlotCommand
  | 10 => some disableSlotCommand
  | 11 => some addressDeviceCommand
  | 12 => some configureEndpointCommand
  | 13 => some evaluateContextCommand
  | 14 => some resetEndpointCommand
  | 15 => some stopEndpointCommand
  | 16 => some setTransferRingDequeuePointerCommand
  | 17 => some resetDeviceCommand
  | 23 => some noOpCommand
  | 32 => some transferEvent
  | 33 => some commandCompletionEvent
  | 34 => some portStatusChangeEvent
  | _ => none

end TrbType

structure Trb where
  parameterLow : UInt32
  parameterHigh : UInt32
  status : UInt32
  control : UInt32
deriving DecidableEq, Repr

namespace Trb

def zero : Trb := ⟨0, 0, 0, 0⟩

def command (trbType : TrbType) : Trb := ⟨0, 0, 0, trbType.toRaw <<< 10⟩

def withParameter (parameter : UInt64) (trb : Trb) : Trb :=
  { trb with parameterLow := parameter.toUInt32, parameterHigh := (parameter >>> 32).toUInt32 }

def withControlBits (bits : UInt32) (trb : Trb) : Trb :=
  { trb with control := trb.control ||| bits }

def trbType (trb : Trb) : Option TrbType := TrbType.fromRaw ((trb.control >>> 10) &&& 0x3f).toUInt8

def isLink (trb : Trb) : Bool := trb.trbType == some .link

def cycle (trb : Trb) : Bool := trb.control &&& 1 != 0

/-- The bit of a link that makes a controller invert its cycle bit. -/
def toggle (trb : Trb) : Bool := trb.control &&& ((1 : UInt32) <<< 1) != 0

def withCycle (cycle : Bool) (trb : Trb) : Trb :=
  { trb with control := (trb.control &&& ~~~1) ||| cycle.toUInt32 }

variable {trb : Trb} {b : Bool}

theorem getLsbD_withCycle (i : Nat) :
    (trb.withCycle b).control.toBitVec.getLsbD i =
      if i = 0 then b else trb.control.toBitVec.getLsbD i := by
  have hone : (~~~(1 : UInt32)).toBitVec = ~~~1#32 := rfl
  rw [withCycle, UInt32.toBitVec_or, UInt32.toBitVec_and, hone, BitVec.getLsbD_or,
    BitVec.getLsbD_and, BitVec.getLsbD_not]
  by_cases hi : i < 32
  · cases i <;> simp [hi]
  · have hne : i ≠ 0 := by omega
    have hout := BitVec.getLsbD_of_ge trb.control.toBitVec i (Nat.le_of_not_lt hi)
    simp [hne, hout]

theorem eq_of_getLsbD {x y : UInt32} (h : ∀ i, x.toBitVec.getLsbD i = y.toBitVec.getLsbD i) :
    x = y :=
  UInt32.eq_of_toBitVec_eq (BitVec.eq_of_getLsbD_eq fun i _ => h i)

theorem cycle_eq_getLsbD : trb.cycle = trb.control.toBitVec.getLsbD 0 := by
  have hbits : trb.control &&& 1 = (trb.control.toBitVec.getLsbD 0).toUInt32 := by
    apply eq_of_getLsbD
    intro i
    cases i <;> simp
  rw [cycle, hbits]
  cases trb.control.toBitVec.getLsbD 0 <;> rfl

theorem cycle_withCycle : (trb.withCycle b).cycle = b := by
  rw [cycle_eq_getLsbD, getLsbD_withCycle, if_pos rfl]

theorem trbType_withCycle : (trb.withCycle b).trbType = trb.trbType := by
  have hbits : (trb.withCycle b).control >>> 10 = trb.control >>> 10 := by
    apply eq_of_getLsbD
    intro i
    simp [getLsbD_withCycle]
  rw [trbType, hbits, trbType]

theorem withCycle_withCycle (c : Bool) : (trb.withCycle b).withCycle c = trb.withCycle c := by
  have hbits : ((trb.withCycle b).withCycle c).control = (trb.withCycle c).control := by
    apply eq_of_getLsbD
    intro i
    simp only [getLsbD_withCycle]
    split <;> rfl
  exact congrArg (mk trb.parameterLow trb.parameterHigh trb.status) hbits

end Trb

end NexOs.Usb
