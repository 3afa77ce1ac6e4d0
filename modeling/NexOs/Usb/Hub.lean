import NexOs.Lib.Bytes
import NexOs.Lib.Iteration
import NexOs.Usb.Ring

/-! The ports of a hub. -/
namespace NexOs.Usb
open Bytes Iteration

structure HubDescriptor where
  ports : Nat
  characteristics : Nat
  powerOnDelayMs : Nat
  controllerCurrentMa : Nat
  deriving DecidableEq

def HubDescriptor.parse (bytes : List UInt8) : Result UsbError HubDescriptor := do
  Result.ensure (¬(bytes.length < 7 ∨ le bytes 0 1 < 7 ∨ ¬(le bytes 1 1 = 0x29 ∨ le bytes 1 1 = 0x2a)))
    .invalidDescriptor
  .ok { ports := le bytes 2 1, characteristics := le bytes 3 2,
        powerOnDelayMs := le bytes 5 1 * 2, controllerCurrentMa := le bytes 6 1 }

/-- Both fields are bytes. -/
structure HubPortIterator where
  next : Nat
  count : Nat

namespace HubPortIterator

def new (portCount : Nat) : HubPortIterator := ⟨1, portCount⟩

/-- `Iterator::next`. The counter saturates. -/
def advance (ports : HubPortIterator) : Option Nat × HubPortIterator :=
  if ports.next > ports.count then (none, ports)
  else (some ports.next, { ports with next := min (ports.next + 1) 255 })

theorem yields_from {first count : Nat} (hcount : count < 255) (n : Nat) (hn : first + n = count + 1) :
    Yields advance ⟨first, count⟩ (List.range' first n) ⟨count + 1, count⟩ := by
  induction n generalizing first with
  | zero =>
    have hend : first = count + 1 := hn
    rw [hend]
    exact .done (if_pos (Nat.lt_succ_self count))
  | succ n ih =>
    have hmin : min (first + 1) 255 = first + 1 := by omega
    refine .step (t := ⟨first + 1, count⟩) ?_ (ih (by omega))
    rw [advance, if_neg (by dsimp only; omega), hmin]

theorem not_yields_of_top {ports : List Nat} (hs : s.next ≤ 255)
    (htop : s.count = 255) : ¬Yields advance s ports t := by
  intro h
  induction h with
  | done hnext =>
    rw [advance, if_neg (by omega)] at hnext
    cases hnext
  | step hnext _ ih =>
    rw [advance, if_neg (by omega)] at hnext
    cases hnext
    exact ih (Nat.min_le_right _ _) htop

/-- The iteration over the ports of a hub ends, and yields each of them once, exactly for hubs
with fewer than 255 ports. -/
theorem ports_iterated_iff {bytes : List UInt8} {hub : HubDescriptor}
    (h : HubDescriptor.parse bytes = .ok hub) :
    (∃ t, Yields advance (new hub.ports) (List.range' 1 hub.ports) t) ↔ hub.ports ≠ 255 := by
  have hbyte : hub.ports < 256 := by
    obtain ⟨-, -, h⟩ := Result.bind_eq_ok h
    cases h
    exact le_lt bytes 2 1
  constructor
  · rintro ⟨t, hyields⟩ htop
    exact not_yields_of_top (Nat.le_of_ble_eq_true rfl) htop hyields
  · intro hne
    exact ⟨_, yields_from (by omega) _ (Nat.add_comm _ _)⟩

theorem ports_iterated_iff_three : HubDescriptor.parse [9, 0x29, 3, 1, 0, 25, 10] = .ok ⟨3, 1, 50, 10⟩ ∧
    ((∃ t, Yields advance (new 3) (List.range' 1 3) t) ↔ 3 ≠ 255) :=
  ⟨rfl, @ports_iterated_iff [9, 0x29, 3, 1, 0, 25, 10] ⟨3, 1, 50, 10⟩ rfl⟩

/-- A hub with 255 ports is accepted, and the iteration over them never ends. -/
theorem ports_never_end :
    HubDescriptor.parse [7, 0x29, 255, 0, 0, 0, 0] = .ok ⟨255, 0, 0, 0⟩ ∧
      ¬∃ ports t, Yields advance (new 255) ports t :=
  ⟨rfl, fun ⟨_, _, h⟩ => not_yields_of_top (Nat.le_of_ble_eq_true rfl) rfl h⟩

end HubPortIterator

end NexOs.Usb
