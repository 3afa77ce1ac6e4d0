import NexOs.Lib.Bytes
import NexOs.Lib.Slots
import NexOs.Runtime.Abi

/-! The process table of the runtime crate, with the handles of every process. -/
namespace NexOs.Runtime
open Bytes

def currentDirectoryCapacity : Nat := 128

structure ProcessId where
  value : Nat
  deriving DecidableEq

inductive ProcessState where
  | ready
  | running
  | waiting (child : Option ProcessId)
  | exited (status : Int)
  deriving DecidableEq

structure Handle where
  object : Nat
  rights : Nat
  deriving DecidableEq

structure Process where
  id : ProcessId
  parent : Option ProcessId
  state : ProcessState
  addressSpace : Nat
  entryPoint : Nat
  userStack : Nat
  handles : List (Option Handle)
  currentDirectory : List UInt8
  currentDirectoryLength : Nat
  deriving DecidableEq

def ProcessState.isExited : ProcessState → Bool
  | .exited _ => true
  | _ => false

namespace Process

def directory (p : Process) : List UInt8 := p.currentDirectory.take p.currentDirectoryLength

def handle (p : Process) (descriptor : Nat) : Option Handle := Slots.value p.handles descriptor

end Process

/-- The number of slots is the length of the table; every process has `HANDLES` of its own. -/
structure ProcessTable (HANDLES : Nat) where
  processes : List (Option Process)
  nextId : Nat
  deriving DecidableEq

namespace ProcessTable
variable {HANDLES : Nat}

def new (PROCESSES HANDLES : Nat) : ProcessTable HANDLES where
  processes := List.replicate PROCESSES none
  nextId := 1

def slot (t : ProcessTable HANDLES) (i : Nat) : Option Process := Slots.value t.processes i

def position (t : ProcessTable HANDLES) (id : ProcessId) : Option Nat :=
  Slots.firstWhere (fun process => process.id = id) t.processes

def get (t : ProcessTable HANDLES) (id : ProcessId) : Option Process :=
  t.processes.reduceOption.find? fun process => process.id = id

def len (t : ProcessTable HANDLES) : Nat := t.processes.reduceOption.length

def setSlot (t : ProcessTable HANDLES) (i : Nat) (process : Option Process) :
    ProcessTable HANDLES :=
  { t with processes := t.processes.set i process }

/-- An assignment through the reference that `get_mut` returned. -/
def update (t : ProcessTable HANDLES) (i : Nat) (f : Process → Process) : ProcessTable HANDLES :=
  { t with processes := Slots.update i f t.processes }

/-- `self.get_mut(id).ok_or(Error::NotFound)?` -/
def getMut (id : ProcessId) : Exec (ProcessTable HANDLES) Abi.Error Nat := do
  let t ← Exec.get
  Exec.okOr (t.position id) .notFound

def rootDirectory : List UInt8 := 47 :: List.replicate (currentDirectoryCapacity - 1) 0

def created (HANDLES : Nat) (id : ProcessId) (parent : Option ProcessId)
    (addressSpace entryPoint userStack : Nat) : Process where
  id := id
  parent := parent
  state := .ready
  addressSpace := addressSpace
  entryPoint := entryPoint
  userStack := userStack
  handles := List.replicate HANDLES none
  currentDirectory := rootDirectory
  currentDirectoryLength := 1

def create (parent : Option ProcessId) (addressSpace entryPoint userStack : Nat) :
    Exec (ProcessTable HANDLES) Abi.Error ProcessId := do
  Exec.ensure (¬(entryPoint = 0 ∨ userStack = 0)) .invalidArgument
  let t ← Exec.get
  Exec.ensure (¬parent.any (fun id => (t.get id).isNone)) .notFound
  let slot ← Exec.okOr (Slots.firstFree t.processes) .processLimit
  let id : ProcessId := ⟨t.nextId⟩
  Exec.modify fun t => { t with nextId := (checkedAddU32 t.nextId 1).getD 1 }
  Exec.modify fun t => t.setSlot slot
    (some (created HANDLES id parent addressSpace entryPoint userStack))
  pure id

def setState (id : ProcessId) (state : ProcessState) :
    Exec (ProcessTable HANDLES) Abi.Error Unit := do
  let i ← getMut id
  Exec.modify fun t => t.update i fun p => { p with state := state }

/-- `fill(0)` and `copy_from_slice`; a path below the capacity fits into the length byte. -/
def setCurrentDirectory (id : ProcessId) (path : List UInt8) :
    Exec (ProcessTable HANDLES) Abi.Error Unit := do
  Exec.ensure (¬(path = [] ∨ path.head? ≠ some 47 ∨ currentDirectoryCapacity ≤ path.length ∨
    0 ∈ path)) .invalidArgument
  let i ← getMut id
  Exec.modify fun t => t.update i fun p => { p with
    currentDirectory := path ++ List.replicate (currentDirectoryCapacity - path.length) 0 }
  Exec.ensure (path.length < 256) .nameTooLong
  Exec.modify fun t => t.update i fun p => { p with currentDirectoryLength := path.length }

def allocateHandle (id : ProcessId) (handle : Handle) :
    Exec (ProcessTable HANDLES) Abi.Error Nat := do
  let i ← getMut id
  let t ← Exec.get
  let descriptor ← Exec.okOr ((t.slot i).bind fun p => Slots.firstFree p.handles) .handleLimit
  Exec.modify fun t => t.update i fun p =>
    { p with handles := p.handles.set descriptor (some handle) }
  pure descriptor

def closeHandle (id : ProcessId) (descriptor : Nat) :
    Exec (ProcessTable HANDLES) Abi.Error Handle := do
  let i ← getMut id
  let t ← Exec.get
  let handle ← Exec.okOr ((t.slot i).bind fun p => p.handle descriptor) .badHandle
  Exec.modify fun t => t.update i fun p => { p with handles := p.handles.set descriptor none }
  pure handle

def exit (id : ProcessId) (status : Int) : Exec (ProcessTable HANDLES) Abi.Error Unit := do
  let i ← getMut id
  Exec.modify fun t => t.update i fun p =>
    { p with state := .exited status, handles := p.handles.map fun _ => none }

def positionOfChild (t : ProcessTable HANDLES) (parent child : ProcessId) : Option Nat :=
  Slots.firstWhere (fun process => process.id = child && process.parent = some parent) t.processes

def reap (parent child : ProcessId) : Exec (ProcessTable HANDLES) Abi.Error Int := do
  let t ← Exec.get
  let slot ← Exec.okOr (t.positionOfChild parent child) .noChild
  let process ← Exec.okOr (t.slot slot) .noChild
  match process.state with
  | .exited status => do
    Exec.modify fun t => t.setSlot slot none
    pure status
  | _ => Exec.fail .wouldBlock

/-! ## Calls -/

inductive Call where
  | create (parent : Option ProcessId) (addressSpace entryPoint userStack : Nat)
  | setState (id : ProcessId) (state : ProcessState)
  | setCurrentDirectory (id : ProcessId) (path : List UInt8)
  | allocateHandle (id : ProcessId) (handle : Handle)
  | closeHandle (id : ProcessId) (descriptor : Nat)
  | exit (id : ProcessId) (status : Int)
  | reap (parent child : ProcessId)
  deriving DecidableEq

inductive Reply where
  | id (process : ProcessId)
  | unit
  | descriptor (descriptor : Nat)
  | handle (handle : Handle)
  | status (status : Int)
  deriving DecidableEq

def perform : Call → Exec (ProcessTable HANDLES) Abi.Error Reply
  | .create parent addressSpace entryPoint userStack =>
    return .id (← create parent addressSpace entryPoint userStack)
  | .setState id state => do setState id state; return .unit
  | .setCurrentDirectory id path => do setCurrentDirectory id path; return .unit
  | .allocateHandle id handle => return .descriptor (← allocateHandle id handle)
  | .closeHandle id descriptor => return .handle (← closeHandle id descriptor)
  | .exit id status => do exit id status; return .unit
  | .reap parent child => return .status (← reap parent child)

def after (calls : List Call) (t : ProcessTable HANDLES) : ProcessTable HANDLES :=
  calls.foldl (fun t call => (perform call t).2) t

end ProcessTable

end NexOs.Runtime
