/-! The errors that the runtime and the programs share. -/
namespace NexOs.Abi

inductive Error where
  | permissionDenied
  | notFound
  | interrupted
  | io
  | noChild
  | wouldBlock
  | outOfMemory
  | badHandle
  | alreadyExists
  | notDirectory
  | isDirectory
  | invalidArgument
  | handleLimit
  | fileTooLarge
  | noSpace
  | readOnly
  | nameTooLong
  | processLimit
  | mountLimit
  | notSupported
  | timedOut
  deriving DecidableEq

end NexOs.Abi
