import NexOs.Lib.Bytes

/-! The command line of the shell: words, redirects and pipelines, with the words in one fixed
storage. -/
namespace NexOs.Userspace
open List hiding Vector
open Result

def maxLineBytes : Nat := 512
def maxArguments : Nat := 16
def maxPipelineCommands : Nat := 8
def maxEnvironmentEntries : Nat := 16
def maxEnvironmentName : Nat := 32
def maxEnvironmentValue : Nat := 128

structure Span where
  start : Nat
  length : Nat
  deriving DecidableEq

structure OutputRedirect where
  path : Span
  append : Bool
  deriving DecidableEq

structure Command where
  arguments : Vector Span maxArguments
  argumentCount : Fin (maxArguments + 1)
  input : Option Span
  output : Option OutputRedirect
  deriving DecidableEq

inductive ParseError where
  | emptyCommand
  | tooManyCommands
  | tooManyArguments
  | missingRedirectTarget
  | duplicateInputRedirect
  | duplicateOutputRedirect
  | unterminatedSingleQuote
  | unterminatedDoubleQuote
  | trailingEscape
  | expandedLineTooLong
  | invalidEnvironmentName
  deriving DecidableEq

namespace Command

def empty : Command where
  arguments := Vector.replicate maxArguments ⟨0, 0⟩
  argumentCount := 0
  input := none
  output := none

def argument (c : Command) (index : Nat) : Option Span :=
  if index < c.argumentCount then c.arguments[index]? else none

def pushArgument (c : Command) (argument : Span) : Result ParseError Command :=
  if h : c.argumentCount.val < maxArguments then
    .ok { c with
      arguments := c.arguments.set c.argumentCount argument h
      argumentCount := ⟨c.argumentCount + 1, Nat.succ_lt_succ h⟩ }
  else
    Result.fail .tooManyArguments

end Command

/-- The words of a line stand one after the other in `storage`. -/
structure ParsedLine where
  storage : Vector UInt8 maxLineBytes
  storageLength : Fin (maxLineBytes + 1)
  commands : Vector Command maxPipelineCommands
  commandCount : Nat
  deriving DecidableEq

namespace ParsedLine

def empty : ParsedLine where
  storage := Vector.replicate maxLineBytes 0
  storageLength := 0
  commands := Vector.replicate maxPipelineCommands Command.empty
  commandCount := 1

def command (p : ParsedLine) (index : Nat) : Option Command :=
  if index < p.commandCount then p.commands[index]? else none

def bytes (p : ParsedLine) (span : Span) : List UInt8 :=
  if span.start + span.length ≤ maxLineBytes then
    Bytes.slice p.storage.toList span.start span.length
  else []

def pushByte (p : ParsedLine) (byte : UInt8) : Result ParseError ParsedLine :=
  if h : p.storageLength.val < maxLineBytes then
    .ok { p with
      storage := p.storage.set p.storageLength byte h
      storageLength := ⟨p.storageLength + 1, Nat.succ_lt_succ h⟩ }
  else
    Result.fail .expandedLineTooLong

def pushBytes (p : ParsedLine) (bytes : List UInt8) : Result ParseError ParsedLine :=
  bytes.foldlM pushByte p

def setCommand (p : ParsedLine) (index : Fin maxPipelineCommands) (command : Command) :
    ParsedLine :=
  { p with commands := p.commands.set index command }

end ParsedLine

/-! ## The environment -/

structure EnvironmentEntry where
  occupied : Bool
  name : Vector UInt8 maxEnvironmentName
  nameLength : Fin (maxEnvironmentName + 1)
  value : Vector UInt8 maxEnvironmentValue
  valueLength : Fin (maxEnvironmentValue + 1)

structure Environment where
  entries : Vector EnvironmentEntry maxEnvironmentEntries

def EnvironmentEntry.empty : EnvironmentEntry where
  occupied := false
  name := Vector.replicate maxEnvironmentName 0
  nameLength := 0
  value := Vector.replicate maxEnvironmentValue 0
  valueLength := 0

namespace Environment

def new : Environment := ⟨Vector.replicate maxEnvironmentEntries EnvironmentEntry.empty⟩

def get (environment : Environment) (name : List UInt8) : Option (List UInt8) := do
  let entry ← environment.entries.toList.find? fun entry =>
    entry.occupied && entry.name.toList.take entry.nameLength = name
  some (entry.value.toList.take entry.valueLength)

end Environment

/-! ## Words -/

def isAsciiWhitespace (byte : UInt8) : Bool :=
  byte == 9 || byte == 10 || byte == 12 || byte == 13 || byte == 32

def isOperator (byte : UInt8) : Bool := byte == 124 || byte == 60 || byte == 62

def isAsciiAlphanumeric (byte : UInt8) : Bool :=
  (48 ≤ byte && byte ≤ 57) || (65 ≤ byte && byte ≤ 90) || (97 ≤ byte && byte ≤ 122)

def isEnvironmentNameByte (byte : UInt8) : Bool := isAsciiAlphanumeric byte || byte == 95

def skipWhitespace (line : List UInt8) : List UInt8 := line.dropWhile isAsciiWhitespace

theorem length_skipWhitespace_le (line : List UInt8) :
    (skipWhitespace line).length ≤ line.length := (dropWhile_suffix _).length_le

/-- The loop of `parse_word`, with the rest of the line in place of the index. -/
structure WordCursor where
  rest : List UInt8
  parsed : ParsedLine
  singleQuote : Bool
  doubleQuote : Bool
  consumed : Bool

variable {environment : Environment} {byte : UInt8} {tail : List UInt8} {e : Stop ParseError}

namespace WordCursor

def continues (c : WordCursor) (byte : UInt8) : Bool :=
  c.singleQuote || c.doubleQuote || !(isAsciiWhitespace byte || isOperator byte)

/-- `$` and a name: the value of the variable, or a dollar sign if no name follows. -/
def expand (environment : Environment) (name : List UInt8) (p : ParsedLine) :
    Result ParseError ParsedLine :=
  if name = [] then
    p.pushByte 36
  else
    match environment.get name with
    | some value => p.pushBytes value
    | none => .ok p

def step (environment : Environment) (byte : UInt8) (tail : List UInt8) (c : WordCursor) :
    Result ParseError WordCursor :=
  if byte = 39 ∧ !c.doubleQuote then
    .ok { c with rest := tail, singleQuote := !c.singleQuote, consumed := true }
  else if byte = 34 ∧ !c.singleQuote then
    .ok { c with rest := tail, doubleQuote := !c.doubleQuote, consumed := true }
  else if byte = 92 ∧ !c.singleQuote then
    match tail with
    | [] => Result.fail .trailingEscape
    | escaped :: tail => do
      let parsed ← c.parsed.pushByte escaped
      .ok { c with rest := tail, parsed := parsed, consumed := true }
  else if byte = 36 ∧ !c.singleQuote then do
    let parsed ← expand environment (tail.takeWhile isEnvironmentNameByte) c.parsed
    .ok { c with
      rest := tail.dropWhile isEnvironmentNameByte
      parsed := parsed
      consumed := true }
  else do
    let parsed ← c.parsed.pushByte byte
    .ok { c with rest := tail, parsed := parsed, consumed := true }

theorem step_consumes {c c' : WordCursor} (h : c.step environment byte tail = .ok c') :
    c'.rest.length ≤ tail.length ∧ c'.consumed = true := by
  unfold step at h
  split at h
  · cases h
    exact ⟨Nat.le_refl _, rfl⟩
  split at h
  · cases h
    exact ⟨Nat.le_refl _, rfl⟩
  split at h
  · cases tail with
    | nil => cases h
    | cons escaped tail =>
      obtain ⟨parsed, _, h⟩ := bind_eq_ok h
      cases h
      exact ⟨Nat.le_succ _, rfl⟩
  split at h
  · obtain ⟨parsed, _, h⟩ := bind_eq_ok h
    cases h
    exact ⟨(dropWhile_suffix _).length_le, rfl⟩
  · obtain ⟨parsed, _, h⟩ := bind_eq_ok h
    cases h
    exact ⟨Nat.le_refl _, rfl⟩

def run (environment : Environment) (c : WordCursor) : Result ParseError WordCursor :=
  match _hrest : c.rest with
  | [] => .ok c
  | byte :: tail =>
    if c.continues byte then
      match _hstep : c.step environment byte tail with
      | .ok c' => run environment c'
      | .error e => .error e
    else .ok c
termination_by c.rest.length
decreasing_by
  rw [_hrest, length_cons]
  exact Nat.lt_succ_of_le (step_consumes _hstep).1

variable {c c' : WordCursor}

theorem run_nil (h : c.rest = []) : c.run environment = .ok c := by
  rw [run]
  split
  · rfl
  · simp_all

section
variable (h : c.rest = byte :: tail)
include h

theorem run_of_ends (hends : c.continues byte = false) : c.run environment = .ok c := by
  rw [run]
  split <;> simp_all

theorem run_of_ok (hcontinues : c.continues byte = true)
    (hstep : c.step environment byte tail = .ok c') : c.run environment = c'.run environment := by
  rw [run]
  split
  · simp_all
  · rename_i hrest
    obtain ⟨rfl, rfl⟩ := cons.inj (h.symm.trans hrest)
    rw [if_pos hcontinues]
    split <;> simp_all

theorem run_of_error (hcontinues : c.continues byte = true)
    (hstep : c.step environment byte tail = .error e) : c.run environment = .error e := by
  rw [run]
  split
  · simp_all
  · rename_i hrest
    obtain ⟨rfl, rfl⟩ := cons.inj (h.symm.trans hrest)
    rw [if_pos hcontinues]
    split <;> simp_all

end

theorem run_consumes (h : c.run environment = .ok c') :
    c' = c ∨ c'.rest.length < c.rest.length := by
  fun_induction run environment c with
  | case1 c hrest =>
    cases h
    exact .inl rfl
  | case2 c byte tail hrest hcontinues d hstep ih =>
    have hle := (step_consumes hstep).1
    rw [hrest]
    rcases ih h with rfl | hlt
    · exact .inr (Nat.lt_succ_of_le hle)
    · exact .inr (Nat.lt_succ_of_lt (Nat.lt_of_lt_of_le hlt hle))
  | case3 c byte tail hrest hcontinues e hstep => cases h
  | case4 c byte tail hrest hends =>
    cases h
    exact .inl rfl

end WordCursor

def WordCursor.finish (start : Nat) (c : WordCursor) :
    Result ParseError (Span × List UInt8 × ParsedLine) := do
  Result.ensure (!c.singleQuote) .unterminatedSingleQuote
  Result.ensure (!c.doubleQuote) .unterminatedDoubleQuote
  Result.ensure c.consumed .emptyCommand
  .ok (⟨start, c.parsed.storageLength - start⟩, c.rest, c.parsed)

def parseWord (environment : Environment) (line : List UInt8) (parsed : ParsedLine) :
    Result ParseError (Span × List UInt8 × ParsedLine) := do
  let c ← WordCursor.run environment ⟨line, parsed, false, false, false⟩
  c.finish parsed.storageLength

variable {line rest : List UInt8} {parsed parsed' : ParsedLine} {span : Span}

theorem parseWord_consumes (h : parseWord environment line parsed = .ok (span, rest, parsed')) :
    rest.length < line.length := by
  obtain ⟨c, hrun, h⟩ := bind_eq_ok h
  obtain ⟨_, _, h⟩ := bind_eq_ok h
  obtain ⟨_, _, h⟩ := bind_eq_ok h
  obtain ⟨_, hconsumed, h⟩ := bind_eq_ok h
  cases h
  rcases WordCursor.run_consumes hrun with rfl | hlt
  · cases hconsumed
  · exact hlt

/-- The word after a redirect operator. -/
def parseTarget (environment : Environment) (line : List UInt8) (parsed : ParsedLine) :
    Result ParseError (Span × List UInt8 × ParsedLine) := do
  let line := skipWhitespace line
  Result.ensure (!line.head?.elim true isOperator) .missingRedirectTarget
  parseWord environment line parsed

theorem parseTarget_consumes (h : parseTarget environment line parsed = .ok (span, rest, parsed')) :
    rest.length < line.length := by
  obtain ⟨_, _, h⟩ := bind_eq_ok h
  exact Nat.lt_of_lt_of_le (parseWord_consumes h) (length_skipWhitespace_le line)

/-! ## Lines -/

/-- The loop of `parse`, with the rest of the line in place of the index. -/
structure LineCursor where
  rest : List UInt8
  parsed : ParsedLine
  commandIndex : Fin maxPipelineCommands

namespace LineCursor

def current (c : LineCursor) : Command := c.parsed.commands[c.commandIndex.val]

def advance (c : LineCursor) (rest : List UInt8) (parsed : ParsedLine) : LineCursor :=
  { c with rest := rest, parsed := parsed }

def putCommand (c : LineCursor) (command : Command) : LineCursor :=
  { c with parsed := c.parsed.setCommand c.commandIndex command }

def pipe (tail : List UInt8) (c : LineCursor) : Result ParseError LineCursor := do
  Result.ensure (c.current.argumentCount ≠ 0) .emptyCommand
  if h : c.commandIndex + 1 < maxPipelineCommands then
    .ok { rest := tail
          parsed := { c.parsed with commandCount := c.parsed.commandCount + 1 }
          commandIndex := ⟨c.commandIndex + 1, h⟩ }
  else
    Result.fail .tooManyCommands

def redirectInput (environment : Environment) (tail : List UInt8) (c : LineCursor) :
    Result ParseError LineCursor := do
  Result.ensure c.current.input.isNone .duplicateInputRedirect
  let (target, rest, parsed) ← parseTarget environment tail c.parsed
  let c := c.advance rest parsed
  .ok (c.putCommand { c.current with input := some target })

def redirectOutput (environment : Environment) (tail : List UInt8) (append : Bool)
    (c : LineCursor) : Result ParseError LineCursor := do
  Result.ensure c.current.output.isNone .duplicateOutputRedirect
  let (path, rest, parsed) ← parseTarget environment tail c.parsed
  let c := c.advance rest parsed
  .ok (c.putCommand { c.current with output := some ⟨path, append⟩ })

def argument (environment : Environment) (line : List UInt8) (c : LineCursor) :
    Result ParseError LineCursor := do
  let (argument, rest, parsed) ← parseWord environment line c.parsed
  let c := c.advance rest parsed
  let command ← c.current.pushArgument argument
  .ok (c.putCommand command)

def step (environment : Environment) (byte : UInt8) (tail : List UInt8) (c : LineCursor) :
    Result ParseError LineCursor :=
  if byte = 124 then
    c.pipe tail
  else if byte = 60 then
    c.redirectInput environment tail
  else if byte = 62 then
    if tail.head? = some 62 then
      c.redirectOutput environment (tail.drop 1) true
    else
      c.redirectOutput environment tail false
  else
    c.argument environment (byte :: tail)

def finish (c : LineCursor) : Result ParseError ParsedLine := do
  Result.ensure (c.current.argumentCount ≠ 0) .emptyCommand
  .ok c.parsed

variable {c c' : LineCursor}

theorem pipe_consumes (h : c.pipe tail = .ok c') : c'.rest.length ≤ tail.length := by
  obtain ⟨_, _, h⟩ := bind_eq_ok h
  split at h
  · cases h
    exact Nat.le_refl _
  · cases h

theorem redirectInput_consumes (h : c.redirectInput environment tail = .ok c') :
    c'.rest.length < tail.length := by
  obtain ⟨_, _, h⟩ := bind_eq_ok h
  obtain ⟨⟨target, rest, parsed⟩, htarget, h⟩ := bind_eq_ok h
  cases h
  exact parseTarget_consumes htarget

theorem redirectOutput_consumes {append : Bool}
    (h : c.redirectOutput environment tail append = .ok c') : c'.rest.length < tail.length := by
  obtain ⟨_, _, h⟩ := bind_eq_ok h
  obtain ⟨⟨path, rest, parsed⟩, hpath, h⟩ := bind_eq_ok h
  cases h
  exact parseTarget_consumes hpath

theorem argument_consumes (h : c.argument environment tail = .ok c') :
    c'.rest.length < tail.length := by
  obtain ⟨⟨argument, rest, parsed⟩, hargument, h⟩ := bind_eq_ok h
  obtain ⟨command, _, h⟩ := bind_eq_ok h
  cases h
  exact parseWord_consumes hargument

theorem step_consumes (h : c.step environment byte tail = .ok c') :
    c'.rest.length ≤ tail.length := by
  unfold step at h
  split at h
  · exact pipe_consumes h
  split at h
  · exact Nat.le_of_lt (redirectInput_consumes h)
  split at h
  · split at h
    · have hlt := redirectOutput_consumes h
      exact Nat.le_trans hlt.le (drop_suffix 1 tail).length_le
    · exact Nat.le_of_lt (redirectOutput_consumes h)
  · exact Nat.le_of_lt_succ (argument_consumes h)

def run (environment : Environment) (c : LineCursor) : Result ParseError LineCursor :=
  match _hrest : skipWhitespace c.rest with
  | [] => .ok { c with rest := [] }
  | byte :: tail =>
    match _hstep : c.step environment byte tail with
    | .ok c' => run environment c'
    | .error e => .error e
termination_by c.rest.length
decreasing_by
  have hskip := length_skipWhitespace_le c.rest
  rw [_hrest, length_cons] at hskip
  exact Nat.lt_of_le_of_lt (step_consumes _hstep) hskip

theorem run_nil (h : skipWhitespace c.rest = []) :
    c.run environment = .ok { c with rest := [] } := by
  rw [run]
  split <;> simp_all

theorem run_of_ok (h : skipWhitespace c.rest = byte :: tail)
    (hstep : c.step environment byte tail = .ok c') :
    c.run environment = c'.run environment := by
  rw [run]
  split
  · simp_all
  · rename_i hrest
    split <;> simp_all

theorem run_of_error (h : skipWhitespace c.rest = byte :: tail)
    (hstep : c.step environment byte tail = .error e) :
    c.run environment = .error e := by
  rw [run]
  split
  · simp_all
  · rename_i hrest
    split <;> simp_all

end LineCursor

def parse (line : List UInt8) (environment : Environment) : Result ParseError ParsedLine := do
  let c ← LineCursor.run environment ⟨line, ParsedLine.empty, ⟨0, by decide⟩⟩
  c.finish

end NexOs.Userspace
