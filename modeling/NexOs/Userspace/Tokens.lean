import NexOs.Userspace.Shell

/-! What a command line says before any variable has a value: its words as pieces of text and
names, its tokens, and the stages of its pipeline. -/
namespace NexOs.Userspace
open List

/-- A part of a word: a byte that stands for itself, or a variable. -/
inductive Piece where
  | literal (byte : UInt8)
  | expansion (name : List UInt8)
  deriving DecidableEq

abbrev Word := List Piece

def Word.Plain (w : Word) : Prop := ∀ name, Piece.expansion name ∉ w

inductive Quote where
  | unquoted
  | single
  | double
  deriving DecidableEq

namespace Quote

def ends (q : Quote) (byte : UInt8) : Bool :=
  q == unquoted && (isAsciiWhitespace byte || isOperator byte)

def close : Quote → Except ParseError (Word × List UInt8)
  | unquoted => .ok ([], [])
  | single => .error .unterminatedSingleQuote
  | double => .error .unterminatedDoubleQuote

end Quote

/-- One round at `byte :: tail`: the pieces it adds, the quote it leaves and what it leaves of the
line. -/
def lexStep (q : Quote) (byte : UInt8) (tail : List UInt8) :
    Except ParseError (Word × Quote × List UInt8) :=
  if byte = 39 ∧ q ≠ .double then
    .ok ([], if q = .single then .unquoted else .single, tail)
  else if byte = 34 ∧ q ≠ .single then
    .ok ([], if q = .double then .unquoted else .double, tail)
  else if byte = 92 ∧ q ≠ .single then
    match tail with
    | [] => .error .trailingEscape
    | escaped :: tail => .ok ([.literal escaped], q, tail)
  else if byte = 36 ∧ q ≠ .single then
    if tail.takeWhile isEnvironmentNameByte = [] then
      .ok ([.literal 36], q, tail.dropWhile isEnvironmentNameByte)
    else
      .ok ([.expansion (tail.takeWhile isEnvironmentNameByte)], q,
        tail.dropWhile isEnvironmentNameByte)
  else
    .ok ([.literal byte], q, tail)

theorem lexStep_consumes {byte : UInt8} {tail rest : List UInt8}
    (h : lexStep q byte tail = .ok (w, q', rest)) : rest.length ≤ tail.length := by
  have hdrop : (tail.dropWhile isEnvironmentNameByte).length ≤ tail.length :=
    (dropWhile_suffix _).length_le
  unfold lexStep at h
  split at h
  · cases h
    exact Nat.le_refl _
  split at h
  · cases h
    exact Nat.le_refl _
  split at h
  · split at h
    · cases h
    · cases h
      exact Nat.le_succ _
  split at h
  · split at h
    · cases h
      exact hdrop
    · cases h
      exact hdrop
  · cases h
    exact Nat.le_refl _

def lexWord (q : Quote) (line : List UInt8) : Except ParseError (Word × List UInt8) :=
  match line with
  | [] => q.close
  | byte :: tail =>
    if q.ends byte then
      .ok ([], byte :: tail)
    else
      match _hstep : lexStep q byte tail with
      | .error e => .error e
      | .ok (w, q', rest) => (lexWord q' rest).map fun (v, rest) => (w ++ v, rest)
termination_by line.length
decreasing_by exact Nat.lt_succ_of_le (lexStep_consumes _hstep)

variable {byte : UInt8} {w : Word} {e : ParseError}

section
variable {q q' : Quote} {tail line rest : List UInt8}

theorem lexWord_of_ok (h : q.ends byte = false) (hstep : lexStep q byte tail = .ok (w, q', rest)) :
    lexWord q (byte :: tail) = (lexWord q' rest).map fun (v, rest) => (w ++ v, rest) := by
  rw [lexWord, if_neg (Bool.eq_false_iff.mp h)]
  split <;> simp_all

theorem lexWord_of_error (h : q.ends byte = false) (hstep : lexStep q byte tail = .error e) :
    lexWord q (byte :: tail) = .error e := by
  rw [lexWord, if_neg (Bool.eq_false_iff.mp h)]
  split <;> simp_all

theorem of_map_append {x : Except ParseError (Word × List UInt8)} {v : Word}
    (h : (x.map fun (u, rest) => (v ++ u, rest)) = .ok (w, rest)) :
    ∃ u, x = .ok (u, rest) ∧ w = v ++ u := by
  cases x with
  | error e => cases h
  | ok r =>
    cases h
    exact ⟨r.1, rfl, rfl⟩

theorem lexWord_consumes (h : lexWord q line = .ok (w, rest)) : rest.length ≤ line.length := by
  fun_induction lexWord q line generalizing w rest with
  | case1 q =>
    cases q <;> cases h
    exact Nat.le_refl _
  | case2 q byte tail hends =>
    cases h
    exact Nat.le_refl _
  | case3 q byte tail hends e hstep => cases h
  | case4 q byte tail hends v q' rest' hstep ih =>
    obtain ⟨u, hword, _⟩ := of_map_append h
    exact Nat.le_succ_of_le (Nat.le_trans (ih hword) (lexStep_consumes hstep))

theorem lexWord_consumes_cons (hends : q.ends byte = false)
    (h : lexWord q (byte :: tail) = .ok (w, rest)) : rest.length ≤ tail.length := by
  cases hstep : lexStep q byte tail with
  | error e =>
    rw [lexWord_of_error hends hstep] at h
    cases h
  | ok r =>
    rw [lexWord_of_ok hends hstep] at h
    obtain ⟨u, hword, _⟩ := of_map_append h
    exact Nat.le_trans (lexWord_consumes hword) (lexStep_consumes hstep)

end

/-! ## Tokens -/

inductive Token where
  | pipe
  | input
  | output (append : Bool)
  | word (w : Word)
  deriving DecidableEq

/-- The tokens of a line up to the first error. -/
structure Tokens where
  tokens : List Token
  error : Option ParseError

def Tokens.cons (token : Token) (ts : Tokens) : Tokens := { ts with tokens := token :: ts.tokens }

theorem ends_unquoted (hspace : isAsciiWhitespace byte = false)
    (hpipe : byte ≠ 124) (hinput : byte ≠ 60) (houtput : byte ≠ 62) :
    Quote.unquoted.ends byte = false := by
  simp [Quote.ends, isOperator, hspace, hpipe, hinput, houtput]

theorem not_isAsciiWhitespace_of_skipWhitespace {line tail : List UInt8}
    (h : skipWhitespace line = byte :: tail) : isAsciiWhitespace byte = false := by
  have hhead := head?_dropWhile_not isAsciiWhitespace line
  rw [← skipWhitespace, h] at hhead
  simpa using hhead

def tokenize (line : List UInt8) : Tokens :=
  match _hskip : skipWhitespace line with
  | [] => ⟨[], none⟩
  | byte :: tail =>
    if byte = 124 then (tokenize tail).cons .pipe
    else if byte = 60 then (tokenize tail).cons .input
    else if byte = 62 then
      if tail.head? = some 62 then (tokenize (tail.drop 1)).cons (.output true)
      else (tokenize tail).cons (.output false)
    else
      match _hword : lexWord .unquoted (byte :: tail) with
      | .ok (w, rest) => (tokenize rest).cons (.word w)
      | .error e => ⟨[], some e⟩
termination_by line.length
decreasing_by
  all_goals
    have hle := length_skipWhitespace_le line
    rw [_hskip, length_cons] at hle
  · exact hle
  · exact hle
  · exact Nat.lt_of_le_of_lt (drop_suffix 1 tail).length_le hle
  · exact hle
  · rename_i hpipe hinput houtput
    have hspace := not_isAsciiWhitespace_of_skipWhitespace _hskip
    have hends := ends_unquoted hspace hpipe hinput houtput
    exact Nat.lt_of_le_of_lt (lexWord_consumes_cons hends _hword) hle

section
variable {line tail rest : List UInt8}

theorem tokenize_nil (h : skipWhitespace line = []) : tokenize line = ⟨[], none⟩ := by
  rw [tokenize]
  split <;> simp_all

theorem tokenize_pipe (h : skipWhitespace line = 124 :: tail) :
    tokenize line = (tokenize tail).cons .pipe := by
  rw [tokenize]
  split <;> simp_all

theorem tokenize_input (h : skipWhitespace line = 60 :: tail) :
    tokenize line = (tokenize tail).cons .input := by
  rw [tokenize]
  split <;> simp_all

theorem tokenize_append (h : skipWhitespace line = 62 :: tail) (hnext : tail.head? = some 62) :
    tokenize line = (tokenize (tail.drop 1)).cons (.output true) := by
  rw [tokenize]
  split <;> simp_all

theorem tokenize_output (h : skipWhitespace line = 62 :: tail) (hnext : tail.head? ≠ some 62) :
    tokenize line = (tokenize tail).cons (.output false) := by
  rw [tokenize]
  split <;> simp_all

variable (h : skipWhitespace line = byte :: tail) (hoperator : isOperator byte = false)
include h hoperator

theorem tokenize_word : tokenize line = match lexWord .unquoted (byte :: tail) with
    | .ok (w, rest) => (tokenize rest).cons (.word w)
    | .error e => ⟨[], some e⟩ := by
  simp only [isOperator, Bool.or_eq_false_iff, beq_eq_false_iff_ne] at hoperator
  obtain ⟨⟨hpipe, hinput⟩, houtput⟩ := hoperator
  rw [tokenize]
  split
  · simp_all
  · rename_i hskip
    obtain ⟨rfl, rfl⟩ := cons.inj (h.symm.trans hskip)
    rw [if_neg hpipe, if_neg hinput, if_neg houtput]
    split <;> simp_all

end

/-! ## Stages -/

structure Stage where
  arguments : List Word
  input : Option Word
  output : Option (Word × Bool)
  deriving DecidableEq

def Stage.empty : Stage := ⟨[], none, none⟩

/-- A redirect whose word has not come yet. -/
inductive Redirect where
  | input
  | output (append : Bool)
  deriving DecidableEq

/-- The stages before the last, and the last one. -/
structure Pipeline where
  done : List Stage
  current : Stage
  pending : Option Redirect
  deriving DecidableEq

namespace Pipeline

def empty : Pipeline := ⟨[], Stage.empty, none⟩

def redirect (w : Word) (stage : Stage) : Redirect → Stage
  | .input => { stage with input := some w }
  | .output append => { stage with output := some (w, append) }

def next (token : Token) (p : Pipeline) : Except ParseError Pipeline :=
  match p.pending, token with
  | some r, .word w => .ok { p with current := redirect w p.current r, pending := none }
  | some _, _ => .error .missingRedirectTarget
  | none, .pipe =>
    if p.current.arguments = [] then .error .emptyCommand
    else if p.done.length + 1 = maxPipelineCommands then .error .tooManyCommands
    else .ok ⟨p.done ++ [p.current], Stage.empty, none⟩
  | none, .input =>
    if p.current.input.isSome then .error .duplicateInputRedirect
    else .ok { p with pending := some .input }
  | none, .output append =>
    if p.current.output.isSome then .error .duplicateOutputRedirect
    else .ok { p with pending := some (.output append) }
  | none, .word w =>
    if p.current.arguments.length = maxArguments then .error .tooManyArguments
    else .ok { p with current := { p.current with arguments := p.current.arguments ++ [w] } }

theorem next_of_pending {p : Pipeline} {token : Token} {r : Redirect} (h : p.pending = some r)
    (hword : ∀ w, token ≠ .word w) : p.next token = .error .missingRedirectTarget := by
  cases token with
  | pipe => simp [next, h]
  | input => simp [next, h]
  | output append => simp [next, h]
  | word w => exact absurd rfl (hword w)

def finish (p : Pipeline) (error : Option ParseError) : Except ParseError (List Stage) :=
  match error, p.pending with
  | some e, _ => .error e
  | none, some _ => .error .missingRedirectTarget
  | none, none =>
    if p.current.arguments = [] then .error .emptyCommand else .ok (p.done ++ [p.current])

def assemble (error : Option ParseError) : List Token → Pipeline → Except ParseError (List Stage)
  | [], p => p.finish error
  | token :: tokens, p =>
    match p.next token with
    | .error e => .error e
    | .ok p => assemble error tokens p

end Pipeline

def Tokens.assemble (ts : Tokens) (p : Pipeline) : Except ParseError (List Stage) :=
  Pipeline.assemble ts.error ts.tokens p

theorem Tokens.assemble_of_ok {ts : Tokens} {token : Token}
    (h : p.next token = .ok p') : (ts.cons token).assemble p = ts.assemble p' := by
  rw [assemble, cons, Pipeline.assemble, h, assemble]

theorem Tokens.assemble_of_error {ts : Tokens} {token : Token}
    (h : p.next token = .error e) : (ts.cons token).assemble p = .error e := by
  rw [assemble, cons, Pipeline.assemble, h]

def scan (line : List UInt8) : Except ParseError (List Stage) :=
  (tokenize line).assemble Pipeline.empty

/-- `'$A' \$A "$A"`: only the last word has a variable. -/
example : scan [39, 36, 65, 39, 32, 92, 36, 65, 32, 34, 36, 65, 34] =
    .ok [⟨[[.literal 36, .literal 65], [.literal 36, .literal 65], [.expansion [65]]], none, none⟩] := by
  decide +kernel

end NexOs.Userspace
