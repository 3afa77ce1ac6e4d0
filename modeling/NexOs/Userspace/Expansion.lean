import NexOs.Userspace.Tokens
import Mathlib.Data.List.Forall2

/-! The parser reads the tokens of the line: it stores each word with its variables expanded, and
nothing else depends on the environment. -/
namespace NexOs.Userspace
open List hiding Vector
open Result

variable {environment : Environment}

def Piece.expand (environment : Environment) : Piece → List UInt8
  | .literal byte => [byte]
  | .expansion name => (environment.get name).getD []

def Word.expand (environment : Environment) (w : Word) : List UInt8 :=
  w.flatMap (Piece.expand environment)

theorem Word.expand_literal (byte : UInt8) :
    Word.expand environment [.literal byte] = [byte] := rfl

theorem Word.expand_append (v w : Word) :
    Word.expand environment (v ++ w) = v.expand environment ++ w.expand environment :=
  flatMap_append

theorem Word.Plain.expand_eq {w : Word} (h : w.Plain) (environment environment' : Environment) :
    w.expand environment = w.expand environment' := by
  apply flatMap_congr
  intro piece hpiece
  cases piece with
  | literal byte => rfl
  | expansion name => exact absurd hpiece (h name)

variable {byte : UInt8} {w : Word}

namespace ParsedLine
variable {p q r : ParsedLine} {bytes bytes' : List UInt8}

def text (p : ParsedLine) : List UInt8 := p.storage.toList.take p.storageLength

theorem length_text : p.text.length = p.storageLength := by
  have hle := Nat.le_of_lt_succ p.storageLength.isLt
  rw [text, length_take, Vector.length_toList, Nat.min_eq_left hle]

structure Grows (p : ParsedLine) (bytes : List UInt8) (q : ParsedLine) : Prop where
  text_eq : q.text = p.text ++ bytes
  commands_eq : q.commands = p.commands
  commandCount_eq : q.commandCount = p.commandCount

theorem Grows.refl : Grows p [] p := ⟨(append_nil _).symm, rfl, rfl⟩

theorem Grows.trans (h : Grows p bytes q) (h' : Grows q bytes' r) : Grows p (bytes ++ bytes') r where
  text_eq := by rw [h'.text_eq, h.text_eq, append_assoc]
  commands_eq := h'.commands_eq.trans h.commands_eq
  commandCount_eq := h'.commandCount_eq.trans h.commandCount_eq

theorem pushByte_run :
    (p.text.length + 1 ≤ maxLineBytes ∧ ∃ q, p.pushByte byte = .ok q ∧ Grows p [byte] q) ∨
      maxLineBytes < p.text.length + 1 ∧ p.pushByte byte = fail .expandedLineTooLong := by
  rw [length_text, pushByte]
  split
  · rename_i h
    exact .inl ⟨h, _, rfl, Bytes.take_set p.storage h, rfl, rfl⟩
  · rename_i h
    exact .inr ⟨by omega, rfl⟩

theorem pushBytes_run (p : ParsedLine) :
    (p.text.length + bytes.length ≤ maxLineBytes ∧
        ∃ q, p.pushBytes bytes = .ok q ∧ Grows p bytes q) ∨
      maxLineBytes < p.text.length + bytes.length ∧
        p.pushBytes bytes = fail .expandedLineTooLong := by
  induction bytes generalizing p with
  | nil =>
    have hle := Nat.le_of_lt_succ p.storageLength.isLt
    rw [← length_text] at hle
    exact .inl ⟨hle, p, rfl, Grows.refl⟩
  | cons byte bytes ih =>
    rw [pushBytes, foldlM_cons, length_cons]
    rcases pushByte_run with ⟨hle, q, hq, hgrows⟩ | ⟨hlt, hq⟩
    · rw [bind_of_ok hq]
      have hlength : q.text.length = p.text.length + 1 := by
        rw [hgrows.text_eq, length_append, length_singleton]
      rcases ih q with ⟨hle, r, hr, hgrows'⟩ | ⟨hlt, hr⟩
      · exact .inl ⟨by omega, r, hr, hgrows.trans hgrows'⟩
      · exact .inr ⟨by omega, hr⟩
    · rw [hq]
      exact .inr ⟨by omega, rfl⟩

theorem pushBytes_singleton : p.pushBytes [byte] = p.pushByte byte := by
  rw [pushBytes, foldlM_cons]
  cases p.pushByte byte <;> rfl

theorem pushBytes_append :
    p.pushBytes (bytes ++ bytes') = p.pushBytes bytes >>= fun q => q.pushBytes bytes' :=
  foldlM_append

end ParsedLine

/-! ## Words -/

namespace WordCursor
variable {q : Quote} {tail line rest : List UInt8} {parsed : ParsedLine} {consumed : Bool}

def inside (q : Quote) (rest : List UInt8) (parsed : ParsedLine) (consumed : Bool) : WordCursor :=
  ⟨rest, parsed, q == .single, q == .double, consumed⟩

theorem continues_inside : (inside q rest parsed consumed).continues byte = !q.ends byte := by
  cases q <;> simp [inside, continues, Quote.ends]

theorem expand_eq {name : List UInt8} (hname : name ≠ []) (p : ParsedLine) :
    expand environment name p = p.pushBytes (Word.expand environment [.expansion name]) := by
  rw [expand, if_neg hname, Word.expand, flatMap_singleton, Piece.expand]
  cases environment.get name <;> rfl

theorem step_inside :
    (inside q line parsed consumed).step environment byte tail =
      match lexStep q byte tail with
      | .error e => fail e
      | .ok (w, q', rest) =>
        parsed.pushBytes (w.expand environment) >>= fun p => .ok (inside q' rest p true) := by
  unfold step lexStep
  have hsingle : (!(inside q line parsed consumed).singleQuote) = true ↔ q ≠ .single := by
    simp [inside]
  have hdouble : (!(inside q line parsed consumed).doubleQuote) = true ↔ q ≠ .double := by
    simp [inside]
  simp only [hsingle, hdouble]
  split
  · rename_i h
    cases q <;> first | rfl | exact absurd rfl h.2
  split
  · rename_i h
    cases q <;> first | rfl | exact absurd rfl h.2
  split
  · cases tail with
    | nil => rfl
    | cons escaped tail =>
      dsimp only
      rw [Word.expand_literal, ParsedLine.pushBytes_singleton]
      rfl
  split
  · by_cases hname : tail.takeWhile isEnvironmentNameByte = []
    · rw [if_pos hname, hname]
      dsimp only
      rw [Word.expand_literal, ParsedLine.pushBytes_singleton]
      rfl
    · rw [if_neg hname, expand_eq hname]
      rfl
  · dsimp only
    rw [Word.expand_literal, ParsedLine.pushBytes_singleton]
    rfl

def Outcome (environment : Environment) (start : Nat) (parsed : ParsedLine)
    (lexed : Except ParseError (Word × List UInt8))
    (x : Result ParseError (Span × List UInt8 × ParsedLine)) : Prop :=
  match lexed with
  | .ok (w, rest) => x = (parsed.pushBytes (w.expand environment) >>= fun p =>
      .ok (⟨start, p.storageLength - start⟩, rest, p))
  | .error e => x = Result.fail e ∨ x = Result.fail .expandedLineTooLong

theorem run_finish (environment : Environment) (start : Nat) (q : Quote) (line : List UInt8)
    (parsed : ParsedLine) :
    Outcome environment start parsed (lexWord q line)
      ((inside q line parsed true).run environment >>= finish start) := by
  fun_induction lexWord q line generalizing parsed with
  | case1 q =>
    rw [run_nil rfl]
    cases q with
    | unquoted => exact rfl
    | single => exact .inl rfl
    | double => exact .inl rfl
  | case2 q byte tail hends =>
    have hquote : q = .unquoted := by
      simp only [Quote.ends, Bool.and_eq_true, beq_iff_eq] at hends
      exact hends.1
    have hstop : (inside q (byte :: tail) parsed true).continues byte = false := by
      rw [continues_inside, hends]
      rfl
    rw [run_of_ends rfl hstop, hquote]
    exact rfl
  | case3 q byte tail hends e hstep =>
    have hgo : (inside q (byte :: tail) parsed true).continues byte = true := by
      rw [continues_inside, Bool.eq_false_iff.mpr hends]
      rfl
    have herror : (inside q (byte :: tail) parsed true).step environment byte tail =
        fail e := by
      rw [step_inside, hstep]
    rw [run_of_error rfl hgo herror]
    exact .inl rfl
  | case4 q byte tail hends w q' rest hstep ih =>
    have hgo : (inside q (byte :: tail) parsed true).continues byte = true := by
      rw [continues_inside, Bool.eq_false_iff.mpr hends]
      rfl
    have hnext : (inside q (byte :: tail) parsed true).step environment byte tail =
        parsed.pushBytes (w.expand environment) >>= fun p => .ok (inside q' rest p true) := by
      rw [step_inside, hstep]
    rcases parsed.pushBytes_run with ⟨_, p, hp, _⟩ | ⟨_, hfull⟩
    · rw [bind_of_ok hp] at hnext
      rw [run_of_ok rfl hgo hnext]
      have hrest := ih p
      cases hlex : lexWord q' rest with
      | error e =>
        rw [hlex] at hrest
        exact hrest
      | ok r =>
        rw [hlex] at hrest
        refine Eq.trans hrest ?_
        rw [Word.expand_append, ParsedLine.pushBytes_append, bind_of_ok hp]
    · rw [hfull] at hnext
      rw [run_of_error rfl hgo hnext]
      cases lexWord q' rest with
      | error e => exact .inr rfl
      | ok r =>
        change _ = _ >>= _
        rw [Word.expand_append, ParsedLine.pushBytes_append, hfull]
        rfl

theorem run_consumed (hends : q.ends byte = false) :
    (inside q (byte :: tail) parsed false).run environment =
      (inside q (byte :: tail) parsed true).run environment := by
  have hgo (consumed : Bool) : (inside q (byte :: tail) parsed consumed).continues byte = true := by
    rw [continues_inside, hends]
    rfl
  cases hstep : (inside q (byte :: tail) parsed false).step environment byte tail with
  | error e =>
    rw [run_of_error rfl (hgo false) hstep]
    rw [run_of_error rfl (hgo true) hstep]
  | ok c =>
    rw [run_of_ok rfl (hgo false) hstep]
    rw [run_of_ok rfl (hgo true) hstep]

end WordCursor

theorem parseWord_run (environment : Environment)
    (hends : Quote.unquoted.ends byte = false) (tail : List UInt8) (parsed : ParsedLine) :
    WordCursor.Outcome environment parsed.storageLength parsed (lexWord .unquoted (byte :: tail))
      (parseWord environment (byte :: tail) parsed) := by
  have hrun := WordCursor.run_finish environment parsed.storageLength .unquoted (byte :: tail) parsed
  rwa [← WordCursor.run_consumed hends] at hrun

theorem stored_run {parsed : ParsedLine} {rest : List UInt8}
    (h : WordCursor.Outcome environment parsed.storageLength parsed (.ok (w, rest)) x) :
    x = fail .expandedLineTooLong ∨
      ∃ q, x = .ok (⟨parsed.text.length, (w.expand environment).length⟩, rest, q) ∧
        parsed.Grows (w.expand environment) q := by
  rw [WordCursor.Outcome] at h
  rcases parsed.pushBytes_run with ⟨_, q, hq, hgrows⟩ | ⟨_, hfull⟩
  · have hlength : q.storageLength - parsed.storageLength.val = (w.expand environment).length := by
      rw [← ParsedLine.length_text, ← ParsedLine.length_text, hgrows.text_eq, length_append,
        Nat.add_sub_cancel_left]
    rw [bind_of_ok hq, hlength, ← ParsedLine.length_text] at h
    exact .inr ⟨q, h, hgrows⟩
  · rw [hfull] at h
    exact .inl h

theorem tokenize_operator {line tail : List UInt8}
    (h : skipWhitespace line = byte :: tail) (hoperator : isOperator byte = true) :
    ∃ token ts, tokenize line = Tokens.cons token ts ∧ ∀ w, token ≠ .word w := by
  simp only [isOperator, Bool.or_eq_true, beq_iff_eq] at hoperator
  rcases hoperator with (rfl | rfl) | rfl
  · exact ⟨_, _, tokenize_pipe h, by simp⟩
  · exact ⟨_, _, tokenize_input h, by simp⟩
  · by_cases hnext : tail.head? = some 62
    · exact ⟨_, _, tokenize_append h hnext, by simp⟩
    · exact ⟨_, _, tokenize_output h hnext, by simp⟩

theorem parseTarget_run (tail : List UInt8) (parsed : ParsedLine) :
    (∃ w rest, tokenize tail = (tokenize rest).cons (.word w) ∧
        WordCursor.Outcome environment parsed.storageLength parsed (.ok (w, rest))
          (parseTarget environment tail parsed)) ∨
      ∃ e, (∀ p r, p.pending = some r → (tokenize tail).assemble p = .error e) ∧
        (parseTarget environment tail parsed = fail e ∨
          parseTarget environment tail parsed = fail .expandedLineTooLong) := by
  rw [parseTarget]
  cases hskip : skipWhitespace tail with
  | nil =>
    refine .inr ⟨.missingRedirectTarget, ?_, .inl rfl⟩
    intro p r hpending
    rw [tokenize_nil hskip, Tokens.assemble, Pipeline.assemble]
    simp [Pipeline.finish, hpending]
  | cons byte rest =>
    cases hoperator : isOperator byte with
    | true =>
      obtain ⟨token, ts, htokens, hword⟩ := tokenize_operator hskip hoperator
      refine .inr ⟨.missingRedirectTarget, ?_, .inl ?_⟩
      · intro p r hpending
        rw [htokens]
        apply Tokens.assemble_of_error
        exact Pipeline.next_of_pending hpending hword
      · rw [ensure_neg (by simp [hoperator])]
        rfl
    | false =>
      have hspace := not_isAsciiWhitespace_of_skipWhitespace hskip
      have hends : Quote.unquoted.ends byte = false := by
        simp [Quote.ends, hspace, hoperator]
      have hrun := parseWord_run environment hends rest parsed
      rw [ensure_pos (by simp [hoperator])]
      cases hlex : lexWord .unquoted (byte :: rest) with
      | ok r =>
        rw [hlex] at hrun
        exact .inl ⟨r.1, r.2, by rw [tokenize_word hskip hoperator, hlex], hrun⟩
      | error e =>
        rw [hlex] at hrun
        refine .inr ⟨e, ?_, hrun⟩
        intro p r _
        rw [tokenize_word hskip hoperator, hlex, Tokens.assemble, Pipeline.assemble,
          Pipeline.finish]

/-! ## Lines -/

/-- A span of the text that has the bytes of a word. -/
def Spells (environment : Environment) (text : List UInt8) (span : Span) (w : Word) : Prop :=
  ∃ before after, text = before ++ w.expand environment ++ after ∧
    span = ⟨before.length, (w.expand environment).length⟩

structure Shows (environment : Environment) (text : List UInt8) (command : Command)
    (stage : Stage) : Prop where
  arguments : List.Forall₂ (Spells environment text)
    (command.arguments.toList.take command.argumentCount) stage.arguments
  input : Option.Rel (Spells environment text) command.input stage.input
  output : Option.Rel (fun redirect target => Spells environment text redirect.path target.1 ∧
    redirect.append = target.2) command.output stage.output

/-- The commands of a cursor are the stages so far. -/
structure Reads (environment : Environment) (c : LineCursor) (p : Pipeline) : Prop where
  pending : p.pending = none
  count : c.parsed.commandCount = c.commandIndex + 1
  done : List.Forall₂ (Shows environment c.parsed.text)
    (c.parsed.commands.toList.take c.commandIndex) p.done
  current : Shows environment c.parsed.text c.current p.current
  later : ∀ (j : Nat) (command : Command), c.commandIndex.val < j →
    c.parsed.commands[j]? = some command → command = Command.empty

variable {text bytes : List UInt8} {span : Span} {command : Command} {stage : Stage}
  {c : LineCursor} {p : Pipeline}

theorem Spells.append (h : Spells environment text span w) :
    Spells environment (text ++ bytes) span w := by
  obtain ⟨before, after, htext, hspan⟩ := h
  exact ⟨before, after ++ bytes, by rw [htext, append_assoc], hspan⟩

theorem ParsedLine.Grows.spells {p q : ParsedLine} (h : p.Grows (w.expand environment) q) :
    Spells environment q.text ⟨p.text.length, (w.expand environment).length⟩ w :=
  ⟨p.text, [], by rw [h.text_eq, append_nil], rfl⟩

theorem Spells.bytes_eq {p : ParsedLine} (h : Spells environment p.text span w) :
    p.bytes span = w.expand environment := by
  obtain ⟨before, after, htext, rfl⟩ := h
  have hstorage : p.storage.toList = before ++ w.expand environment ++
      (after ++ p.storage.toList.drop p.storageLength) := by
    rw [← append_assoc, ← htext, ParsedLine.text, take_append_drop]
  have hlength := congrArg length hstorage
  rw [Vector.length_toList, length_append, length_append] at hlength
  have hle : before.length + (w.expand environment).length ≤ maxLineBytes := by omega
  rw [ParsedLine.bytes, if_pos hle, Bytes.slice, hstorage, append_assoc, drop_left, take_left]

theorem optionRel_imp {α β : Type} {R S : α → β → Prop} (h : ∀ a b, R a b → S a b) {x : Option α}
    {y : Option β} (hrel : Option.Rel R x y) : Option.Rel S x y := by
  cases hrel with
  | some hab => exact .some (h _ _ hab)
  | none => exact .none

theorem Shows.append (h : Shows environment text command stage) :
    Shows environment (text ++ bytes) command stage where
  arguments := h.arguments.imp fun _ _ hspells => hspells.append
  input := optionRel_imp (fun _ _ hspells => hspells.append) h.input
  output := optionRel_imp (fun _ _ hboth => ⟨hboth.1.append, hboth.2⟩) h.output

theorem shows_empty : Shows environment text Command.empty Stage.empty where
  arguments := .nil
  input := .none
  output := .none

theorem Shows.argumentCount_eq (h : Shows environment text command stage) :
    command.argumentCount.val = stage.arguments.length := by
  have hle := Nat.le_of_lt_succ command.argumentCount.isLt
  have hlength := h.arguments.length_eq
  rwa [length_take, Vector.length_toList, Nat.min_eq_left hle] at hlength

section
variable (h : Reads environment c p)
include h

theorem Reads.length_done : p.done.length = c.commandIndex := by
  have hlength := h.done.length_eq
  rw [length_take, Vector.length_toList, Nat.min_eq_left c.commandIndex.isLt.le] at hlength
  exact hlength.symm

theorem Reads.advance (hgrows : c.parsed.Grows bytes q) (rest : List UInt8) :
    Reads environment (c.advance rest q) p where
  pending := h.pending
  count := hgrows.commandCount_eq.trans h.count
  done := by
    rw [LineCursor.advance, hgrows.commands_eq, hgrows.text_eq]
    exact h.done.imp fun _ _ hshows => hshows.append
  current := by
    rw [LineCursor.current, LineCursor.advance, hgrows.commands_eq, hgrows.text_eq]
    exact h.current.append
  later := by
    rw [LineCursor.advance, hgrows.commands_eq]
    exact h.later

theorem Reads.putCommand (hshows : Shows environment c.parsed.text command stage) :
    Reads environment (c.putCommand command) { p with current := stage } where
  pending := h.pending
  count := h.count
  done := by
    rw [LineCursor.putCommand, ParsedLine.setCommand, Vector.toList_set,
      take_set_of_le (Nat.le_refl _)]
    exact h.done
  current := by
    have hcurrent : (c.putCommand command).current = command := Vector.getElem_set_self _
    rw [hcurrent]
    exact hshows
  later := by
    intro j other hj hother
    have hsame : (c.putCommand command).parsed.commands[j]? = c.parsed.commands[j]? :=
      Vector.getElem?_set_ne c.commandIndex.isLt hj.ne
    rw [hsame] at hother
    exact h.later j other hj hother

theorem Reads.all :
    Forall₂ (Shows environment c.parsed.text)
      (c.parsed.commands.toList.take (c.commandIndex + 1)) (p.done ++ [p.current]) := by
  have hlt : c.commandIndex.val < c.parsed.commands.toList.length := by
    rw [Vector.length_toList]
    exact c.commandIndex.isLt
  rw [take_add_one, getElem?_eq_getElem hlt]
  exact rel_append h.done (.cons h.current .nil)

theorem Reads.next (hlt : c.commandIndex.val + 1 < maxPipelineCommands) (tail : List UInt8) :
    Reads environment
      { rest := tail
        parsed := { c.parsed with commandCount := c.parsed.commandCount + 1 }
        commandIndex := ⟨c.commandIndex + 1, hlt⟩ }
      ⟨p.done ++ [p.current], Stage.empty, none⟩ where
  pending := rfl
  count := congrArg (· + 1) h.count
  done := h.all
  current := by
    have hempty : c.parsed.commands[c.commandIndex.val + 1] = Command.empty :=
      h.later _ _ (Nat.lt_succ_self _) (Vector.getElem?_eq_getElem hlt)
    rw [LineCursor.current, hempty]
    exact shows_empty
  later := by
    intro j command hj hcommand
    exact h.later j command (Nat.lt_of_succ_lt hj) hcommand

def StepAgrees (environment : Environment) (x : Result ParseError LineCursor) (ts : Tokens)
    (p : Pipeline) : Prop :=
  x = Result.fail .expandedLineTooLong ∨
    (∃ e, ts.assemble p = .error e ∧ x = Result.fail e) ∨
    ∃ c' p', x = .ok c' ∧ Reads environment c' p' ∧
      ts.assemble p = (tokenize c'.rest).assemble p'

theorem Reads.pipe (tail : List UInt8) :
    StepAgrees environment (c.pipe tail) ((tokenize tail).cons .pipe) p := by
  have hcount := h.current.argumentCount_eq
  have hlength := h.length_done
  by_cases hnone : p.current.arguments = []
  · have hnext : p.next .pipe = .error .emptyCommand := by
      simp [Pipeline.next, h.pending, hnone]
    have hzero : c.current.argumentCount = 0 := by
      rw [hnone] at hcount
      exact Fin.ext hcount
    refine .inr (.inl ⟨_, Tokens.assemble_of_error hnext, ?_⟩)
    rw [LineCursor.pipe, ensure_neg (not_not.mpr hzero)]
    rfl
  · have hsome : c.current.argumentCount ≠ 0 := by
      intro hzero
      rw [hzero] at hcount
      exact hnone (eq_nil_of_length_eq_zero hcount.symm)
    rw [LineCursor.pipe, ensure_pos hsome, bind_ok]
    by_cases hlast : p.done.length + 1 = maxPipelineCommands
    · have hnext : p.next .pipe = .error .tooManyCommands := by
        simp [Pipeline.next, h.pending, hnone, hlast]
      refine .inr (.inl ⟨_, Tokens.assemble_of_error hnext, ?_⟩)
      rw [dif_neg (by omega)]
    · have hnext : p.next .pipe = .ok ⟨p.done ++ [p.current], Stage.empty, none⟩ := by
        simp [Pipeline.next, h.pending, hnone, hlast]
      have hlt : c.commandIndex.val + 1 < maxPipelineCommands := by
        omega
      rw [dif_pos hlt]
      exact .inr (.inr ⟨_, _, rfl, h.next hlt tail, Tokens.assemble_of_ok hnext⟩)

theorem Reads.redirect (tail : List UInt8) (r : Redirect) (put : Span → Command → Command)
    (hput : ∀ {text span w command stage}, Shows environment text command stage →
      Spells environment text span w →
      Shows environment text (put span command) (Pipeline.redirect w stage r)) :
    StepAgrees environment
      (parseTarget environment tail c.parsed >>= fun (target, rest, parsed) =>
        .ok ((c.advance rest parsed).putCommand (put target (c.advance rest parsed).current)))
      (tokenize tail) { p with pending := some r } := by
  rcases parseTarget_run tail c.parsed with ⟨w, rest, htokens, hrun⟩ | ⟨e, htokens, hrun⟩
  · rcases stored_run hrun with hfull | ⟨q, hq, hgrows⟩
    · rw [hfull]
      exact .inl rfl
    · have hreads := h.advance hgrows rest
      have hspells := hgrows.spells
      have hnext : ({ p with pending := some r } : Pipeline).next (.word w) =
          .ok { p with current := Pipeline.redirect w p.current r, pending := none } := rfl
      rw [hq, htokens]
      refine .inr (.inr ⟨_, _, rfl, ?_, Tokens.assemble_of_ok hnext⟩)
      have hput := hreads.putCommand (hput hreads.current hspells)
      rwa [← h.pending]
  · rcases hrun with hrun | hrun
    · rw [hrun]
      exact .inr (.inl ⟨e, htokens _ r rfl, rfl⟩)
    · rw [hrun]
      exact .inl rfl

end

theorem StepAgrees.cons {token : Token} (h : StepAgrees environment x ts p') (hnext : p.next token = .ok p') :
    StepAgrees environment x (ts.cons token) p := by
  rw [StepAgrees, Tokens.assemble_of_ok hnext]
  exact h

theorem isNone_eq_of_rel {α β : Type} {R : α → β → Prop} {x : Option α} {y : Option β}
    (h : Option.Rel R x y) : x.isNone = y.isNone := by
  cases h <;> rfl

theorem Reads.redirectInput (h : Reads environment c p) (tail : List UInt8) :
    StepAgrees environment (c.redirectInput environment tail) ((tokenize tail).cons .input) p := by
  have hnone := isNone_eq_of_rel h.current.input
  rw [LineCursor.redirectInput]
  cases hinput : p.current.input with
  | some v =>
    have hnext : p.next .input = .error .duplicateInputRedirect := by
      simp [Pipeline.next, h.pending, hinput]
    refine .inr (.inl ⟨_, Tokens.assemble_of_error hnext, ?_⟩)
    rw [ensure_neg (by simp [hnone, hinput])]
    rfl
  | none =>
    have hnext : p.next .input = .ok { p with pending := some .input } := by
      simp [Pipeline.next, h.pending, hinput]
    rw [ensure_pos (by simp [hnone, hinput])]
    refine StepAgrees.cons ?_ hnext
    apply h.redirect tail .input fun target command => { command with input := some target }
    intro text span w command stage hshows hspells
    exact { hshows with input := .some hspells }

theorem Reads.redirectOutput (h : Reads environment c p) (tail : List UInt8) (append : Bool) :
    StepAgrees environment (c.redirectOutput environment tail append)
      ((tokenize tail).cons (.output append)) p := by
  have hnone := isNone_eq_of_rel h.current.output
  rw [LineCursor.redirectOutput]
  cases houtput : p.current.output with
  | some v =>
    have hnext : p.next (.output append) = .error .duplicateOutputRedirect := by
      simp [Pipeline.next, h.pending, houtput]
    refine .inr (.inl ⟨_, Tokens.assemble_of_error hnext, ?_⟩)
    rw [ensure_neg (by simp [hnone, houtput])]
    rfl
  | none =>
    have hnext : p.next (.output append) = .ok { p with pending := some (.output append) } := by
      simp [Pipeline.next, h.pending, houtput]
    rw [ensure_pos (by simp [hnone, houtput])]
    refine StepAgrees.cons ?_ hnext
    apply h.redirect tail (.output append)
      fun path command => { command with output := some ⟨path, append⟩ }
    intro text span w command stage hshows hspells
    exact { hshows with output := .some ⟨hspells, rfl⟩ }

theorem Shows.pushArgument (h : Shows environment text command stage)
    (hspells : Spells environment text span w) :
    (stage.arguments.length = maxArguments ∧
        command.pushArgument span = fail .tooManyArguments) ∨
      stage.arguments.length ≠ maxArguments ∧
        ∃ command', command.pushArgument span = .ok command' ∧
          Shows environment text command' { stage with arguments := stage.arguments ++ [w] } := by
  have hcount := h.argumentCount_eq
  rw [Command.pushArgument]
  split
  · rename_i hlt
    refine .inr ⟨by omega, _, rfl, ?_, h.input, h.output⟩
    rw [Bytes.take_set]
    exact rel_append h.arguments (.cons hspells .nil)
  · exact .inl ⟨by omega, rfl⟩

section
variable {tail : List UInt8} (h : Reads environment c p)
  (hskip : skipWhitespace c.rest = byte :: tail)
include h hskip

theorem Reads.argument (hoperator : isOperator byte = false) :
    StepAgrees environment (c.argument environment (byte :: tail)) (tokenize c.rest) p := by
  have hspace := not_isAsciiWhitespace_of_skipWhitespace hskip
  have hends : Quote.unquoted.ends byte = false := by simp [Quote.ends, hspace, hoperator]
  have hrun := parseWord_run environment hends tail c.parsed
  rw [LineCursor.argument]
  cases hlex : lexWord .unquoted (byte :: tail) with
  | error e =>
    rw [hlex] at hrun
    rw [tokenize_word hskip hoperator, hlex]
    rcases hrun with hrun | hrun
    · rw [hrun]
      exact .inr (.inl ⟨e, rfl, rfl⟩)
    · rw [hrun]
      exact .inl rfl
  | ok r =>
    obtain ⟨w, rest⟩ := r
    rw [hlex] at hrun
    rw [tokenize_word hskip hoperator, hlex]
    rcases stored_run hrun with hfull | ⟨q, hq, hgrows⟩
    · rw [hfull]
      exact .inl rfl
    · have hreads := h.advance hgrows rest
      have hspells := hgrows.spells
      rw [hq]
      dsimp only [bind_ok]
      rcases hreads.current.pushArgument hspells with ⟨hmany, hpush⟩ | ⟨hfew, command, hpush, hshows⟩
      · have hnext : p.next (.word w) = .error .tooManyArguments := by
          simp [Pipeline.next, h.pending, hmany]
        refine .inr (.inl ⟨_, Tokens.assemble_of_error hnext, ?_⟩)
        rw [hpush]
        rfl
      · have hnext : p.next (.word w) =
            .ok { p with current := { p.current with arguments := p.current.arguments ++ [w] } } := by
          simp [Pipeline.next, h.pending, hfew]
        refine .inr (.inr ⟨_, _, ?_, hreads.putCommand hshows, Tokens.assemble_of_ok hnext⟩)
        rw [hpush]
        rfl

theorem Reads.step : StepAgrees environment (c.step environment byte tail) (tokenize c.rest) p := by
  rw [LineCursor.step]
  by_cases hpipe : byte = 124
  · subst hpipe
    rw [tokenize_pipe hskip]
    exact h.pipe tail
  rw [if_neg hpipe]
  by_cases hinput : byte = 60
  · subst hinput
    rw [tokenize_input hskip]
    exact h.redirectInput tail
  rw [if_neg hinput]
  by_cases houtput : byte = 62
  · subst houtput
    by_cases hnext : tail.head? = some 62
    · rw [if_pos hnext, tokenize_append hskip hnext]
      exact h.redirectOutput (tail.drop 1) true
    · rw [if_neg hnext, tokenize_output hskip hnext]
      exact h.redirectOutput tail false
  rw [if_neg houtput]
  exact h.argument hskip (by simp [isOperator, hpipe, hinput, houtput])

end

structure Represents (environment : Environment) (parsed : ParsedLine) (stages : List Stage) :
    Prop where
  count : parsed.commandCount = stages.length
  shows : List.Forall₂ (Shows environment parsed.text)
    (parsed.commands.toList.take parsed.commandCount) stages

/-- The parser and the stages of the line, up to a line that becomes too long. -/
def Agrees (environment : Environment) (x : Result ParseError ParsedLine)
    (y : Except ParseError (List Stage)) : Prop :=
  x = Result.fail .expandedLineTooLong ∨ (∃ e, y = .error e ∧ x = Result.fail e) ∨
    ∃ parsed stages, y = .ok stages ∧ x = .ok parsed ∧ Represents environment parsed stages

theorem Reads.finish (h : Reads environment c p) : Agrees environment c.finish (p.finish none) := by
  have hcount := h.current.argumentCount_eq
  rw [LineCursor.finish]
  by_cases hnone : p.current.arguments = []
  · have hzero : c.current.argumentCount = 0 := by
      rw [hnone] at hcount
      exact Fin.ext hcount
    refine .inr (.inl ⟨.emptyCommand, by simp [Pipeline.finish, h.pending, hnone], ?_⟩)
    rw [ensure_neg (not_not.mpr hzero)]
    rfl
  · have hsome : c.current.argumentCount ≠ 0 := by
      intro hzero
      rw [hzero] at hcount
      exact hnone (eq_nil_of_length_eq_zero hcount.symm)
    rw [ensure_pos hsome]
    refine .inr (.inr ⟨c.parsed, p.done ++ [p.current], ?_, rfl, ?_⟩)
    · simp [Pipeline.finish, h.pending, hnone]
    · constructor
      · rw [h.count, length_append, h.length_done, length_singleton]
      · rw [h.count]
        exact h.all

theorem Reads.run (h : Reads environment c p) :
    Agrees environment (c.run environment >>= LineCursor.finish) ((tokenize c.rest).assemble p) := by
  -- each round reads at least one byte of the line
  induction hlength : c.rest.length using Nat.strong_induction_on generalizing c p with
  | _ n ih =>
    subst hlength
    cases hskip : skipWhitespace c.rest with
    | nil =>
      rw [LineCursor.run_nil hskip, tokenize_nil hskip]
      have hend : Reads environment { c with rest := [] } p := { h with }
      exact hend.finish
    | cons byte tail =>
      rcases h.step hskip with hfull | ⟨e, herror, hstep⟩ | ⟨c', p', hstep, hreads, htokens⟩
      · rw [LineCursor.run_of_error hskip hfull]
        exact .inl rfl
      · rw [LineCursor.run_of_error hskip hstep]
        exact .inr (.inl ⟨e, herror, rfl⟩)
      · have hskipped := length_skipWhitespace_le c.rest
        rw [hskip] at hskipped
        have hlt := Nat.lt_of_le_of_lt (LineCursor.step_consumes hstep) hskipped
        rw [LineCursor.run_of_ok hskip hstep, htokens]
        exact ih _ hlt hreads rfl

theorem reads_empty (line : List UInt8) :
    Reads environment ⟨line, ParsedLine.empty, ⟨0, by decide⟩⟩ Pipeline.empty where
  pending := rfl
  count := rfl
  done := .nil
  current := shows_empty
  later := by
    intro j command _ hcommand
    obtain ⟨hlt, rfl⟩ := Vector.getElem?_eq_some_iff.mp hcommand
    exact Vector.getElem_replicate hlt

theorem parse_agrees (line : List UInt8) :
    Agrees environment (parse line environment) (scan line) :=
  (reads_empty line).run

end NexOs.Userspace
