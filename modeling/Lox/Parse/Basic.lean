import Lox.Parse.Error

/-!
# Parsers

A parser takes tokens from the front of a list. It gives a result or fails, and on the way it may
report errors that it can go on after. `Parsed` holds all of that: the result, the tokens left, and
the errors reported, in order. A parser cannot see errors reported before it, so its errors are the
same wherever it runs.

The end of the input is never taken: past the last token every parser sees the end.
-/

namespace Lox

/-- What a parser gives: a result or the error it failed with, the tokens left and the errors it
reported. -/
structure Parsed (α : Type) where
  result : Except ParseError α
  rest : List Token
  errors : List ParseError

/-- A parser takes tokens from the front of a list. -/
def Parser (α : Type) : Type := List Token → Parsed α

namespace Parser

variable {α β : Type}

/-- Runs a second parser on what a first one left. -/
def andThen (p : Parser α) (f : α → Parser β) : Parser β := fun ts =>
  match p ts with
  | ⟨.ok a, rest, errors⟩ =>
    let second := f a rest
    { second with errors := errors ++ second.errors }
  | ⟨.error e, rest, errors⟩ => ⟨.error e, rest, errors⟩

/-- Parsers in a row: each takes up what the one before left, and the first failure ends them. -/
instance : Monad Parser where
  pure a := fun ts => ⟨.ok a, ts, []⟩
  bind := andThen

theorem pure_apply (a : α) (ts : List Token) : (pure a : Parser α) ts = ⟨.ok a, ts, []⟩ := rfl

theorem bind_apply (p : Parser α) (f : α → Parser β) (ts : List Token) :
    (p >>= f) ts = p.andThen f ts := rfl

/-- The next token; past the last one, the end of the input. -/
def peek : Parser Token := fun ts => ⟨.ok (ts.headD (.endOfInput .nowhere)), ts, []⟩

/-- How many tokens are left. -/
def remaining : Parser Nat := fun ts => ⟨.ok ts.length, ts, []⟩

/-- Takes one token. -/
def skip : Parser Unit := fun ts => ⟨.ok (), ts.tail, []⟩

/-- Fails at the next token. -/
def fail (problem : ParseProblem) : Parser α := fun ts =>
  ⟨.error ⟨problem, ts.headD (.endOfInput .nowhere)⟩, ts, []⟩

/-- Reports an error and goes on. -/
def report (problem : ParseProblem) (found : Token) : Parser Unit := fun ts =>
  ⟨.ok (), ts, [⟨problem, found⟩]⟩

/-- Whether the next token is of the given kind. -/
def check (kind : TokenKind) : Parser Bool := do
  return (← peek).kind == kind

/-- Takes the next token if its kind is one of the given ones. -/
def acceptOne (kinds : List TokenKind) : Parser (Option Token) := do
  let t ← peek
  if kinds.contains t.kind then
    skip
    return some t
  else
    return none

/-- Takes the next token if it is of the given kind. -/
def accept (kind : TokenKind) : Parser (Option Token) := acceptOne [kind]

/-- Takes a token where the grammar leaves no choice, and fails if another one is there. -/
def expect (what : Expectation) : Parser Token := do
  match ← accept what.kind with
  | some t => return t
  | none => fail (.expected what)

/-- What another parser gives, unless the next token is of the given kind. -/
def unlessNext (stop : TokenKind) (p : Parser α) : Parser (Option α) := do
  if ← check stop then
    return none
  else
    return some (← p)

/-- What another parser gives behind a token of the given kind, if there is one. -/
def behind (kind : TokenKind) (p : Parser α) : Parser (Option α) := do
  match ← accept kind with
  | some _ => return some (← p)
  | none => return none

/-! ## Lists -/

/-- Reports an item that makes a list longer than it may be. `count` items came before. -/
def checkCount (excess : ParseProblem) (count : Nat) : Parser Unit := do
  if count ≥ maxArguments then
    report excess (← peek)

/-- At least one item, with commas between neighbours, for at most the given number of rounds.
Every item beyond the greatest number of arguments is reported. `count` items came before. -/
def commaSeparatedFrom (excess : ParseProblem) (item : Parser α) : Nat → Nat → Parser (List α)
  | 0, _ => pure []
  | rounds + 1, count => do
    checkCount excess count
    let first ← item
    match ← accept .comma with
    | some _ => return first :: (← commaSeparatedFrom excess item rounds (count + 1))
    | none => return [first]

/-- At least one item, with commas between neighbours. Each comma is a token, so there are at most
as many rounds as tokens and one more. -/
def commaSeparated (excess : ParseProblem) (item : Parser α) : Parser (List α) := do
  commaSeparatedFrom excess item ((← remaining) + 1) 0

/-- Items up to a token of the given kind or the end of the input, for at most the given number of
rounds; items that come to nothing are left out. -/
def manyUntilFrom (stop : TokenKind) (item : Parser (Option α)) : Nat → Parser (List α)
  | 0 => pure []
  | rounds + 1 => do
    let t ← peek
    if t.kind == stop || t.isEnd then
      return []
    else
      let first ← item
      let others ← manyUntilFrom stop item rounds
      return first.toList ++ others

/-- Items up to a token of the given kind or the end of the input. Each item takes a token, so
there are at most as many rounds as tokens. -/
def manyUntil (stop : TokenKind) (item : Parser (Option α)) : Parser (List α) := do
  manyUntilFrom stop item (← remaining)

/-! ## Recovery -/

/-- The kinds of token that begin a statement, where parsing can resume. -/
def statementStarts : List TokenKind :=
  [.kwClass, .kwFun, .kwVar, .kwFor, .kwIf, .kwWhile, .kwPrint, .kwReturn]

/-- The tokens from the next place where a statement may begin: behind a semicolon, before a token
that begins a statement, or at the end. `last` is the token in front of the list. -/
def resumeAfter (last : Token) : List Token → List Token
  | [] => []
  | t :: rest =>
    if t.isEnd || last.kind == .semicolon || statementStarts.contains t.kind then t :: rest
    else resumeAfter t rest

/-- Passes over at least one token, up to the next place where a statement may begin. -/
def resume : List Token → List Token
  | [] => []
  | t :: rest => if t.isEnd then t :: rest else resumeAfter t rest

/-- Turns failure into a reported error and the absence of a result, and goes on at the next
statement. Nesting too deep still fails. -/
def recovering (p : Parser α) : Parser (Option α) := fun ts =>
  match p ts with
  | ⟨.ok a, rest, errors⟩ => ⟨.ok (some a), rest, errors⟩
  | ⟨.error e, rest, errors⟩ =>
    if e.isFinal then ⟨.error e, rest, errors⟩ else ⟨.ok none, resume rest, errors ++ [e]⟩

end Parser

end Lox
