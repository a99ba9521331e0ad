import Lox.Lexeme
import Lox.Diagnostic

/-!
# Token streams

Reading a source token by token, with a look ahead of one. What is no part of a token is reported
and passed over, so reading never fails: a stream ends with an end-of-input token, which it repeats
for ever. `readToken` reads one token, `readAll` all that are left, and `TokenStream` holds the
state between two calls.
-/

namespace Lox

/-- What can be wrong with a source before it is tokens. -/
inductive ScanProblem
  | unexpectedCharacter (byte : UInt8)
  | unterminatedString
  deriving DecidableEq

namespace ScanProblem

/-- The code of a problem. -/
def code : ScanProblem → Code
  | .unexpectedCharacter _ => .unexpectedCharacter
  | .unterminatedString => .unterminatedString

/-- The message for a problem. -/
def message : ScanProblem → Text
  | .unexpectedCharacter b => utf8 "Unexpected character: '" ++ [b] ++ utf8 "'"
  | .unterminatedString => utf8 "Unterminated string"

end ScanProblem

/-- A problem and where it is. -/
structure ScanError where
  problem : ScanProblem
  loc : Location
  deriving DecidableEq

/-- The error as a diagnostic. -/
def ScanError.diagnostic (e : ScanError) : Diagnostic :=
  ⟨.scan, e.problem.code, .error, e.problem.message, e.loc, []⟩

/-! ## One token -/

/-- A token read from a text: the errors passed on the way, the text behind it and where that
text begins. -/
structure Reading where
  token : Token
  errors : List ScanError
  rest : Text
  loc : Location

/-- Reads the first token of a text that begins at the given location. -/
def readToken (s : Text) (loc : Location) : Reading :=
  let gap := splitGap false s
  let start := loc.after gap.1
  match _h : Lexeme.ofText? gap.2 with
  | none => ⟨.endOfInput start, [], [], start⟩
  | some (.token kind spelling, rest) =>
    ⟨⟨kind, spelling, Lexeme.constant? kind spelling, start⟩, [], rest, start.after spelling⟩
  | some (.stray b, rest) =>
    let next := readToken rest (start.step b)
    { next with errors := ⟨.unexpectedCharacter b, start⟩ :: next.errors }
  | some (.unclosed spelling, rest) =>
    let next := readToken rest (start.after spelling)
    { next with errors := ⟨.unterminatedString, start⟩ :: next.errors }
termination_by s.length
decreasing_by
  all_goals exact Nat.lt_of_lt_of_le (Lexeme.ofText?_length_lt _h) (splitGap_length_le false s)

theorem readToken_length_lt (s : Text) (loc : Location)
    (h : (readToken s loc).token.isEnd = false) :
    (readToken s loc).rest.length < s.length := by
  fun_induction readToken s loc with
  | case1 => simp [Token.isEnd, Token.endOfInput] at h
  | case2 s loc gap start kind spelling rest hl =>
    exact Nat.lt_of_lt_of_le (Lexeme.ofText?_length_lt hl) (splitGap_length_le false s)
  | case3 s loc gap start b rest hl next ih =>
    have := Lexeme.ofText?_length_lt hl
    have := splitGap_length_le false s
    exact Nat.lt_of_lt_of_le (Nat.lt_trans (ih h) (Lexeme.ofText?_length_lt hl)) this
  | case4 s loc gap start spelling rest hl next ih =>
    have := splitGap_length_le false s
    exact Nat.lt_of_lt_of_le (Nat.lt_trans (ih h) (Lexeme.ofText?_length_lt hl)) this

/-! ## All tokens -/

/-- The tokens of a source, the last of them the end of the input, and the errors in the source. -/
structure Tokens where
  tokens : List Token
  errors : List ScanError

/-- Reads all tokens of a text that begins at the given location; also gives the location behind
the last byte. -/
def readAll (s : Text) (loc : Location) : Tokens × Location :=
  let first := readToken s loc
  match _h : first.token.isEnd with
  | true => (⟨[first.token], first.errors⟩, first.loc)
  | false =>
    let (others, finish) := readAll first.rest first.loc
    (⟨first.token :: others.tokens, first.errors ++ others.errors⟩, finish)
termination_by s.length
decreasing_by exact readToken_length_lt s loc _h

/-- The tokens of a source. -/
def tokenize (source : Text) : Tokens := (readAll source .start).1

/-! ## Reading with a look ahead -/

/-- A source that is being read: what is left of it, where that begins, the token looked at but
not taken yet, and the errors found so far. -/
structure TokenStream where
  rest : Text
  loc : Location
  peeked : Option Token
  errors : List ScanError

namespace TokenStream

/-- The stream of which nothing has been read. -/
def ofSource (source : Text) : TokenStream := ⟨source, .start, none, []⟩

/-- Takes the next token. -/
def next (s : TokenStream) : Token × TokenStream :=
  match s.peeked with
  | some t => (t, { s with peeked := none })
  | none =>
    let r := readToken s.rest s.loc
    (r.token, ⟨r.rest, r.loc, none, s.errors ++ r.errors⟩)

/-- Looks at the next token. -/
def peek (s : TokenStream) : Token × TokenStream :=
  match s.peeked with
  | some t => (t, s)
  | none =>
    let (t, s) := s.next
    (t, { s with peeked := some t })

/-- Whether the end has been reached: the token looked at is the end of the input or, if none has
been looked at, no byte is left. -/
def atEnd (s : TokenStream) : Bool :=
  match s.peeked with
  | some t => t.isEnd
  | none => s.rest.isEmpty

/-- Takes all tokens up to the end of the input. -/
def takeAll (s : TokenStream) : List Token × TokenStream :=
  let (t, s) := s.next
  if t.isEnd then ([t], s)
  else
    let (others, finish) := readAll s.rest s.loc
    (t :: others.tokens, ⟨[], finish, none, s.errors ++ others.errors⟩)

end TokenStream

end Lox
