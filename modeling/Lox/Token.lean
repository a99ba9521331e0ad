import Lox.Location
import Lox.Number.Basic

/-!
# Tokens

The kinds of token, the fixed spellings of the symbols and of the reserved words, and tokens
themselves: a kind, the bytes they were read from, the value of a numeral or a string, and the
location of the first byte.
-/

namespace Lox

/-- The kinds of token. -/
inductive TokenKind
  | leftParen
  | rightParen
  | leftBrace
  | rightBrace
  | comma
  | dot
  | minus
  | plus
  | semicolon
  | slash
  | star
  | bang
  | bangEqual
  | equal
  | equalEqual
  | greater
  | greaterEqual
  | less
  | lessEqual
  | identifier
  | string
  | number
  | kwAnd
  | kwClass
  | kwElse
  | kwFalse
  | kwFun
  | kwFor
  | kwIf
  | kwNil
  | kwOr
  | kwPrint
  | kwReturn
  | kwSuper
  | kwThis
  | kwTrue
  | kwVar
  | kwWhile
  | endOfInput
  deriving DecidableEq

namespace TokenKind

/-- The kinds, in the order of their declaration. -/
def all : List TokenKind :=
  [.leftParen, .rightParen, .leftBrace, .rightBrace, .comma, .dot, .minus, .plus, .semicolon,
   .slash, .star, .bang, .bangEqual, .equal, .equalEqual, .greater, .greaterEqual, .less,
   .lessEqual, .identifier, .string, .number, .kwAnd, .kwClass, .kwElse, .kwFalse, .kwFun, .kwFor,
   .kwIf, .kwNil, .kwOr, .kwPrint, .kwReturn, .kwSuper, .kwThis, .kwTrue, .kwVar, .kwWhile,
   .endOfInput]

theorem mem_all (k : TokenKind) : k ∈ all := by
  cases k <;> decide

/-- The name of a kind. -/
def name : TokenKind → String
  | .leftParen => "LeftParen"
  | .rightParen => "RightParen"
  | .leftBrace => "LeftBrace"
  | .rightBrace => "RightBrace"
  | .comma => "Comma"
  | .dot => "Dot"
  | .minus => "Minus"
  | .plus => "Plus"
  | .semicolon => "Semicolon"
  | .slash => "Slash"
  | .star => "Star"
  | .bang => "Bang"
  | .bangEqual => "BangEqual"
  | .equal => "Equal"
  | .equalEqual => "EqualEqual"
  | .greater => "Greater"
  | .greaterEqual => "GreaterEqual"
  | .less => "Less"
  | .lessEqual => "LessEqual"
  | .identifier => "Identifier"
  | .string => "String"
  | .number => "Number"
  | .kwAnd => "And"
  | .kwClass => "Class"
  | .kwElse => "Else"
  | .kwFalse => "False"
  | .kwFun => "Fun"
  | .kwFor => "For"
  | .kwIf => "If"
  | .kwNil => "Nil"
  | .kwOr => "Or"
  | .kwPrint => "Print"
  | .kwReturn => "Return"
  | .kwSuper => "Super"
  | .kwThis => "This"
  | .kwTrue => "True"
  | .kwVar => "Var"
  | .kwWhile => "While"
  | .endOfInput => "Eof"

/-- The kind with the given name. -/
def ofName? (s : String) : Option TokenKind := all.find? (·.name == s)

/-- The symbols and their spellings, a spelling before its own beginnings. -/
def symbols : List (Text × TokenKind) :=
  [(utf8 "!=", .bangEqual), (utf8 "==", .equalEqual), (utf8 "<=", .lessEqual),
   (utf8 ">=", .greaterEqual), (utf8 "(", .leftParen), (utf8 ")", .rightParen),
   (utf8 "\x7b", .leftBrace), (utf8 "\x7d", .rightBrace), (utf8 ",", .comma), (utf8 ".", .dot),
   (utf8 "-", .minus), (utf8 "+", .plus), (utf8 ";", .semicolon), (utf8 "/", .slash),
   (utf8 "*", .star), (utf8 "!", .bang), (utf8 "=", .equal), (utf8 "<", .less),
   (utf8 ">", .greater)]

/-- The reserved words and their spellings. -/
def keywords : List (Text × TokenKind) :=
  [(utf8 "and", .kwAnd), (utf8 "class", .kwClass), (utf8 "else", .kwElse),
   (utf8 "false", .kwFalse), (utf8 "for", .kwFor), (utf8 "fun", .kwFun), (utf8 "if", .kwIf),
   (utf8 "nil", .kwNil), (utf8 "or", .kwOr), (utf8 "print", .kwPrint),
   (utf8 "return", .kwReturn), (utf8 "super", .kwSuper), (utf8 "this", .kwThis),
   (utf8 "true", .kwTrue), (utf8 "var", .kwVar), (utf8 "while", .kwWhile)]

/-- The kind of a name: a reserved word or an identifier. -/
def ofWord (t : Text) : TokenKind := (keywords.lookup t).getD .identifier

end TokenKind

/-- The value of a numeral or of a string. -/
inductive Constant
  | number (x : Number)
  | string (t : Text)
  deriving DecidableEq

/-- A token. -/
structure Token where
  kind : TokenKind
  lexeme : Text
  constant : Option Constant
  loc : Location
  deriving DecidableEq

namespace Token

/-- The token behind the last byte of a source. -/
def endOfInput (loc : Location) : Token := ⟨.endOfInput, [], none, loc⟩

/-- Whether a token is the end of the input. -/
def isEnd (t : Token) : Bool := t.kind == .endOfInput

end Token

end Lox
