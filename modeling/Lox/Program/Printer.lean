import Lox.Program.Basic

/-!
# Programs as text

Writes a program in the language itself, with one space around binary operators, four spaces of
indentation for each level, and braces at the end of the line that opens a block. Parentheses are
written where the tree has a grouping and nowhere else.
-/

namespace Lox

/-- A literal: numbers without an exponent, strings between quotes. -/
def Value.literalText : Value → Text
  | .number x => x.literal
  | .string s => quote :: (s ++ [quote])
  | v => v.text

namespace Expr

mutual

/-- An expression as text. -/
def text : Expr → Text
  | .literal v _ => v.literalText
  | .grouping e _ => utf8 "(" ++ e.text ++ utf8 ")"
  | .unary op e => op.lexeme ++ e.text
  | .binary op l r => l.text ++ utf8 " " ++ op.lexeme ++ utf8 " " ++ r.text
  | .logical op l r => l.text ++ utf8 " " ++ op.lexeme ++ utf8 " " ++ r.text
  | .reference name _ => name.text
  | .assign name _ e => name.text ++ utf8 " = " ++ e.text
  | .call callee args _ =>
    callee.text ++ utf8 "(" ++ Text.joined (utf8 ", ") (texts args) ++ utf8 ")"

/-- The texts of a list of expressions. -/
def texts : List Expr → List Text
  | [] => []
  | e :: es => e.text :: texts es

end

end Expr

/-- The white space in front of a line at the given depth. -/
def indentation (depth : Nat) : Text := List.replicate (4 * depth) (ascii ' ')

namespace Stmt

mutual

/-- A statement as text; its first line is already indented, the others are indented for `depth`. -/
def textAt (depth : Nat) : Stmt → Text
  | .expression e _ => e.text ++ utf8 ";"
  | .print e _ => utf8 "print " ++ e.text ++ utf8 ";"
  | .var name none => utf8 "var " ++ name.text ++ utf8 ";"
  | .var name (some e) => utf8 "var " ++ name.text ++ utf8 " = " ++ e.text ++ utf8 ";"
  | .block body _ => utf8 "\x7b\n" ++ linesAt (depth + 1) body ++ indentation depth ++ utf8 "\x7d"
  | .ifThen c branch _ => utf8 "if (" ++ c.text ++ utf8 ") " ++ branch.textAt depth
  | .ifElse c branch otherwise _ =>
    utf8 "if (" ++ c.text ++ utf8 ") " ++ branch.textAt depth ++ utf8 " else " ++
      otherwise.textAt depth
  | .whileLoop c body _ => utf8 "while (" ++ c.text ++ utf8 ") " ++ body.textAt depth
  | .function name params body =>
    utf8 "fun " ++ name.text ++ utf8 "(" ++ Text.joined (utf8 ", ") (params.map Name.text) ++
      utf8 ") \x7b\n" ++ linesAt (depth + 1) body ++ indentation depth ++ utf8 "\x7d"
  | .returnStmt none _ => utf8 "return;"
  | .returnStmt (some e) _ => utf8 "return " ++ e.text ++ utf8 ";"

/-- Statements one below the other, each on indented lines of its own. -/
def linesAt (depth : Nat) : List Stmt → Text
  | [] => []
  | s :: rest => indentation depth ++ s.textAt depth ++ [newline] ++ linesAt depth rest

end

/-- A statement as text. -/
def text (s : Stmt) : Text := s.textAt 0

end Stmt

/-- A program as text. -/
def Program.text (p : Program) : Text := Stmt.linesAt 0 p

end Lox
