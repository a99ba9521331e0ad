import Lox.Machine.Error
import Lox.Program.Basic

/-!
# Operators on values

What the operators give for values, and which fault they end in otherwise. None of them depends on
a machine. A tree can hold any kind of token as an operator; those that are none have no meaning.
-/

namespace Lox

namespace Operator

/-- The value of an operator before its operand. -/
def unaryValue (op : Operator) (v : Value) : Except Fault Value :=
  match op.kind, v with
  | .minus, .number x => .ok (.number x.neg)
  | .minus, _ => .error .operandNotNumber
  | .bang, v => .ok (.bool !v.truthy)
  | _, _ => .error (.unknownUnary op.lexeme)

/-- A sum of numbers, or texts joined if one of the operands is a string. -/
def plus (v w : Value) : Except Fault Value :=
  match v, w with
  | .number x, .number y => .ok (.number (x.add y))
  | .string s, w => .ok (.string (s ++ w.text))
  | v, .string t => .ok (.string (v.text ++ t))
  | _, _ => .error .operandsNotAddable

/-- An operation on two numbers. -/
def onNumbers (f : Number → Number → Value) (v w : Value) : Except Fault Value :=
  match v, w with
  | .number x, .number y => .ok (f x y)
  | _, _ => .error .operandsNotNumbers

/-- The value of an operator between its operands. -/
def binaryValue (op : Operator) (v w : Value) : Except Fault Value :=
  match op.kind with
  | .plus => plus v w
  | .minus => onNumbers (fun x y => .number (x.sub y)) v w
  | .star => onNumbers (fun x y => .number (x.mul y)) v w
  | .slash => onNumbers (fun x y => .number (x.div y)) v w
  | .greater => onNumbers (fun x y => .bool (y.less x)) v w
  | .greaterEqual => onNumbers (fun x y => .bool (y.lessOrEqual x)) v w
  | .less => onNumbers (fun x y => .bool (x.less y)) v w
  | .lessEqual => onNumbers (fun x y => .bool (x.lessOrEqual y)) v w
  | .equalEqual => .ok (.bool (v.equal w))
  | .bangEqual => .ok (.bool !v.equal w)
  | _ => .error (.unknownBinary op.lexeme)

/-- Whether a left operand alone decides a logical operator. `or` is decided by a true operand, and
any other operator, as `and` is, by one that is not true. -/
def decides (op : Operator) (left : Bool) : Bool :=
  if op.kind = .kwOr then left else !left

end Operator

end Lox
