import Lox.Machine.Basic
import Lox.Eval.Operator

/-!
# Running programs

Expressions and statements run by recursion on the program. What that recursion cannot bound are
calls and loops, and both are bounded by fuel: `callWithin fuel` allows that many calls inside one
another and that many rounds of each loop. Running out of fuel is an outcome of its own, which
scripts and native functions cannot see. Without loops, the limit on calls under way bounds the
fuel that a script can need.
-/

namespace Lox

/-- How to call a value, from a given place. -/
abbrev Caller := Value → List Value → Location → Run Value

/-! ## Expressions -/

namespace Expr

/-- The value of a name: a local variable at its distance, or a global variable. -/
def readVariable (frame : Nat) (name : Name) (distance : Option Nat) : Run Value := do
  let frames := (← get).frames
  let found := match distance with
    | some d => frames.getAt frame d name.text
    | none => frames.getLocal Machine.globalFrame name.text
  match found with
  | some v => return v
  | none => Run.fail (.undefinedVariable name.text) name.loc

/-- Changes a local variable at its distance, or a global variable. -/
def writeVariable (frame : Nat) (name : Name) (distance : Option Nat) (v : Value) : Run Unit := do
  let frames := (← get).frames
  let binder := match distance with
    | some d => frames.binder? frame d name.text
    | none => frames.binder? Machine.globalFrame 0 name.text
  match binder with
  | some target => Run.define target name.text v
  | none => Run.fail (.undefinedVariable name.text) name.loc

mutual

/-- The value of an expression in a frame. -/
def eval (call : Caller) (frame : Nat) : Expr → Run Value
  | .literal v _ => return v
  | .grouping e _ => e.eval call frame
  | .unary op e => do
    let v ← e.eval call frame
    Run.ofExcept op.loc (op.unaryValue v)
  | .binary op l r => do
    let v ← l.eval call frame
    let w ← r.eval call frame
    Run.ofExcept op.loc (op.binaryValue v w)
  | .logical op l r => do
    let v ← l.eval call frame
    if op.decides v.truthy then
      return .bool v.truthy
    else
      return .bool (← r.eval call frame).truthy
  | .reference name distance => readVariable frame name distance
  | .assign name distance e => do
    let v ← e.eval call frame
    writeVariable frame name distance v
    return v
  | .call f args loc => do
    let callee ← f.eval call frame
    let args ← evalAll call frame args
    call callee args loc

/-- The values of expressions, from left to right. -/
def evalAll (call : Caller) (frame : Nat) : List Expr → Run (List Value)
  | [] => return []
  | e :: es => do
    let v ← e.eval call frame
    let vs ← evalAll call frame es
    return v :: vs

end

/-- The value of an expression, or nil if there is none. -/
def evalOption (call : Caller) (frame : Nat) : Option Expr → Run Value
  | none => return .nil
  | some e => e.eval call frame

end Expr

/-! ## Statements -/

/-- How a statement ends: the next one follows, or the function returns. -/
inductive Flow
  | next
  | returned (v : Value)

/-- A loop of at most the given number of rounds. -/
def Run.loop (condition : Run Value) (body : Run Flow) : Nat → Run Flow
  | 0 => throw .outOfFuel
  | rounds + 1 => do
    if (← condition).truthy then
      match ← body with
      | .next => Run.loop condition body rounds
      | .returned v => return .returned v
    else
      return .next

namespace Stmt

mutual

/-- Runs a statement in a frame. -/
def exec (call : Caller) (rounds : Nat) (frame : Nat) : Stmt → Run Flow
  | .expression e _ => do
    let _ ← e.eval call frame
    return .next
  | .print e _ => do
    let v ← e.eval call frame
    Run.write v.text
    return .next
  | .var name e => do
    let v ← Expr.evalOption call frame e
    Run.define frame name.text v
    return .next
  | .block body _ => do
    let inner ← Run.newFrame frame
    execAll call rounds inner body
  | .ifThen c branch _ => do
    if (← c.eval call frame).truthy then branch.exec call rounds frame else return .next
  | .ifElse c branch otherwise _ => do
    if (← c.eval call frame).truthy then branch.exec call rounds frame
    else otherwise.exec call rounds frame
  | .whileLoop c body _ =>
    Run.loop (c.eval call frame) (body.exec call rounds frame) rounds
  | .function name params body => do
    let f ← modifyGet fun m => m.addFunction ⟨name.text, params, body, frame⟩
    Run.define frame name.text f
    return .next
  | .returnStmt e _ => do
    let v ← Expr.evalOption call frame e
    return .returned v

/-- Runs statements in a row, up to one that returns. -/
def execAll (call : Caller) (rounds : Nat) (frame : Nat) : List Stmt → Run Flow
  | [] => return .next
  | s :: rest => do
    match ← s.exec call rounds frame with
    | .next => execAll call rounds frame rest
    | .returned v => return .returned v

end

end Stmt

/-! ## Calls -/

/-- Binds names to values in a frame. -/
def Run.defineAll (frame : Nat) : List (Name × Value) → Run Unit
  | [] => return
  | (name, v) :: rest => do
    Run.define frame name.text v
    Run.defineAll frame rest

/-- Makes the frame of a call, inside the one the function was declared in, and binds the
parameters there. -/
def Closure.enter (c : Closure) (args : List Value) : Run Nat := do
  let frame ← Run.newFrame c.frame
  Run.defineAll frame (c.parameters.zip args)
  return frame

/-- Runs a function in a frame of its own. -/
def Closure.run (call : Caller) (rounds : Nat) (c : Closure) (args : List Value) : Run Value := do
  let frame ← c.enter args
  match ← Stmt.execAll call rounds frame c.body with
  | .next => return .nil
  | .returned v => return v

/-- Does what a native function asks for. `name` is the function, and `site` is where it was
called. -/
def Act.perform (host : Host) (call : Caller) (name : Text) (site : Location) : Act → Run Value
  | .done v => return v
  | .crash message => Run.fail (.nativeFailed name message) site
  | .raise code message loc =>
    Run.fail (.raised code message) (if loc.line = 0 then site else loc)
  | .fail code message loc => Run.fail (.raised code message) loc
  | .call callee args place next => do
    let v ← call callee args place
    (next v).perform host call name site
  | .attempt callee args place next => do
    let r ← Run.attempt (call callee args place)
    (next r).perform host call name site
  | .write line next => do
    Run.write line
    next.perform host call name site
  | .define global v next => do
    Run.define Machine.globalFrame global v
    next.perform host call name site
  | .lookup global next => do
    (next ((← get).global? global)).perform host call name site
  | .depth next => do
    (next (← get).depth).perform host call name site
  | .clock next => do
    let reading ← modifyGet fun m => (m.readings, { m with readings := m.readings + 1 })
    (next (host.clock reading)).perform host call name site

/-- Checks that a value can be called with the given number of arguments and that one more call may
be under way. -/
def checkCall (host : Host) (callee : Value) (count : Nat) (site : Location) : Run Callable := do
  match callee.asCallable with
  | .error m => Run.fail (.notCallable m.got.typeName) site
  | .ok f =>
    let arity := (← get).arity callee f
    if count ≠ arity then
      Run.fail (.arityMismatch arity count) site
    else if host.maxDepth ≤ (← get).depth then
      Run.fail (.stackOverflow host.maxDepth) site
    else
      return f

/-- Calls a value, with calls nested at most as deep as there is fuel. -/
def callWithin (host : Host) : Nat → Caller
  | 0, _, _, _ => throw .outOfFuel
  | fuel + 1, callee, args, site => do
    let f ← checkCall host callee args.length site
    Run.withCall ⟨f.name, site.line⟩ do
      match callee with
      | .native f =>
        match (← get).natives[f.id]? with
        | some native => (native.body args).perform host (callWithin host fuel) f.name site
        | none => return .nil
      | _ =>
        match (← get).functions[f.id]? with
        | some c => c.run (callWithin host fuel) fuel args
        | none => return .nil

/-! ## Programs -/

/-- Runs top-level statements; one that returns ends only itself. -/
def Program.exec (host : Host) (fuel : Nat) : Program → Run Unit
  | [] => return
  | s :: rest => do
    let _ ← s.exec (callWithin host fuel) fuel Machine.globalFrame
    Program.exec host fuel rest

/-- The outcome of a run: a result or an error, and the machine behind it; none if there was not
enough fuel. -/
def Run.outcome {α : Type} (run : Run α) (m : Machine) : Option (Except RuntimeError α × Machine) :=
  match run m with
  | .ok a m => some (.ok a, m)
  | .error (.error e) m => some (.error e, m)
  | .error .outOfFuel _ => none

end Lox
