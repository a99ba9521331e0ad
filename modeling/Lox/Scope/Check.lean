import Lox.Scope.Distance
import Lox.Scope.Issue

/-!
# Checking names

Goes through a program from left to right and reports what is wrong with its names, in the order
in which it is met; the unused names of a scope are reported where the scope ends, in the order of
their declarations. Only reading a name uses it, and parameters need not be used.

Global names may be read before their declaration, from inside of functions, so the names declared
at top level are known from the start.
-/

namespace Lox

/-- What the check depends on besides the program. -/
structure ScopeSettings where
  /-- Whether to report names that are never read. -/
  reportUnused : Bool
  /-- The global names that exist before the program runs. -/
  predefined : List Text

/-- A name declared in a scope. -/
structure Declaration where
  name : Name
  isParameter : Bool
  initialized : Bool
  used : Bool

/-- The declarations of one scope, in their order. -/
abbrev Declarations := List Declaration

namespace Declarations

/-- The declaration of a name. -/
def find? (ds : Declarations) (name : Text) : Option Declaration :=
  List.find? (·.name.text == name) ds

/-- Whether a name is declared. -/
def declares (ds : Declarations) (name : Text) : Bool := ds.any (·.name.text == name)

/-- Changes the declaration of a name. -/
def update (ds : Declarations) (name : Text) (f : Declaration → Declaration) : Declarations :=
  ds.map fun d => if d.name.text == name then f d else d

/-- The declarations that nothing reads. -/
def unused (ds : Declarations) : List Name :=
  (ds.filter fun d => !d.used && !d.isParameter).map (·.name)

end Declarations

/-- Marks a name as used in the nearest scope that declares it. -/
def markUsed (name : Text) : List Declarations → List Declarations
  | [] => []
  | ds :: outer =>
    if ds.declares name then ds.update name (fun d => { d with used := true }) :: outer
    else ds :: markUsed name outer

/-- The state of the check. -/
structure Checked where
  /-- The open scopes, innermost first. -/
  scopes : List Declarations
  /-- The global names whose declaration is complete. -/
  defined : List Text
  /-- The issues found so far. -/
  issues : List ScopeIssue

/-- A step of the check. -/
abbrev Check := StateM Checked

namespace Check

/-- Reports an issue. -/
def note (problem : ScopeProblem) (loc : Location) : Check Unit :=
  modify fun c => { c with issues := c.issues ++ [⟨problem, loc⟩] }

/-- Declares a name in the innermost scope. A second declaration of a name is reported, and the
first one stays. -/
def declare (name : Name) (isParameter : Bool) : Check Unit := do
  match (← get).scopes with
  | [] => return
  | ds :: outer =>
    if ds.declares name.text then
      note (.duplicateDeclaration name.text) name.loc
    else
      modify fun c => { c with scopes := (ds ++ [⟨name, isParameter, false, false⟩]) :: outer }

/-- Completes the declaration of a name, in the innermost scope or as a global. -/
def define (name : Text) : Check Unit :=
  modify fun c =>
    match c.scopes with
    | [] => { c with defined := name :: c.defined }
    | ds :: outer =>
      { c with scopes := ds.update name (fun d => { d with initialized := true }) :: outer }

/-- Opens a scope. -/
def openScope : Check Unit := modify fun c => { c with scopes := [] :: c.scopes }

/-- Closes the innermost scope. -/
def closeScope (settings : ScopeSettings) : Check Unit := do
  match (← get).scopes with
  | [] => return
  | ds :: outer =>
    if settings.reportUnused then
      ds.unused.forM fun name => note (.unusedVariable name.text) name.loc
    modify fun c => { c with scopes := outer }

/-- Whether an open scope declares a name. -/
def isLocal (name : Text) : Check Bool := do
  return (← get).scopes.any (·.declares name)

/-- Whether the innermost scope declares a name without having completed its declaration. -/
def isInitializing (name : Text) : Check Bool := do
  return (((← get).scopes.head?.bind (·.find? name)).map (!·.initialized)).getD false

end Check

namespace Expr

mutual

/-- Checks an expression. `known` are the global names, and `initializing` is the global variable
whose initializer the expression belongs to. -/
def check (known : List Text) (initializing : Option Text) : Expr → Check Unit
  | .literal _ _ => return
  | .grouping e _ | .unary _ e => e.check known initializing
  | .binary _ l r | .logical _ l r => do
    l.check known initializing
    r.check known initializing
  | .reference name _ => do
    if ← Check.isInitializing name.text then
      Check.note (.localReadInInitializer name.text) name.loc
    if ← Check.isLocal name.text then
      modify fun c => { c with scopes := markUsed name.text c.scopes }
    else if initializing = some name.text && !(← get).defined.contains name.text then
      Check.note (.globalReadInInitializer name.text) name.loc
    else if !known.contains name.text then
      Check.note (.undeclaredVariable name.text) name.loc
  | .assign name _ e => do
    e.check known initializing
    if !(← Check.isLocal name.text) && !known.contains name.text then
      Check.note (.undeclaredVariable name.text) name.loc
  | .call f args _ => do
    f.check known initializing
    checkAll known initializing args

/-- Checks expressions in a row. -/
def checkAll (known : List Text) (initializing : Option Text) : List Expr → Check Unit
  | [] => return
  | e :: es => do
    e.check known initializing
    checkAll known initializing es

end

/-- Checks an expression that may be absent. -/
def checkOption (known : List Text) (initializing : Option Text) : Option Expr → Check Unit
  | none => return
  | some e => e.check known initializing

end Expr

namespace Stmt

mutual

/-- Checks a statement. -/
def check (settings : ScopeSettings) (known : List Text) (inFunction : Bool) : Stmt → Check Unit
  | .expression e _ | .print e _ => e.check known none
  | .var name e => do
    Check.declare name false
    let initializing := if (← get).scopes.isEmpty then some name.text else none
    Expr.checkOption known initializing e
    Check.define name.text
  | .block body _ => do
    Check.openScope
    checkAll settings known inFunction body
    Check.closeScope settings
  | .ifThen c branch _ => do
    c.check known none
    branch.check settings known inFunction
  | .ifElse c branch otherwise _ => do
    c.check known none
    branch.check settings known inFunction
    otherwise.check settings known inFunction
  | .whileLoop c body _ => do
    c.check known none
    body.check settings known inFunction
  | .function name params body => do
    Check.declare name false
    Check.define name.text
    Check.openScope
    params.forM fun param => do
      Check.declare param true
      Check.define param.text
    checkAll settings known true body
    Check.closeScope settings
  | .returnStmt e loc => do
    if !inFunction then
      Check.note .returnOutsideFunction loc
    Expr.checkOption known none e

/-- Checks statements in a row. -/
def checkAll (settings : ScopeSettings) (known : List Text) (inFunction : Bool) :
    List Stmt → Check Unit
  | [] => return
  | s :: rest => do
    s.check settings known inFunction
    checkAll settings known inFunction rest

end

/-- The name that a statement declares. -/
def declared? : Stmt → Option Text
  | .var name _ | .function name _ _ => some name.text
  | _ => none

end Stmt

namespace Program

/-- The names declared at top level. -/
def globals (p : Program) : List Text := p.filterMap Stmt.declared?

/-- The issues of a program. -/
def issues (settings : ScopeSettings) (p : Program) : List ScopeIssue :=
  let known := settings.predefined ++ p.globals
  let start : Checked := ⟨[], settings.predefined, []⟩
  ((Stmt.checkAll settings known false p).run start).2.issues

/-- The program with its distances, and what is wrong with its names. -/
def resolve (settings : ScopeSettings) (p : Program) : Program × List ScopeIssue :=
  (Program.bind p, Program.issues settings p)

end Program

end Lox
