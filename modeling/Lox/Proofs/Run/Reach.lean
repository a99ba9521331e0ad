import Lox.Proofs.Run.Preservation
import Mathlib.Logic.Relation

/-!
# The points of a run

A run is work that begins other work: an expression begins its operands, a statement its parts, a
call the body of the function. `Begins` lists what each piece of work begins and on which machine,
with one rule for each place where the interpreter does so, and `Reaches` follows it to every point of
a run, also of one that never ends or ends in an error. At each of them the frame of the code fits
the scopes around it (`Reaches.fits`).
-/

namespace Lox

/-- A piece of work. Fuel counts as in `callWithin`. -/
inductive Task
  | eval (fuel frame : Nat) (e : Expr)
  | evalAll (fuel frame : Nat) (es : List Expr)
  | exec (fuel frame : Nat) (s : Stmt)
  | execAll (fuel frame : Nat) (body : List Stmt)
  | loop (fuel rounds frame : Nat) (condition : Expr) (body : Stmt)
  | call (fuel : Nat) (callee : Value) (args : List Value) (site : Location)
  | act (fuel : Nat) (name : Text) (site : Location) (act : Act)
  | program (fuel : Nat) (p : Program)

/-- The code that a task runs, and the frame in which it runs it. -/
def Task.code? : Task → Option (Node × Nat)
  | .eval _ frame e => some (.expr e, frame)
  | .exec _ frame s => some (.stmt s, frame)
  | _ => none

/-- The first task, on the first machine, begins the second one on the second machine. -/
inductive Begins (host : Host) : Task → Machine → Task → Machine → Prop
  | grouping {fuel frame : Nat} {m : Machine} {e : Expr} {loc : Location} :
    Begins host (.eval fuel frame (.grouping e loc)) m (.eval fuel frame e) m
  | unary {fuel frame : Nat} {m : Machine} {e : Expr} {op : Operator} :
    Begins host (.eval fuel frame (.unary op e)) m (.eval fuel frame e) m
  | binaryLeft {fuel frame : Nat} {m : Machine} {l r : Expr} {op : Operator} :
    Begins host (.eval fuel frame (.binary op l r)) m (.eval fuel frame l) m
  | binaryRight {fuel frame : Nat} {m m' : Machine} {l r : Expr} {op : Operator} {v : Value} :
    l.eval (callWithin host fuel) frame m = .ok v m' →
      Begins host (.eval fuel frame (.binary op l r)) m (.eval fuel frame r) m'
  | logicalLeft {fuel frame : Nat} {m : Machine} {l r : Expr} {op : Operator} :
    Begins host (.eval fuel frame (.logical op l r)) m (.eval fuel frame l) m
  | logicalRight {fuel frame : Nat} {m m' : Machine} {l r : Expr} {op : Operator} {v : Value} :
    l.eval (callWithin host fuel) frame m = .ok v m' → op.decides v.truthy = false →
      Begins host (.eval fuel frame (.logical op l r)) m (.eval fuel frame r) m'
  | assigned {fuel frame : Nat} {m : Machine} {e : Expr} {name : Name} {d : Option Nat} :
    Begins host (.eval fuel frame (.assign name d e)) m (.eval fuel frame e) m
  | callee {fuel frame : Nat} {m : Machine} {f : Expr} {es : List Expr} {loc : Location} :
    Begins host (.eval fuel frame (.call f es loc)) m (.eval fuel frame f) m
  | arguments {fuel frame : Nat} {m m' : Machine} {f : Expr} {es : List Expr} {loc : Location}
      {v : Value} :
    f.eval (callWithin host fuel) frame m = .ok v m' →
      Begins host (.eval fuel frame (.call f es loc)) m (.evalAll fuel frame es) m'
  | call {fuel frame : Nat} {m m' m'' : Machine} {f : Expr} {es : List Expr} {loc : Location}
      {v : Value} {vs : List Value} :
    f.eval (callWithin host fuel) frame m = .ok v m' →
      Expr.evalAll (callWithin host fuel) frame es m' = .ok vs m'' →
      Begins host (.eval fuel frame (.call f es loc)) m (.call fuel v vs loc) m''
  | firstArgument {fuel frame : Nat} {m : Machine} {e : Expr} {es : List Expr} :
    Begins host (.evalAll fuel frame (e :: es)) m (.eval fuel frame e) m
  | laterArguments {fuel frame : Nat} {m m' : Machine} {e : Expr} {es : List Expr} {v : Value} :
    e.eval (callWithin host fuel) frame m = .ok v m' →
      Begins host (.evalAll fuel frame (e :: es)) m (.evalAll fuel frame es) m'
  | expression {fuel frame : Nat} {m : Machine} {e : Expr} {loc : Location} :
    Begins host (.exec fuel frame (.expression e loc)) m (.eval fuel frame e) m
  | print {fuel frame : Nat} {m : Machine} {e : Expr} {loc : Location} :
    Begins host (.exec fuel frame (.print e loc)) m (.eval fuel frame e) m
  | initializer {fuel frame : Nat} {m : Machine} {e : Expr} {name : Name} :
    Begins host (.exec fuel frame (.var name (some e))) m (.eval fuel frame e) m
  | returned {fuel frame : Nat} {m : Machine} {e : Expr} {loc : Location} :
    Begins host (.exec fuel frame (.returnStmt (some e) loc)) m (.eval fuel frame e) m
  | block {fuel frame inner : Nat} {m m' : Machine} {body : List Stmt} {loc : Location} :
    Run.newFrame frame m = .ok inner m' →
      Begins host (.exec fuel frame (.block body loc)) m (.execAll fuel inner body) m'
  | ifCondition {fuel frame : Nat} {m : Machine} {c : Expr} {branch : Stmt} {loc : Location} :
    Begins host (.exec fuel frame (.ifThen c branch loc)) m (.eval fuel frame c) m
  | ifBranch {fuel frame : Nat} {m m' : Machine} {c : Expr} {branch : Stmt} {loc : Location}
      {v : Value} :
    c.eval (callWithin host fuel) frame m = .ok v m' → v.truthy = true →
      Begins host (.exec fuel frame (.ifThen c branch loc)) m (.exec fuel frame branch) m'
  | elseCondition {fuel frame : Nat} {m : Machine} {c : Expr} {branch otherwise : Stmt}
      {loc : Location} :
    Begins host (.exec fuel frame (.ifElse c branch otherwise loc)) m (.eval fuel frame c) m
  | elseBranch {fuel frame : Nat} {m m' : Machine} {c : Expr} {branch otherwise : Stmt}
      {loc : Location} {v : Value} :
    c.eval (callWithin host fuel) frame m = .ok v m' → v.truthy = true →
      Begins host (.exec fuel frame (.ifElse c branch otherwise loc)) m
        (.exec fuel frame branch) m'
  | elseOtherwise {fuel frame : Nat} {m m' : Machine} {c : Expr} {branch otherwise : Stmt}
      {loc : Location} {v : Value} :
    c.eval (callWithin host fuel) frame m = .ok v m' → v.truthy = false →
      Begins host (.exec fuel frame (.ifElse c branch otherwise loc)) m
        (.exec fuel frame otherwise) m'
  | whileLoop {fuel frame : Nat} {m : Machine} {c : Expr} {s : Stmt} {loc : Location} :
    Begins host (.exec fuel frame (.whileLoop c s loc)) m (.loop fuel fuel frame c s) m
  | loopCondition {fuel frame rounds : Nat} {m : Machine} {c : Expr} {s : Stmt} :
    Begins host (.loop fuel (rounds + 1) frame c s) m (.eval fuel frame c) m
  | loopBody {fuel frame rounds : Nat} {m m' : Machine} {c : Expr} {s : Stmt} {v : Value} :
    c.eval (callWithin host fuel) frame m = .ok v m' → v.truthy = true →
      Begins host (.loop fuel (rounds + 1) frame c s) m (.exec fuel frame s) m'
  | loopAgain {fuel frame rounds : Nat} {m m' m'' : Machine} {c : Expr} {s : Stmt} {v : Value} :
    c.eval (callWithin host fuel) frame m = .ok v m' → v.truthy = true →
      s.exec (callWithin host fuel) fuel frame m' = .ok .next m'' →
      Begins host (.loop fuel (rounds + 1) frame c s) m (.loop fuel rounds frame c s) m''
  | firstStatement {fuel frame : Nat} {m : Machine} {s : Stmt} {rest : List Stmt} :
    Begins host (.execAll fuel frame (s :: rest)) m (.exec fuel frame s) m
  | laterStatements {fuel frame : Nat} {m m' : Machine} {s : Stmt} {rest : List Stmt} :
    s.exec (callWithin host fuel) fuel frame m = .ok .next m' →
      Begins host (.execAll fuel frame (s :: rest)) m (.execAll fuel frame rest) m'
  | function {fuel frame : Nat} {m m' : Machine} {site : Location} {args : List Value}
      {g : Callable} {c : Closure} :
    checkCall host (.function g) args.length site m = .ok g m → m.functions[g.id]? = some c →
      c.enter args { m with calls := ⟨g.name, site.line⟩ :: m.calls } = .ok frame m' →
      Begins host (.call (fuel + 1) (.function g) args site) m (.execAll fuel frame c.body) m'
  | native {fuel : Nat} {m : Machine} {site : Location} {args : List Value} {g : Callable}
      {native : Native} :
    checkCall host (.native g) args.length site m = .ok g m → m.natives[g.id]? = some native →
      Begins host (.call (fuel + 1) (.native g) args site) m
        (.act fuel g.name site (native.body args))
        { m with calls := ⟨g.name, site.line⟩ :: m.calls }
  | actCall {fuel : Nat} {m : Machine} {site place : Location} {callee : Value} {args : List Value}
      {n : Text} {next : Value → Act} :
    Begins host (.act fuel n site (.call callee args place next)) m
      (.call fuel callee args place) m
  | actCalled {fuel : Nat} {m m' : Machine} {site place : Location} {v callee : Value}
      {args : List Value} {n : Text} {next : Value → Act} :
    callWithin host fuel callee args place m = .ok v m' →
      Begins host (.act fuel n site (.call callee args place next)) m (.act fuel n site (next v)) m'
  | actAttempt {fuel : Nat} {m : Machine} {site place : Location} {callee : Value}
      {args : List Value} {n : Text} {next : Except RuntimeError Value → Act} :
    Begins host (.act fuel n site (.attempt callee args place next)) m
      (.call fuel callee args place) m
  | actAttempted {fuel : Nat} {m m' : Machine} {site place : Location} {callee : Value}
      {args : List Value} {n : Text} {next : Except RuntimeError Value → Act}
      {result : Except RuntimeError Value} :
    Run.attempt (callWithin host fuel callee args place) m = .ok result m' →
      Begins host (.act fuel n site (.attempt callee args place next)) m
        (.act fuel n site (next result)) m'
  | actWrite {fuel : Nat} {m m' : Machine} {site : Location} {n line : Text} {next : Act} :
    Run.write line m = .ok () m' →
      Begins host (.act fuel n site (.write line next)) m (.act fuel n site next) m'
  | actDefine {fuel : Nat} {m m' : Machine} {site : Location} {v : Value} {n global : Text}
      {next : Act} :
    Run.define Machine.globalFrame global v m = .ok () m' →
      Begins host (.act fuel n site (.define global v next)) m (.act fuel n site next) m'
  | actLookup {fuel : Nat} {m : Machine} {site : Location} {n global : Text}
      {next : Option Value → Act} :
    Begins host (.act fuel n site (.lookup global next)) m
      (.act fuel n site (next (m.global? global))) m
  | actDepth {fuel : Nat} {m : Machine} {site : Location} {n : Text} {next : Nat → Act} :
    Begins host (.act fuel n site (.depth next)) m (.act fuel n site (next m.depth)) m
  | actClock {fuel : Nat} {m : Machine} {site : Location} {n : Text} {next : Number → Act} :
    Begins host (.act fuel n site (.clock next)) m
      (.act fuel n site (next (host.clock m.readings))) { m with readings := m.readings + 1 }
  | firstOfProgram {fuel : Nat} {m : Machine} {s : Stmt} {rest : List Stmt} :
    Begins host (.program fuel (s :: rest)) m (.exec fuel Machine.globalFrame s) m
  | laterOfProgram {fuel : Nat} {m m' : Machine} {s : Stmt} {rest : List Stmt} {flow : Flow} :
    s.exec (callWithin host fuel) fuel Machine.globalFrame m = .ok flow m' →
      Begins host (.program fuel (s :: rest)) m (.program fuel rest) m'

/-- One task, with the machine on which it begins, leads to another. -/
def Reaches (host : Host) : Task × Machine → Task × Machine → Prop :=
  Relation.ReflTransGen fun x y => Begins host x.1 x.2 y.1 y.2

/-! ## Code in its frame -/

variable {ps : List Program}

/-- The node is one of a program, and the frame is that of the scopes around it. -/
def Node.Fits (ps : List Program) (n : Node) (frame : Nat) : Condition := fun own m =>
  ∃ p ∈ ps, ∃ a ctx, Point (.program p) [] a n ctx ∧ At ctx frame own m

/-- What holds of a task when it begins. -/
def Task.Fits (ps : List Program) : Task → Condition
  | .eval _ frame e => Node.Fits ps (.expr e) frame
  | .evalAll _ frame es => fun own m => ∀ e ∈ es, Node.Fits ps (.expr e) frame own m
  | .exec _ frame s => Node.Fits ps (.stmt s) frame
  | .execAll _ frame body => fun own m =>
    ∃ p ∈ ps, ∃ a n ctx before, Point (.program p) [] a n ctx ∧
      n.children = (before ++ body).map .stmt ∧
        At ((n.opened ctx).declareAll (before.flatMap Stmt.hoisted)) frame own m
  | .loop _ _ frame c body => fun own m =>
    ∃ loc, Node.Fits ps (.stmt (.whileLoop c body loc)) frame own m
  | .program _ rest => fun _ _ => ∃ before, before ++ rest ∈ ps
  | .call .. | .act .. => fun _ _ => True

namespace Node

variable {own own' : Owners} {m m' : Machine} {frame : Nat}

theorem Fits.grows {n : Node} (h : Node.Fits ps n frame own m)
    (hg : Grows own own' m.frames m'.frames) : Node.Fits ps n frame own' m' := by
  obtain ⟨p, hp, a, ctx, hpoint, hctx⟩ := h
  exact ⟨p, hp, a, ctx, hpoint, hctx.grows hg⟩

theorem Fits.operand {e e' : Expr} (h : Node.Fits ps (.expr e) frame own m)
    (he : e' ∈ e.children) : Node.Fits ps (.expr e') frame own m := by
  obtain ⟨p, hp, a, ctx, hpoint, hctx⟩ := h
  obtain ⟨i, hi⟩ := List.getElem?_of_mem (List.mem_map_of_mem (f := Node.expr) he)
  have henter : (Node.expr e).enter ctx i = ctx := by
    rw [enter, opened_expr]
    show Context.declareAll ctx (((e.children.map Node.expr).take i).flatMap hoisted) = ctx
    rw [flatMap_hoisted_expr, Context.declareAll_nil]
  exact ⟨p, hp, a ++ [i], ctx, henter ▸ hpoint.child hi, hctx⟩

/-- The parts of a statement that declares nothing and opens no scope. -/
theorem Fits.inner (hps : ∀ p ∈ ps, (Node.program p).DeclaresDirectly) {s : Stmt} {n : Node}
    (h : Node.Fits ps (.stmt s) frame own m) (hscope : (Node.stmt s).isScope = false)
    (hnone : s.declared? = none) (hn : n ∈ s.children) : Node.Fits ps n frame own m := by
  obtain ⟨p, hp, a, ctx, hpoint, hctx⟩ := h
  obtain ⟨i, hi⟩ := List.getElem?_of_mem hn
  have hhoisted : s.hoisted = [] := by rw [hps p hp a s hpoint.at?, hnone]; rfl
  exact ⟨p, hp, a ++ [i], ctx, hpoint.inner hscope hhoisted hi, hctx⟩

theorem Fits.initializer {name : Name} {e : Expr}
    (h : Node.Fits ps (.stmt (.var name (some e))) frame own m) :
    Node.Fits ps (.expr e) frame own m := by
  obtain ⟨p, hp, a, ctx, hpoint, hctx⟩ := h
  have hchild := hpoint.child (i := 0) rfl
  have henter : (Node.stmt (.var name (some e))).enter ctx 0 =
      ctx.modifyHead (·.add [name.text] []) := Context.declareAll_nil _
  exact ⟨p, hp, a ++ [0], _, hchild, henter ▸ hctx.add_visible [name.text]⟩

end Node

namespace Run

variable {α : Type} {x : Run α} {own : Owners} {m m' : Machine} {v : α}

/-- A result comes with the invariant, frames have grown, and the condition behind it holds. -/
theorem Keeps.of_ok {P : Condition} {Q : α → Condition} (h : Keeps ps P x Q) (hm : Scoped ps own m)
    (hP : P own m) (hx : x m = .ok v m') :
    ∃ own', Scoped ps own' m' ∧ Grows own own' m.frames m'.frames ∧ Q v own' m' := by
  obtain ⟨own', hm', hg, hQ⟩ := h own m hm hP
  rw [final_eq_of_ok hx] at hm' hg
  exact ⟨own', hm', hg, hQ v m' hx⟩

theorem Safe.of_ok (h : Safe ps x) (hm : Scoped ps own m) (hx : x m = .ok v m') :
    ∃ own', Scoped ps own' m' ∧ Grows own own' m.frames m'.frames := by
  obtain ⟨own', hm', hg, _⟩ := Keeps.of_ok h hm trivial hx
  exact ⟨own', hm', hg⟩

end Run

/-! ## What fitting tasks begin -/

section Begins

variable {host : Host} {t' : Task} {own : Owners} {m m' : Machine} {fuel frame : Nat}

theorem safe_eval_within (hps : ∀ p ∈ ps, (Node.program p).DeclaresDirectly) (host : Host)
    (fuel frame : Nat) (e : Expr) : Run.Safe ps (e.eval (callWithin host fuel) frame) :=
  Expr.safe_eval (safe_callWithin hps host fuel) frame e

theorem Begins.fits_of_eval (hps : ∀ p ∈ ps, (Node.program p).DeclaresDirectly) {e : Expr}
    (h : Begins host (.eval fuel frame e) m t' m') (hm : Scoped ps own m)
    (ht : Node.Fits ps (.expr e) frame own m) : ∃ own', Scoped ps own' m' ∧ t'.Fits ps own' m' := by
  cases h with
  | grouping | unary | binaryLeft | logicalLeft | assigned | callee =>
    exact ⟨own, hm, ht.operand (by simp [Expr.children])⟩
  | binaryRight hl | logicalRight hl =>
    obtain ⟨own', hm', hg⟩ := (safe_eval_within hps host _ _ _).of_ok hm hl
    exact ⟨own', hm', (ht.operand (by simp [Expr.children])).grows hg⟩
  | arguments hf =>
    obtain ⟨own', hm', hg⟩ := (safe_eval_within hps host _ _ _).of_ok hm hf
    exact ⟨own', hm', fun e he => (ht.operand (by simp [Expr.children, he])).grows hg⟩
  | call hf hargs =>
    obtain ⟨own', hm', _⟩ := (safe_eval_within hps host _ _ _).of_ok hm hf
    obtain ⟨own'', hm'', _⟩ :=
      (Expr.safe_evalAll (safe_callWithin hps host _) _ _).of_ok hm' hargs
    exact ⟨own'', hm'', trivial⟩

theorem Begins.fits_of_exec (hps : ∀ p ∈ ps, (Node.program p).DeclaresDirectly) {s : Stmt}
    (h : Begins host (.exec fuel frame s) m t' m') (hm : Scoped ps own m)
    (ht : Node.Fits ps (.stmt s) frame own m) : ∃ own', Scoped ps own' m' ∧ t'.Fits ps own' m' := by
  cases h with
  | initializer => exact ⟨own, hm, ht.initializer⟩
  | expression | print | returned | ifCondition | elseCondition =>
    exact ⟨own, hm, ht.inner hps rfl rfl (by simp [Stmt.children])⟩
  | block hnew =>
    obtain ⟨p, hp, a, ctx, hpoint, hctx⟩ := ht
    obtain ⟨own', hm', _, hinner⟩ := (Run.keeps_newFrame ctx _ _).of_ok hm hctx hnew
    refine ⟨own', hm', p, hp, a, _, ctx, [], hpoint, rfl, ?_⟩
    rw [Stmt.opened_eq, List.flatMap_nil, Context.declareAll_nil]
    exact hinner
  | ifBranch hc | elseBranch hc | elseOtherwise hc =>
    obtain ⟨own', hm', hg⟩ := (safe_eval_within hps host _ _ _).of_ok hm hc
    exact ⟨own', hm', (ht.inner hps rfl rfl (by simp [Stmt.children])).grows hg⟩
  | whileLoop => exact ⟨own, hm, _, ht⟩

theorem Begins.fits_of_execAll (hps : ∀ p ∈ ps, (Node.program p).DeclaresDirectly)
    {body : List Stmt} (h : Begins host (.execAll fuel frame body) m t' m') (hm : Scoped ps own m)
    (ht : (Task.execAll fuel frame body).Fits ps own m) :
    ∃ own', Scoped ps own' m' ∧ t'.Fits ps own' m' := by
  obtain ⟨p, hp, a, n, ctx, before, hpoint, hchildren, hctx⟩ := ht
  cases h with
  | firstStatement => exact ⟨own, hm, p, hp, _, _, hpoint.next hchildren, hctx⟩
  | @laterStatements _ _ _ _ s _ hs =>
    have hexec := Stmt.keeps_exec hps (safe_callWithin hps host fuel) fuel hp s
      (hpoint.next hchildren) frame
    obtain ⟨own', hm', _, hbehind⟩ := hexec.of_ok hm hctx hs
    refine ⟨own', hm', p, hp, a, n, ctx, before ++ [s], hpoint, ?_, ?_⟩
    · rw [hchildren, List.append_assoc]
      rfl
    · rw [List.flatMap_append, Context.declareAll_append, List.flatMap_singleton]
      exact hbehind rfl

/-- A loop that fits goes on in the frame in which it began. -/
theorem Begins.fits_of_loop (hps : ∀ p ∈ ps, (Node.program p).DeclaresDirectly) {rounds : Nat}
    {c : Expr} {s : Stmt} (h : Begins host (.loop fuel rounds frame c s) m t' m')
    (hm : Scoped ps own m) {loc : Location}
    (ht : Node.Fits ps (.stmt (.whileLoop c s loc)) frame own m) :
    ∃ own', Scoped ps own' m' ∧ t'.Fits ps own' m' := by
  have hbody : Node.Fits ps (.stmt s) frame own m := ht.inner hps rfl rfl (by simp [Stmt.children])
  cases h with
  | loopCondition => exact ⟨own, hm, ht.inner hps rfl rfl (by simp [Stmt.children])⟩
  | loopBody hc =>
    obtain ⟨own', hm', hg⟩ := (safe_eval_within hps host _ _ _).of_ok hm hc
    exact ⟨own', hm', hbody.grows hg⟩
  | loopAgain hc _ hs =>
    obtain ⟨own', hm', hg⟩ := (safe_eval_within hps host _ _ _).of_ok hm hc
    obtain ⟨p, hp, a, ctx, hpoint, hctx⟩ := hbody.grows hg
    have hexec := Stmt.keeps_exec hps (safe_callWithin hps host fuel) fuel hp s hpoint frame
    obtain ⟨own'', hm'', hg', _⟩ := hexec.of_ok hm' hctx hs
    exact ⟨own'', hm'', loc, (ht.grows hg).grows hg'⟩

/-- A function that is called is one of a program, so its body fits the frame that is made for it. -/
theorem Begins.fits_of_call {callee : Value} {args : List Value} {site : Location}
    (h : Begins host (.call fuel callee args site) m t' m') (hm : Scoped ps own m) :
    ∃ own', Scoped ps own' m' ∧ t'.Fits ps own' m' := by
  cases h with
  | native => exact ⟨own, hm.congr rfl rfl, trivial⟩
  | @function _ _ _ _ _ _ g c hcheck hc henter =>
    obtain ⟨_, _, _, _, hcount⟩ := (keeps_checkCall host _ _ _).of_ok hm trivial hcheck
    have hlength : args.length = c.parameters.length := by
      rw [hcount, Machine.arity, hc]
      rfl
    obtain ⟨p, hp, a, name, ctx, hpoint, hctx⟩ := hm.closures c (Array.mem_of_getElem? hc)
    have hcalls : Scoped ps own { m with calls := ⟨g.name, site.line⟩ :: m.calls } :=
      hm.congr rfl rfl
    obtain ⟨own', hm', _, hinner⟩ := (keeps_enter name c args hlength).of_ok hcalls hctx henter
    refine ⟨own', hm', p, hp, a, _, ctx, [], hpoint, rfl, ?_⟩
    rw [List.flatMap_nil, Context.declareAll_nil]
    exact hinner

theorem Begins.fits_of_act (hps : ∀ p ∈ ps, (Node.program p).DeclaresDirectly) {name : Text}
    {site : Location} {a : Act} (h : Begins host (.act fuel name site a) m t' m')
    (hm : Scoped ps own m) : ∃ own', Scoped ps own' m' ∧ t'.Fits ps own' m' := by
  cases h with
  | actCall | actAttempt | actLookup | actDepth => exact ⟨own, hm, trivial⟩
  | actClock => exact ⟨own, hm.congr rfl rfl, trivial⟩
  | actCalled hcall =>
    obtain ⟨own', hm', _⟩ := (safe_callWithin hps host _ _ _ _).of_ok hm hcall
    exact ⟨own', hm', trivial⟩
  | actAttempted hcall =>
    obtain ⟨own', hm', _⟩ :=
      (Run.safe_attempt (safe_callWithin hps host _ _ _ _)).of_ok hm hcall
    exact ⟨own', hm', trivial⟩
  | actWrite hwrite =>
    obtain ⟨own', hm', _⟩ := (Run.safe_write _).of_ok hm hwrite
    exact ⟨own', hm', trivial⟩
  | actDefine hdefine =>
    obtain ⟨own', hm', _⟩ := (Run.safe_defineGlobal _ _).of_ok hm hdefine
    exact ⟨own', hm', trivial⟩

theorem Begins.fits_of_program (hps : ∀ p ∈ ps, (Node.program p).DeclaresDirectly) {p : Program}
    (h : Begins host (.program fuel p) m t' m') (hm : Scoped ps own m) {before : List Stmt}
    (hp : before ++ p ∈ ps) : ∃ own', Scoped ps own' m' ∧ t'.Fits ps own' m' := by
  cases h with
  | firstOfProgram => exact ⟨own, hm, _, hp, _, _, Point.root.next rfl, rfl⟩
  | @laterOfProgram _ _ _ s _ _ hs =>
    have hexec := Stmt.keeps_exec hps (safe_callWithin hps host fuel) fuel hp s
      (Point.root.next rfl) Machine.globalFrame
    obtain ⟨own', hm', _, _⟩ := hexec.of_ok hm rfl hs
    exact ⟨own', hm', before ++ [s], by rwa [List.append_assoc]⟩

/-- A task that fits begins tasks that fit. -/
theorem Begins.fits (hps : ∀ p ∈ ps, (Node.program p).DeclaresDirectly) {t : Task}
    (h : Begins host t m t' m') (hm : Scoped ps own m) (ht : t.Fits ps own m) :
    ∃ own', Scoped ps own' m' ∧ t'.Fits ps own' m' := by
  cases t with
  | eval => exact h.fits_of_eval hps hm ht
  | evalAll fuel frame es =>
    cases h with
    | firstArgument => exact ⟨own, hm, ht _ List.mem_cons_self⟩
    | laterArguments he =>
      obtain ⟨own', hm', hg⟩ := (safe_eval_within hps host _ _ _).of_ok hm he
      exact ⟨own', hm', fun e he => (ht e (List.mem_cons_of_mem _ he)).grows hg⟩
  | exec => exact h.fits_of_exec hps hm ht
  | execAll => exact h.fits_of_execAll hps hm ht
  | loop =>
    obtain ⟨loc, ht⟩ := ht
    exact h.fits_of_loop hps hm ht
  | call => exact h.fits_of_call hm
  | act => exact h.fits_of_act hps hm
  | program =>
    obtain ⟨before, hp⟩ := ht
    exact h.fits_of_program hps hm hp

end Begins

/-- Every task that one that fits leads to fits. -/
theorem Reaches.fits (hps : ∀ p ∈ ps, (Node.program p).DeclaresDirectly) {host : Host}
    {x y : Task × Machine} {own : Owners} (h : Reaches host x y) (hm : Scoped ps own x.2)
    (hx : x.1.Fits ps own x.2) : ∃ own', Scoped ps own' y.2 ∧ y.1.Fits ps own' y.2 := by
  induction h with
  | refl => exact ⟨own, hm, hx⟩
  | tail _ hstep ih =>
    obtain ⟨own', hm', hfits⟩ := ih
    exact hstep.fits hps hm' hfits

end Lox
