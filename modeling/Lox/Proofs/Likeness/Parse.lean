import Lox.Proofs.Likeness.Grammar
import Lox.Proofs.Likeness.Program

/-!
# Tokens at other places

The parser sees kinds, lexemes and values of tokens and passes their locations on. So it does the same
with tokens that differ in their locations only, and gives programs that are alike (`parse_alike`).
-/

namespace Lox

/-- Tokens that differ in their locations at most. -/
structure Token.Alike (t t' : Token) : Prop where
  kind : t.kind = t'.kind
  lexeme : t.lexeme = t'.lexeme
  constant : t.constant = t'.constant

/-- Lists of tokens that differ in locations at most. -/
abbrev Token.ListAlike : List Token → List Token → Prop := List.Forall₂ Token.Alike

namespace Token.Alike

variable {t t' : Token}

theorem isEnd (h : t.Alike t') : t.isEnd = t'.isEnd := by rw [Token.isEnd, Token.isEnd, h.kind]

theorem named (h : t.Alike t') : t.named.Alike anywhere t'.named := ⟨h.lexeme, trivial⟩

theorem operator (h : t.Alike t') : t.operator.Alike anywhere t'.operator :=
  ⟨h.kind, h.lexeme, trivial⟩

theorem value? (h : t.Alike t') : t.value? = t'.value? := by
  rw [Token.value?, Token.value?, h.kind, h.constant]

end Token.Alike

/-! ## Trees -/

theorem Tier.alike_join (tier : Tier) {op op' : Operator} {l l' r r' : Expr}
    (hop : op.Alike anywhere op') (hl : l.Alike anywhere l') (hr : r.Alike anywhere r') :
    (tier.join op l r).Alike anywhere (tier.join op' l' r') := by
  cases tier with
  | or | and => exact .logical hop hl hr
  | _ => exact .binary hop hl hr

theorem Stmt.alike_forLoop {start start' step step' : Option Stmt} {condition condition' : Option Expr}
    {body body' : Stmt} {loc loc' : Location} (hstart : Option.Rel (Stmt.Alike anywhere) start start')
    (hcondition : Option.Rel (Expr.Alike anywhere) condition condition')
    (hstep : Option.Rel (Stmt.Alike anywhere) step step') (hbody : body.Alike anywhere body') :
    (Stmt.forLoop start condition step body loc).Alike anywhere
      (Stmt.forLoop start' condition' step' body' loc') := by
  have htrue : (Expr.literal (.bool true) loc).Alike anywhere (.literal (.bool true) loc') :=
    .literal rfl trivial
  have hcond : (condition.getD (.literal (.bool true) loc)).Alike anywhere
      (condition'.getD (.literal (.bool true) loc')) := by
    cases hcondition with
    | some hc => exact hc
    | none => exact htrue
  -- With a step the round is a block, and the loop is one without a step around that block.
  have hloop {round round' : Stmt} (hround : round.Alike anywhere round') :
      (Stmt.forLoop start condition none round loc).Alike anywhere
        (Stmt.forLoop start' condition' none round' loc') := by
    have hwhile : (Stmt.whileLoop _ round loc).Alike anywhere (.whileLoop _ round' loc') :=
      .whileLoop hcond hround trivial
    cases hstart with
    | some hs => exact .blocks (.cons hs (.cons hwhile .nil)) trivial
    | none => exact hwhile
  cases hstep with
  | some hs => exact hloop (.blocks (.cons hbody (.cons hs .nil)) trivial)
  | none => exact hloop hbody

/-- Tokens at other places, and the trees that are parsed from them. -/
def Grammar.Likeness.moved : Grammar.Likeness where
  rel := Token.Alike
  kind h := h.kind
  endOfInput _ _ := ⟨rfl, rfl, rfl⟩
  name := Name.Alike anywhere
  expr := Expr.Alike anywhere
  stmt := Stmt.Alike anywhere
  named h := h.named
  value {t t'} h := by
    rw [← h.value?]
    cases hv : t.value? with
    | none => exact .none
    | some v => exact .some (.literal (Token.isCallable_of_value? hv) trivial)
  reference h := .reference h
  grouping _ _ he := .grouping he trivial
  unary ht he := .unary ht.operator he
  join tier ht hl hr := tier.alike_join ht.operator hl hr
  call _ _ hf hargs := .calls hf hargs trivial
  assignment he hv := by
    cases he with
    | reference hname => exact .some (.assign hname hv)
    | _ => exact .none
  var hn he := .var hn he
  function hn hps hb := .functions hn hps hb
  expression _ _ he := .expression he trivial
  print _ _ he := .print he trivial
  returnStmt _ _ he := .returnStmt he trivial
  block _ _ hb := .blocks hb trivial
  ifThen _ _ hc hs := .ifThen hc hs trivial
  ifElse _ _ hc hs ho := .ifElse hc hs ho trivial
  whileLoop _ _ hc hs := .whileLoop hc hs trivial
  forLoop _ _ hi hc ha hs := Stmt.alike_forLoop hi hc ha hs

/-! ## Programs -/

/-- Results of parsing that are alike: the programs are, and the same problems were found. -/
structure ParseResult.Alike (r r' : ParseResult) : Prop where
  program : Program.Alike anywhere r.program r'.program
  errors : r.errors.map ParseError.problem = r'.errors.map ParseError.problem

/-- Tokens that differ in their locations are parsed as programs that do, with the same problems. -/
theorem parse_alike {ts ts' : List Token} (h : Token.ListAlike ts ts') : (parse ts).Alike (parse ts') := by
  obtain ⟨hprogram, herrors⟩ := parse_matches .moved h
  exact ⟨hprogram, herrors⟩

end Lox
