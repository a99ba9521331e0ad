import Lox.Proofs.Grammar.WellFormed
import Lox.Proofs.Run.Session

/-!
# No operator is unknown

A tree can hold any token as an operator, and an operator without a meaning would end a run in an error.
Programs that come from the parser hold no such operator, whatever was wrong with their tokens
(`parse_wellMade`). What a run reaches is a node of a loaded program (`Past.fits`), so no such error is
ever raised (`parse_wellFormed`), also where a host runs a program in spite of errors in it.
-/

namespace Lox

/-- The cause of an error is an operator that has no meaning. -/
def Fault.IsUnknownOperator : Fault → Prop
  | .unknownUnary _ | .unknownBinary _ => True
  | _ => False

namespace Operator

variable {op : Operator} {v w : Value} {fault : Fault}

theorem IsToken.kind_mem {ts : List Token} {kinds : List TokenKind} (h : op.IsToken ts kinds) :
    op.kind ∈ kinds := by
  obtain ⟨t, _, hkind, rfl⟩ := h
  exact hkind

theorem known_of_unaryValue (hop : op.kind ∈ unaryKinds) (h : op.unaryValue v = .error fault) :
    ¬fault.IsUnknownOperator := by
  have hkind : op.kind = .bang ∨ op.kind = .minus := by simpa [unaryKinds] using hop
  unfold unaryValue at h
  rcases hkind with hkind | hkind <;> rw [hkind] at h
  · cases h
  · cases v <;> cases h <;> exact id

theorem known_of_onNumbers {f : Number → Number → Value} (h : onNumbers f v w = .error fault) :
    ¬fault.IsUnknownOperator := by
  unfold onNumbers at h
  split at h <;> cases h
  exact id

theorem known_of_plus (h : plus v w = .error fault) : ¬fault.IsUnknownOperator := by
  unfold plus at h
  split at h <;> cases h
  exact id

theorem known_of_binaryValue (hop : op.kind ∈ binaryKinds) (h : op.binaryValue v w = .error fault) :
    ¬fault.IsUnknownOperator := by
  unfold binaryValue at h
  split at h
  case h_1 => exact known_of_plus h
  case h_11 =>
    simp only [binaryKinds, List.mem_cons, List.not_mem_nil, or_false] at hop
    rcases hop with hop | hop | hop | hop | hop | hop | hop | hop | hop | hop <;> contradiction
  all_goals first | exact known_of_onNumbers h | cases h

end Operator

/-- What is raised at a well made node, or where no code is run, is no unknown operator. -/
theorem Raises.known {host : Host} {t : Task} {m : Machine} {fault : Fault} {loc : Location}
    (h : Raises host t m fault loc)
    (ht : ∀ n frame, t.code? = some (n, frame) → ∃ ts, n.WellMade ts) :
    ¬fault.IsUnknownOperator := by
  cases h with
  | unary _ hvalue =>
    obtain ⟨ts, hop⟩ := ht _ _ rfl
    exact Operator.known_of_unaryValue hop.kind_mem hvalue
  | binary _ _ hvalue =>
    obtain ⟨ts, hop⟩ := ht _ _ rfl
    exact Operator.known_of_binaryValue hop.kind_mem hvalue
  | _ => exact id

/-- A node of a program that comes from the parser is well made, from some tokens. -/
theorem Program.FromParser.wellMade {p : Program} (h : p.FromParser) {a : Address} {n : Node}
    (hat : (Node.program p).at? a = some n) : ∃ ts, n.WellMade ts := by
  cases h with
  | parsed ts => exact ⟨ts, parse_wellMade hat⟩
  | resolved settings ts => exact ⟨ts, resolve_wellMade hat⟩

namespace Session

variable {s : Session} {ps : List Program}

theorem Past.fromParser (h : Past s ps) : ∀ p ∈ ps, p.FromParser := by
  induction h with
  | bare => exact List.forall_mem_nil _
  | load _ hp ih => exact List.forall_mem_cons.2 ⟨hp, ih⟩
  | register _ _ ih | constant _ _ _ ih | interpret _ _ _ ih | call _ _ ih => exact ih

/-- The code that is reached is well made. -/
theorem Past.wellMade (h : Past s ps) {t : Task} {m : Machine} (ht : s.Reached ps t m) {n : Node}
    {frame : Nat} (hcode : t.code? = some (n, frame)) : ∃ ts, n.WellMade ts := by
  obtain ⟨_, _, p, hp, a, _, hpoint, _⟩ := h.fits ht hcode
  exact (h.fromParser p hp).wellMade hpoint.at?

theorem Past.known (h : Past s ps) {t : Task} {m : Machine} (ht : s.Reached ps t m) {fault : Fault}
    {loc : Location} (hraises : Raises s.host t m fault loc) : ¬fault.IsUnknownOperator :=
  hraises.known fun _ _ hcode => h.wellMade ht hcode

/-- **Parsed programs are well formed.** Whatever errors the parser finds, every node of the program that
it makes is well formed: its operator is one that has a meaning there, its names are identifiers, it has
the parts that its kind needs, and declarations stand in programs, blocks and functions only. So it is
when the program has been resolved. Running such programs and functions from them, with or without
errors in them, reaches well formed nodes only, and never an operator without a meaning. -/
theorem parse_wellFormed (ts : List Token) :
    (∀ a n, (Node.program (parse ts).program).at? a = some n → n.WellFormed ts) ∧
    (∀ settings a n,
      (Node.program (Program.resolve settings (parse ts).program).1).at? a = some n →
        n.WellFormed ts) ∧
    ∀ s ps, Past s ps →
      (∀ t m n frame, s.Reached ps t m → t.code? = some (n, frame) → ∃ us, n.WellFormed us) ∧
      (∀ t m fault loc, s.Reached ps t m → Raises s.host t m fault loc →
        ¬fault.IsUnknownOperator) ∧
      ∀ e, s.Raised ps e → ¬e.fault.IsUnknownOperator := by
  refine ⟨fun a n hat => (parse_wellMade hat).wellFormed,
    fun settings a n hat => (resolve_wellMade hat).wellFormed, fun s ps h => ?_⟩
  refine ⟨fun t m n frame ht hcode => ?_, fun t m fault loc ht hraises => h.known ht hraises,
    fun e hraised => ?_⟩
  · obtain ⟨us, hmade⟩ := h.wellMade ht hcode
    exact ⟨us, hmade.wellFormed⟩
  · obtain ⟨t, ht, hfails⟩ := hraised.fails
    obtain ⟨t', m', hreach, hraises, -⟩ := hfails.raised
    exact h.known (ht.trans hreach) hraises

/-- The tokens of `-nil;`, and a parenthesis that is an error. -/
def negatedNil : List Token :=
  let token (kind : TokenKind) (text : String) : Token := ⟨kind, utf8 text, none, .nowhere⟩
  [token .minus "-", token .kwNil "nil", token .semicolon ";", token .rightParen ")"]

/-- The statement in front of the error can be run, and ends in an error about the operand. -/
theorem parse_wellFormed_negatedNil :
    ∃ (s : Session) (ps : List Program) (t : Task) (m : Machine) (loc : Location),
      (parse negatedNil).errors ≠ [] ∧ (parse negatedNil).program ∈ ps ∧ Past s ps ∧
        s.Reached ps t m ∧ Raises s.host t m .operandNotNumber loc ∧
        ¬(Fault.operandNotNumber).IsUnknownOperator := by
  let x : Expr := .unary ⟨.minus, utf8 "-", .nowhere⟩ (.literal .nil .nowhere)
  have hp : (parse negatedNil).program = [.expression x .nowhere] := rfl
  let s := bare .default fun _ => .zero
  have hpast : Past s [(parse negatedNil).program] := .load (.bare _ _) (.parsed negatedNil)
  have hreached : s.Reached [(parse negatedNil).program]
      (.eval 0 Machine.globalFrame x) s.machine := by
    rw [hp]
    have hstmt : Reaches s.host (.program 0 [.expression x .nowhere], s.machine)
        (.exec 0 Machine.globalFrame (.expression x .nowhere), s.machine) := .single .firstOfProgram
    exact .interpret List.mem_cons_self (hstmt.tail .expression)
  have hraises : Raises s.host (.eval 0 Machine.globalFrame x) s.machine .operandNotNumber .nowhere :=
    .unary rfl rfl
  exact ⟨s, _, _, _, _, by decide +kernel, List.mem_singleton_self _, hpast, hreached, hraises,
    ((parse_wellFormed negatedNil).2.2 s _ hpast).2.1 _ _ _ _ hreached hraises⟩

end Session

end Lox
