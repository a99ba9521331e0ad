import Lox.Proofs.Likeness.Eval
import Lox.Proofs.Likeness.Scope
import Lox.Proofs.Likeness.Similar

/-!
# Similar programs behave alike

Parsed programs that are similar have the same distances and the same issues, and they end alike on
machines alike, as long as no literal is a negative zero (`parse_similar_behaves`). Source texts have
no such literal (`noNegativeZero_tokenize`). Token lists may, and then similar programs can tell the two
zeros apart, by dividing by them (`parse_similar_misbehaves`).
-/

namespace Lox

/-! ## Negative zero -/

/-- The zero with its sign bit set. -/
def Number.negativeZero : Number := Number.zero.neg

/-- No token stands for the negative zero. -/
def NoNegativeZero (ts : List Token) : Prop :=
  ∀ t ∈ ts, t.value? ≠ some (.number .negativeZero)

instance : DecidablePred NoNegativeZero := fun ts =>
  inferInstanceAs (Decidable (∀ t ∈ ts, t.value? ≠ some (.number .negativeZero)))

/-- There are two zeros. -/
theorem Number.eq_zero {x : Number} (h : x.magnitudeBits = 0) (hx : x ≠ negativeZero) :
    x = zero := by
  obtain ⟨bits⟩ := x
  have hbits : bits.toNat % 2 ^ 63 = 0 := h
  have hlt : bits.toNat < 2 ^ 64 := bits.toNat_lt
  have hcases : bits.toNat = 0 ∨ bits.toNat = 2 ^ 63 := by omega
  rcases hcases with h | h
  · exact congrArg Number.mk (UInt64.toNat_inj.1 h)
  · exact absurd (congrArg Number.mk (UInt64.toNat_inj.1 h)) hx

/-- Numbers that are equal and neither of which is the negative zero are the same. -/
theorem Number.eq_of_equal {x y : Number} (h : x.equal y = true) (hx : x ≠ negativeZero)
    (hy : y ≠ negativeZero) : x = y := by
  rw [equal, Bool.and_eq_true, Bool.or_eq_true, Bool.and_eq_true (x.magnitudeBits == 0)] at h
  rcases h.2 with hbits | ⟨hzero, hzero'⟩
  · exact congrArg Number.mk (beq_iff_eq.1 hbits)
  · rw [eq_zero (beq_iff_eq.1 hzero) hx, eq_zero (beq_iff_eq.1 hzero') hy]

theorem distinguishes_nonnegative :
    Distinguishes fun v => v.isCallable = false ∧ v ≠ .number .negativeZero := by
  rintro v w ⟨hv, hvzero⟩ ⟨hw, hwzero⟩ h
  refine ⟨?_, hv⟩
  cases v with
  | nil => cases w with
    | nil => rfl
    | _ => cases h
  | bool a => cases w with
    | bool b => rw [beq_iff_eq.1 h]
    | _ => cases h
  | number x => cases w with
    | number y =>
      exact congrArg _ (Number.eq_of_equal h (fun he => hvzero (congrArg _ he))
        fun he => hwzero (congrArg _ he))
    | _ => cases h
  | string s => cases w with
    | string t => rw [beq_iff_eq.1 h]
    | _ => cases h
  | function | native => cases hv

/-- The number of a token is the one that its lexeme denotes. -/
theorem Token.Spelled.number {t : Token} (h : t.Spelled) {x : Number}
    (hx : t.value? = some (.number x)) : x = Number.ofNumeral t.lexeme := by
  unfold value? at hx
  split at hx
  case h_4 hkind hconstant =>
    cases hx
    rw [h.2, hkind] at hconstant
    cases hconstant
    rfl
  all_goals cases hx

/-- No source has a literal that is the negative zero. -/
theorem noNegativeZero_tokenize (source : Text) : NoNegativeZero (tokenize source).tokens := by
  intro t ht hv
  rcases spelled_tokenize source t ht with hend | hspelled
  · rw [Token.value?, beq_iff_eq.1 hend] at hv
    cases hv
  · have hsign : (Number.ofNumeral t.lexeme).isNegative = false := (Number.ofUnits_spec _ _).1
    rw [← hspelled.number hv] at hsign
    exact absurd hsign (by decide)

/-- Parsed programs that are similar are alike, unless they have a literal that is the negative
zero. -/
theorem parse_alike_of_similar {ts ts' : List Token} (hts : NoNegativeZero ts)
    (hts' : NoNegativeZero ts') (h : (parse ts).program.similar (parse ts').program = true) :
    Program.Alike anywhere (parse ts).program (parse ts').program := by
  have hliterals {ts : List Token} (hts : NoNegativeZero ts) :
      (Node.program (parse ts).program).Literals
        fun v => v.isCallable = false ∧ v ≠ .number .negativeZero :=
    parse_literals ⟨rfl, nofun⟩ fun t ht v hv =>
      ⟨Token.isCallable_of_value? hv, fun hzero => hts t ht (hzero ▸ hv)⟩
  have halike := Stmt.forall₂_alike_of_similar distinguishes_nonnegative
    (fun s hs => (hliterals hts).child (List.mem_map_of_mem hs))
    (fun s hs => (hliterals hts').child (List.mem_map_of_mem hs)) h
  rw [← unbind_parse ts, ← unbind_parse ts']
  rwa [Program.unbind, Program.unbind, Stmt.unbindAll_eq_map, Stmt.unbindAll_eq_map]

/-! ## Outcomes -/

/-- Both runs come to a result, or both end in errors that are alike. -/
inductive ResultsAlike {α β : Type} : Except RuntimeError α → Except RuntimeError β → Prop
  | ok (a : α) (b : β) : ResultsAlike (.ok a) (.ok b)
  | error {e e' : RuntimeError} : e.Alike e' → ResultsAlike (.error e) (.error e')

/-- The runs from two machines end alike: they write the same lines, and what has been linked stays
linked on the machines behind them, which are alike. -/
structure OutcomesAlike {α β : Type} (host host' : Host) (l : Link) (m m' : Machine)
    (r : Except RuntimeError α × Machine) (r' : Except RuntimeError β × Machine) : Prop where
  results : ResultsAlike r.1 r'.1
  lines : Machine.SameLines m m' r.2 r'.2
  machines : ∃ l₁, l.Extends l₁ ∧ r.2.Alike host host' l₁ r'.2

/-- Runs that agree have outcomes alike, or none of them has one. -/
theorem Run.Agree.outcome {α β : Type} {host host' : Host} {l : Link} {x : Run α} {y : Run β}
    {Q : Link → α → β → Prop} (h : Run.Agree host host' l x y Q) {m m' : Machine}
    (hm : m.Alike host host' l m') :
    Option.Rel (OutcomesAlike host host' l m m') (x.outcome m) (y.outcome m') := by
  have hends := h l m m' (.refl l) hm
  unfold Run.outcome
  revert hends
  generalize x m = r, y m' = r'
  intro hends
  cases hends with
  | ok hl hm₁ hlines _ => exact .some ⟨.ok _ _, hlines, _, hl, hm₁⟩
  | error hl hm₁ hlines he => exact .some ⟨.error he, hlines, _, hl, hm₁⟩
  | outOfFuel => exact .none

/-- **Similar programs behave alike.** Where no number is the negative zero, and in no source there is
one, parsed programs that are similar have the same distances and the same issues but for locations,
whatever names are known before; and on machines alike they end alike, with the same lines written, or
neither of them ends with the given fuel. -/
theorem parse_similar_behaves {ts ts' : List Token} (hts : NoNegativeZero ts)
    (hts' : NoNegativeZero ts') (h : (parse ts).program.similar (parse ts').program = true) :
    (∀ source, NoNegativeZero (tokenize source).tokens) ∧
    (∀ settings,
      Program.Alike anywhere (Program.resolve settings (parse ts).program).1
        (Program.resolve settings (parse ts').program).1 ∧
      List.Forall₂ (ScopeIssue.Alike anywhere) (Program.resolve settings (parse ts).program).2
        (Program.resolve settings (parse ts').program).2) ∧
    ∀ (host host' : Host) (l : Link) (m m' : Machine) (fuel : Nat) (settings : ScopeSettings),
      host.maxDepth = host'.maxDepth → m.Alike host host' l m' →
        Option.Rel (OutcomesAlike host host' l m m')
          ((Program.exec host fuel (Program.resolve settings (parse ts).program).1).outcome m)
          ((Program.exec host' fuel (Program.resolve settings (parse ts').program).1).outcome m') := by
  have halike := parse_alike_of_similar hts hts' h
  refine ⟨noNegativeZero_tokenize, fun settings => ⟨halike.bind, halike.issues settings⟩, ?_⟩
  intro host host' l m m' fuel _ hdepth hm
  exact (halike.bind.agree_exec hdepth fuel hm.global).outcome hm

/-- A number as a token; its lexeme does not matter. -/
def numberToken (x : Number) (loc : Location) : Token := ⟨.number, utf8 "0", some (.number x), loc⟩

/-- The tokens of `print 1 / x;`, from a place on. -/
def printQuotient (x : Number) (loc : Location) : List Token :=
  [⟨.kwPrint, utf8 "print", none, loc⟩, numberToken (.ofNat 1) loc, ⟨.slash, utf8 "/", none, loc⟩,
   numberToken x loc, ⟨.semicolon, utf8 ";", none, loc⟩]

/-- A host without a clock. -/
def plainHost : Host := ⟨defaultMaxDepth, fun _ => .zero⟩

/-- The same quotient written at two places: it is printed from both, and alike. -/
theorem parse_similar_behaves_moved :
    NoNegativeZero (printQuotient .zero ⟨1, 1⟩) ∧ NoNegativeZero (printQuotient .zero ⟨2, 1⟩) ∧
    (parse (printQuotient .zero ⟨1, 1⟩)).program.similar
      (parse (printQuotient .zero ⟨2, 1⟩)).program = true ∧
    ((Program.exec plainHost 1 (Program.bind
      (parse (printQuotient .zero ⟨1, 1⟩)).program)).outcome .empty).map (·.2.output) =
        some #[utf8 "inf"] ∧
    Option.Rel (OutcomesAlike plainHost plainHost .same .empty .empty)
      ((Program.exec plainHost 1 (Program.bind
        (parse (printQuotient .zero ⟨1, 1⟩)).program)).outcome .empty)
      ((Program.exec plainHost 1 (Program.bind
        (parse (printQuotient .zero ⟨2, 1⟩)).program)).outcome .empty) := by
  have hfirst : NoNegativeZero (printQuotient .zero ⟨1, 1⟩) := by decide +kernel
  have hsecond : NoNegativeZero (printQuotient .zero ⟨2, 1⟩) := by decide +kernel
  have hsimilar : (parse (printQuotient .zero ⟨1, 1⟩)).program.similar
      (parse (printQuotient .zero ⟨2, 1⟩)).program = true := by decide +kernel
  have hempty : Machine.empty.Alike plainHost plainHost .same .empty :=
    .refl plainHost (fun c hc => absurd hc (Array.not_mem_empty c))
      fun native hn => absurd hn (Array.not_mem_empty native)
  exact ⟨hfirst, hsecond, hsimilar, by decide +kernel,
    (parse_similar_behaves hfirst hsecond hsimilar).2.2 plainHost plainHost .same .empty .empty 1
      ⟨true, []⟩ rfl hempty⟩

/-- Similar programs can tell the two zeros apart. -/
theorem parse_similar_misbehaves :
    (parse (printQuotient .zero ⟨1, 1⟩)).program.similar
      (parse (printQuotient .negativeZero ⟨1, 1⟩)).program = true ∧
    ((Program.exec plainHost 1 (Program.bind
      (parse (printQuotient .zero ⟨1, 1⟩)).program)).outcome .empty).map (·.2.output) =
        some #[utf8 "inf"] ∧
    ((Program.exec plainHost 1 (Program.bind
      (parse (printQuotient .negativeZero ⟨1, 1⟩)).program)).outcome .empty).map (·.2.output) =
        some #[utf8 "-inf"] := by
  refine ⟨by decide +kernel, by decide +kernel, by decide +kernel⟩

end Lox
