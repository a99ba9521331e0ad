import Lox.Proofs.Scope.Position
import Lox.Proofs.Scope.Distance

/-!
# What there is to find in a program

The mistakes in a program, the declarations that nothing reads and the names that nothing declares, each
said in terms of the program alone: which node it is about, and what has been declared in the scopes around
that node. A finding has a position and the issue that is reported for it. Positions put the findings of a
program in a row, and `Node.FindsBetween` is the part of the row from one position up to another.
-/

namespace Lox

/-- The position at which something is found, what it is about there, and the issue. -/
structure Finding where
  position : Address
  part : Address
  issue : ScopeIssue

/-- Findings come in the order of their positions; at one position, of their parts. -/
def Finding.Precedes (o o' : Finding) : Prop :=
  o.position < o'.position ∨ o.position = o'.position ∧ o.part < o'.part

namespace Node

/-- The name that a node declares in the scope around it. -/
def declaredName? : Node → Option Name
  | .stmt (.var name _) | .stmt (.function name _ _) => some name
  | _ => none

theorem declared?_eq (n : Node) : n.declared? = n.declaredName?.map Name.text := by
  cases n with
  | stmt s => cases s <;> rfl
  | _ => rfl

/-- The address lies in a function. -/
def InFunction (root : Node) (a : Address) : Prop :=
  ∃ b ∈ root.enclosing a, ∃ name params body, root.at? b = some (.stmt (.function name params body))

/-- The scope has the name already in front of an address. -/
def DeclaresBefore (root : Node) (scope : Address) (x : Text) (a : Address) : Prop :=
  root.HasParameter scope x ∨ ∃ d, root.DeclaredAt scope x d ∧ d < a

/-- The address declares the name in the scope, and is the first to do so. -/
def FirstDeclaredAt (root : Node) (scope : Address) (x : Text) (d : Address) : Prop :=
  root.DeclaredAt scope x d ∧ ¬root.DeclaresBefore scope x d

/-- The address declares a global name. -/
def DeclaredGlobally (root : Node) (x : Text) (d : Address) : Prop :=
  (∃ n, root.at? d = some n ∧ n.declared? = some x) ∧ root.enclosing d = []

/-- A reference to the name at an address leads to the scope. -/
def ReadsFrom (root : Node) (scope : Address) (x : Text) (b : Address) : Prop :=
  ∃ name d, root.at? b = some (.expr (.reference name d)) ∧ name.text = x ∧
    ∃ k, root.IsDistance b x (some k) ∧ (root.enclosing b)[k]? = some scope

/-- The address lies in the initializer of the local variable of this name, and that is the first
declaration of the name in its scope. -/
def InitializesLocal (root : Node) (x : Text) (a : Address) : Prop :=
  ∃ scope v, root.InInitializer v a ∧ root.FirstDeclaredAt scope x v

/-- The address lies in the initializer of the global variable of this name, and nothing has defined the
name before. -/
def InitializesGlobal (root : Node) (predefined : List Text) (x : Text) (a : Address) : Prop :=
  ∃ v, root.InInitializer v a ∧ root.DeclaredGlobally x v ∧ x ∉ predefined ∧
    ∀ d < v, ¬root.DeclaredGlobally x d

/-- The mistakes in a program: a return outside of all functions, a name that its scope has declared
before, a parameter of the name of an earlier one, a variable read in the initializer that defines it. -/
inductive Mistake (root : Node) (predefined : List Text) : Finding → Prop
  | strayReturn {a : Address} {e : Option Expr} {loc : Location} :
    root.at? a = some (.stmt (.returnStmt e loc)) → ¬root.InFunction a →
      Mistake root predefined ⟨a, [], .returnOutsideFunction, loc⟩
  | redeclared {a scope : Address} {n : Node} {name : Name} :
    root.at? a = some n → n.declaredName? = some name → (root.enclosing a).head? = some scope →
      root.DeclaresBefore scope name.text a →
      Mistake root predefined ⟨a, [], .duplicateDeclaration name.text, name.loc⟩
  | repeatedParameter {a : Address} {name param : Name} {params : List Name} {body : List Stmt} {i : Nat} :
    root.at? a = some (.stmt (.function name params body)) → params[i]? = some param →
      param.text ∈ (params.take i).map Name.text →
      Mistake root predefined ⟨a, [i], .duplicateDeclaration param.text, param.loc⟩
  | localRead {a : Address} {name : Name} {d : Option Nat} :
    root.at? a = some (.expr (.reference name d)) → root.InitializesLocal name.text a →
      Mistake root predefined ⟨a, [], .localReadInInitializer name.text, name.loc⟩
  | globalRead {a : Address} {name : Name} {d : Option Nat} :
    root.at? a = some (.expr (.reference name d)) → root.InitializesGlobal predefined name.text a →
      Mistake root predefined ⟨a, [], .globalReadInInitializer name.text, name.loc⟩

/-- A first declaration in a scope to which no reference leads; it is found behind the scope. -/
inductive Unused (root : Node) (scope : Address) : Finding → Prop
  | mk {d : Address} {n m : Node} {name : Name} :
    root.at? d = some n → n.declaredName? = some name → root.FirstDeclaredAt scope name.text d →
      (∀ b, ¬root.ReadsFrom scope name.text b) → root.at? scope = some m →
      Unused root scope ⟨scope ++ [m.children.length], d, .unusedVariable name.text, name.loc⟩

/-- A name that no scope around it and no known global declares; an assignment to it is found behind
the value. -/
inductive Undeclared (root : Node) (predefined known : List Text) : Finding → Prop
  | reference {a : Address} {name : Name} {d : Option Nat} :
    root.at? a = some (.expr (.reference name d)) → root.IsDistance a name.text none →
      ¬root.InitializesGlobal predefined name.text a → name.text ∉ known →
      Undeclared root predefined known ⟨a, [], .undeclaredVariable name.text, name.loc⟩
  | assignment {a : Address} {name : Name} {d : Option Nat} {e : Expr} :
    root.at? a = some (.expr (.assign name d e)) → root.IsDistance a name.text none →
      name.text ∉ known →
      Undeclared root predefined known ⟨a ++ [1], [], .undeclaredVariable name.text, name.loc⟩

/-- All that there is to find. -/
def Finds (root : Node) (settings : ScopeSettings) (known : List Text) (o : Finding) : Prop :=
  root.Mistake settings.predefined o ∨
    (settings.reportUnused = true ∧ ∃ scope, root.Unused scope o) ∨
    root.Undeclared settings.predefined known o

/-- What is found from one position on and in front of another. -/
def FindsBetween (root : Node) (settings : ScopeSettings) (known : List Text) (p p' : Address)
    (o : Finding) : Prop :=
  root.Finds settings known o ∧ p ≤ o.position ∧ o.position < p'

/-! ## Where findings are -/

/-- Something can be found at the node, in front of what is below it. -/
def notedInFront : Node → Bool
  | .stmt (.returnStmt _ _) | .stmt (.var _ _) | .stmt (.function _ _ _) | .expr (.reference _ _) => true
  | _ => false

/-- Something can be found behind what is below the node. -/
def notedBehind : Node → Bool
  | .stmt (.block _ _) | .stmt (.function _ _ _) | .expr (.assign _ _ _) => true
  | _ => false

variable {root n : Node} {settings : ScopeSettings} {known : List Text} {a : Address} {o : Finding}

theorem notedInFront_of_declaredName? {name : Name} (h : n.declaredName? = some name) :
    n.notedInFront = true := by
  cases n with
  | stmt s =>
    cases s with
    | var | function => rfl
    | _ => cases h
  | _ => cases h

theorem notedBehind_of_isScope (h : n.isScope = true) : n.notedBehind = true := by
  cases n with
  | stmt s =>
    cases s with
    | block | function => rfl
    | _ => cases h
  | _ => cases h

/-- A finding is in front of a node or behind one. -/
theorem Finds.position_cases (h : root.Finds settings known o) :
    (∃ n, root.at? o.position = some n ∧ n.notedInFront = true) ∨
      ∃ b n, root.at? b = some n ∧ n.notedBehind = true ∧ o.position = b ++ [n.children.length] := by
  rcases h with hmistake | ⟨-, scope, hunused⟩ | hundeclared
  · left
    cases hmistake with
    | strayReturn ha | repeatedParameter ha | localRead ha | globalRead ha => exact ⟨_, ha, rfl⟩
    | redeclared ha hname => exact ⟨_, ha, notedInFront_of_declaredName? hname⟩
  · right
    cases hunused with
    | mk hd hname hfirst _ hscope =>
      obtain ⟨m, hm, his⟩ := isScope_of_mem_enclosing (List.mem_of_mem_head? hfirst.1.2)
      rw [hscope] at hm
      obtain rfl := Option.some.inj hm
      exact ⟨_, _, hscope, notedBehind_of_isScope his, rfl⟩
  · cases hundeclared with
    | reference ha => exact .inl ⟨_, ha, rfl⟩
    | assignment ha => exact .inr ⟨_, _, ha, rfl, rfl⟩

theorem at?_behind {b : Address} (hb : root.at? b = some n) :
    root.at? (b ++ [n.children.length]) = none := by
  rw [at?_snoc, hb]
  exact List.getElem?_eq_none (Nat.le_refl _)

/-- A finding at the position of a node is in front of that node. -/
theorem Finds.notedInFront (h : root.Finds settings known o) (ha : root.at? o.position = some n) :
    n.notedInFront = true := by
  rcases h.position_cases with ⟨m, hm, hnoted⟩ | ⟨b, m, hb, -, he⟩
  · rw [ha] at hm
    exact Option.some.inj hm ▸ hnoted
  · rw [he, at?_behind hb] at ha
    cases ha

/-- A finding at the position behind a node is behind that node. -/
theorem Finds.notedBehind (h : root.Finds settings known o) (ha : root.at? a = some n)
    (ho : o.position = a ++ [n.children.length]) : n.notedBehind = true := by
  rcases h.position_cases with ⟨m, hm, -⟩ | ⟨b, m, hb, hnoted, he⟩
  · rw [ho, at?_behind ha] at hm
    cases hm
  · obtain ⟨rfl, -⟩ := List.append_inj' (ho.symm.trans he) rfl
    rw [ha] at hb
    exact Option.some.inj hb ▸ hnoted

/-- Between the last child of a node and what follows the node there is one position only. -/
theorem Finds.position_eq {i : Nat} (h : root.Finds settings known o)
    (ha : root.at? (a ++ [i]) = some n) (hle : a ++ [i] ++ [n.children.length] ≤ o.position)
    (hlt : o.position < a ++ [i + 1]) : o.position = a ++ [i] ++ [n.children.length] := by
  have hchild {j : Nat} {e : Address} {m : Node} (hm : root.at? (a ++ [i] ++ j :: e) = some m)
      (e' : Address) : a ++ [i] ++ j :: e' < a ++ [i] ++ [n.children.length] := by
    obtain ⟨c, hc, -⟩ := exists_child_of_at? ha hm
    exact (lt_snoc_iff _ _ _).2 (.inr (.inr ⟨j, (List.getElem?_eq_some_iff.1 hc).1, e', rfl⟩))
  -- the position lies in the node, behind all of its children
  obtain ⟨t, ht⟩ : a ++ [i] <+: o.position := by
    refine ((lt_snoc_succ_iff _ a i).1 hlt).resolve_left fun hfront => ?_
    exact not_lt_of_ge hle (lt_trans hfront (lt_append _ _ _))
  rw [← ht] at hle
  cases t with
  | nil => exact absurd (lt_append (a ++ [i]) n.children.length []) (by simpa using hle)
  | cons j e =>
    rcases h.position_cases with ⟨m, hm, -⟩ | ⟨b, m, hb, -, he⟩
    · exact absurd (hchild (ht ▸ hm) e) (not_lt_of_ge hle)
    · rcases List.eq_nil_or_concat e with rfl | ⟨e', l, rfl⟩
      · obtain ⟨rfl, -⟩ := List.append_inj' (ht.trans he) rfl
        rw [ha] at hb
        rw [he, Option.some.inj hb]
      · have hsplit : a ++ [i] ++ j :: e' ++ [l] = b ++ [m.children.length] := by
          rw [← he, ← ht, List.concat_eq_append, List.append_assoc, List.cons_append]
        obtain ⟨rfl, -⟩ := List.append_inj' hsplit rfl
        exact absurd (hchild hb _) (not_lt_of_ge hle)

/-! ## What is found between two positions -/

/-- What is found between two positions is found before a third one or from it on. -/
theorem findsBetween_iff_or {p q r : Address} (hpq : p ≤ q) (hqr : q ≤ r) (o : Finding) :
    root.FindsBetween settings known p r o ↔
      root.FindsBetween settings known p q o ∨ root.FindsBetween settings known q r o := by
  constructor
  · rintro ⟨ho, hle, hlt⟩
    rcases lt_or_ge o.position q with hq | hq
    · exact .inl ⟨ho, hle, hq⟩
    · exact .inr ⟨ho, hq, hlt⟩
  · rintro (⟨ho, hle, hlt⟩ | ⟨ho, hle, hlt⟩)
    · exact ⟨ho, hle, lt_of_lt_of_le hlt hqr⟩
    · exact ⟨ho, le_trans hpq hle, hlt⟩

/-- What is found before the children of a node is found in front of the node. -/
theorem findsBetween_front_iff (a : Address) (o : Finding) :
    root.FindsBetween settings known a (a ++ [0]) o ↔
      root.Finds settings known o ∧ o.position = a := by
  refine and_congr_right fun _ => ?_
  rw [lt_snoc_zero_iff]
  constructor
  · rintro ⟨hle, hlt | he⟩
    · exact absurd hlt (not_lt_of_ge hle)
    · exact he
  · intro he
    exact ⟨le_of_eq he.symm, .inr he⟩

/-- What is found after the children of a node, and before what follows the node, is found behind it. -/
theorem findsBetween_behind_iff {i : Nat} (ha : root.at? (a ++ [i]) = some n) (o : Finding) :
    root.FindsBetween settings known (a ++ [i] ++ [n.children.length]) (a ++ [i + 1]) o ↔
      root.Finds settings known o ∧ o.position = a ++ [i] ++ [n.children.length] := by
  refine and_congr_right fun ho => ⟨fun ⟨hle, hlt⟩ => ho.position_eq ha hle hlt, fun he => ?_⟩
  exact ⟨le_of_eq he.symm, he ▸ (lt_snoc_succ_iff _ a i).2 (.inr (List.prefix_append _ _))⟩

/-- Nothing is found in front of a node of a kind that is not noted there. -/
theorem not_findsBetween_front (ha : root.at? a = some n) (hn : n.notedInFront = false) (o : Finding) :
    ¬root.FindsBetween settings known a (a ++ [0]) o := by
  rw [findsBetween_front_iff]
  rintro ⟨ho, rfl⟩
  rw [ho.notedInFront ha] at hn
  cases hn

/-- Nothing is found behind a node of a kind that is not noted there. -/
theorem not_findsBetween_behind {i : Nat} (ha : root.at? (a ++ [i]) = some n)
    (hn : n.notedBehind = false) (o : Finding) :
    ¬root.FindsBetween settings known (a ++ [i] ++ [n.children.length]) (a ++ [i + 1]) o := by
  rw [findsBetween_behind_iff ha]
  rintro ⟨ho, hposition⟩
  rw [ho.notedBehind ha hposition] at hn
  cases hn

/-! ## What is found at one position -/

/-- The mistakes that can be made at a node. -/
theorem mistake_at_iff {predefined : List Text} (ha : root.at? a = some n) (o : Finding) :
    root.Mistake predefined o ∧ o.position = a ↔
      (∃ e loc, n = .stmt (.returnStmt e loc) ∧ ¬root.InFunction a ∧
          o = ⟨a, [], .returnOutsideFunction, loc⟩) ∨
        (∃ name, n.declaredName? = some name ∧
          (∃ scope, (root.enclosing a).head? = some scope ∧ root.DeclaresBefore scope name.text a) ∧
          o = ⟨a, [], .duplicateDeclaration name.text, name.loc⟩) ∨
        (∃ name params body, n = .stmt (.function name params body) ∧
          ∃ i param, params[i]? = some param ∧ param.text ∈ (params.take i).map Name.text ∧
            o = ⟨a, [i], .duplicateDeclaration param.text, param.loc⟩) ∨
        ∃ name d, n = .expr (.reference name d) ∧
          (root.InitializesLocal name.text a ∧
              o = ⟨a, [], .localReadInInitializer name.text, name.loc⟩ ∨
            root.InitializesGlobal predefined name.text a ∧
              o = ⟨a, [], .globalReadInInitializer name.text, name.loc⟩) := by
  constructor
  · rintro ⟨hmistake, rfl⟩
    cases hmistake with
    | strayReturn hb hout =>
      exact .inl ⟨_, _, Option.some.inj (ha.symm.trans hb), hout, rfl⟩
    | redeclared hb hname hscope hbefore =>
      obtain rfl := Option.some.inj (ha.symm.trans hb)
      exact .inr (.inl ⟨_, hname, ⟨_, hscope, hbefore⟩, rfl⟩)
    | repeatedParameter hb hparam hbefore =>
      exact .inr (.inr (.inl ⟨_, _, _, Option.some.inj (ha.symm.trans hb), _, _, hparam, hbefore, rfl⟩))
    | localRead hb hlocal =>
      exact .inr (.inr (.inr ⟨_, _, Option.some.inj (ha.symm.trans hb), .inl ⟨hlocal, rfl⟩⟩))
    | globalRead hb hglobal =>
      exact .inr (.inr (.inr ⟨_, _, Option.some.inj (ha.symm.trans hb), .inr ⟨hglobal, rfl⟩⟩))
  · rintro (⟨e, loc, rfl, hout, rfl⟩ | ⟨name, hname, ⟨scope, hscope, hbefore⟩, rfl⟩ |
      ⟨name, params, body, rfl, i, param, hparam, hbefore, rfl⟩ |
      ⟨name, d, rfl, ⟨hlocal, rfl⟩ | ⟨hglobal, rfl⟩⟩)
    · exact ⟨.strayReturn ha hout, rfl⟩
    · exact ⟨.redeclared ha hname hscope hbefore, rfl⟩
    · exact ⟨.repeatedParameter ha hparam hbefore, rfl⟩
    · exact ⟨.localRead ha hlocal, rfl⟩
    · exact ⟨.globalRead ha hglobal, rfl⟩

theorem Unused.at?_eq_none {scope : Address} (h : root.Unused scope o) : root.at? o.position = none := by
  cases h with
  | mk _ _ _ _ hscope => exact at?_behind hscope

/-- In front of a node that is no reference only mistakes are found. -/
theorem finds_front_iff (ha : root.at? a = some n) (hn : ∀ name d, n ≠ .expr (.reference name d))
    (o : Finding) :
    root.Finds settings known o ∧ o.position = a ↔
      root.Mistake settings.predefined o ∧ o.position = a := by
  refine and_congr_left ?_
  rintro rfl
  refine ⟨?_, .inl⟩
  rintro (hmistake | ⟨-, scope, hunused⟩ | hundeclared)
  · exact hmistake
  · rw [hunused.at?_eq_none] at ha
    cases ha
  · cases hundeclared with
    | @reference b name d hb =>
      rw [ha] at hb
      exact absurd (Option.some.inj hb) (hn name d)
    | @assignment b name d e hb =>
      rw [show root.at? (b ++ [1]) = none from at?_behind hb] at ha
      cases ha

/-- What is found at a reference. -/
theorem finds_reference_iff {name : Name} {d : Option Nat}
    (ha : root.at? a = some (.expr (.reference name d))) (o : Finding) :
    root.Finds settings known o ∧ o.position = a ↔
      (root.InitializesLocal name.text a ∧
          o = ⟨a, [], .localReadInInitializer name.text, name.loc⟩) ∨
        (root.InitializesGlobal settings.predefined name.text a ∧
          o = ⟨a, [], .globalReadInInitializer name.text, name.loc⟩) ∨
        ((root.IsDistance a name.text none ∧ ¬root.InitializesGlobal settings.predefined name.text a ∧
            name.text ∉ known) ∧ o = ⟨a, [], .undeclaredVariable name.text, name.loc⟩) := by
  have hmistake : root.Mistake settings.predefined o ∧ o.position = a ↔
      (root.InitializesLocal name.text a ∧
          o = ⟨a, [], .localReadInInitializer name.text, name.loc⟩) ∨
        (root.InitializesGlobal settings.predefined name.text a ∧
          o = ⟨a, [], .globalReadInInitializer name.text, name.loc⟩) := by
    simp [mistake_at_iff ha, declaredName?]
  constructor
  · rintro ⟨hfound | ⟨-, scope, hunused⟩ | hundeclared, rfl⟩
    · exact (hmistake.1 ⟨hfound, rfl⟩).imp_right .inl
    · rw [hunused.at?_eq_none] at ha
      cases ha
    · cases hundeclared with
      | reference hb hnone hglobal hknown =>
        rw [ha] at hb
        cases hb
        exact .inr (.inr ⟨⟨hnone, hglobal, hknown⟩, rfl⟩)
      | @assignment b name d e hb =>
        rw [show root.at? (b ++ [1]) = none from at?_behind hb] at ha
        cases ha
  · rintro (⟨hlocal, rfl⟩ | ⟨hglobal, rfl⟩ | ⟨⟨hnone, hglobal, hknown⟩, rfl⟩)
    · exact ⟨.inl (.localRead ha hlocal), rfl⟩
    · exact ⟨.inl (.globalRead ha hglobal), rfl⟩
    · exact ⟨.inr (.inr (.reference ha hnone hglobal hknown)), rfl⟩

/-- What is found behind a node: that the scope has unused names, or that the name assigned to is not
declared. -/
theorem finds_behind_iff (ha : root.at? a = some n) (o : Finding) :
    root.Finds settings known o ∧ o.position = a ++ [n.children.length] ↔
      (settings.reportUnused = true ∧ root.Unused a o) ∨
        ∃ name d e, n = .expr (.assign name d e) ∧ root.IsDistance a name.text none ∧
          name.text ∉ known ∧ o = ⟨a ++ [1], [], .undeclaredVariable name.text, name.loc⟩ := by
  constructor
  · rintro ⟨hfinds, ho⟩
    have hnone : root.at? o.position = none := ho ▸ at?_behind ha
    have hmissing {m : Node} (hm : root.at? o.position = some m) : False := by
      rw [hnone] at hm
      cases hm
    rcases hfinds with hmistake | ⟨hsettings, scope, hunused⟩ | hundeclared
    · cases hmistake with
      | strayReturn hb | redeclared hb | repeatedParameter hb | localRead hb | globalRead hb =>
        exact (hmissing hb).elim
    · refine .inl ⟨hsettings, ?_⟩
      cases hunused with
      | mk hd hname hfirst hno hscope =>
        obtain ⟨rfl, -⟩ := List.append_inj' ho rfl
        exact .mk hd hname hfirst hno hscope
    · cases hundeclared with
      | reference hb => exact (hmissing hb).elim
      | @assignment b name d e hb hdistance hknown =>
        obtain ⟨rfl, -⟩ := List.append_inj' ho rfl
        rw [ha] at hb
        exact .inr ⟨name, d, e, Option.some.inj hb, hdistance, hknown, rfl⟩
  · rintro (⟨hsettings, hunused⟩ | ⟨name, d, e, rfl, hdistance, hknown, rfl⟩)
    · refine ⟨.inr (.inl ⟨hsettings, a, hunused⟩), ?_⟩
      cases hunused with
      | mk _ _ _ _ hscope =>
        rw [ha] at hscope
        rw [Option.some.inj hscope]
    · exact ⟨.inr (.inr (.assignment ha hdistance hknown)), rfl⟩

/-- What is found behind a scope. -/
theorem finds_behind_scope_iff (ha : root.at? a = some n) (hn : n.isScope = true) (o : Finding) :
    root.Finds settings known o ∧ o.position = a ++ [n.children.length] ↔
      settings.reportUnused = true ∧ root.Unused a o := by
  refine (finds_behind_iff ha o).trans (or_iff_left ?_)
  rintro ⟨name, d, e, rfl, -⟩
  cases hn

/-- What is found behind an assignment. -/
theorem finds_behind_assign_iff {name : Name} {d : Option Nat} {e : Expr}
    (ha : root.at? a = some (.expr (.assign name d e))) (o : Finding) :
    root.Finds settings known o ∧ o.position = a ++ [1] ↔
      (root.IsDistance a name.text none ∧ name.text ∉ known) ∧
        o = ⟨a ++ [1], [], .undeclaredVariable name.text, name.loc⟩ := by
  refine (finds_behind_iff ha o).trans ⟨?_, ?_⟩
  · rintro (⟨-, hunused⟩ | ⟨name', d', e', he, hdistance, hknown, rfl⟩)
    · -- an assignment is no scope
      cases hunused with
      | mk _ _ hfirst =>
        obtain ⟨m, hm, hscope⟩ := isScope_of_mem_enclosing (List.mem_of_mem_head? hfirst.1.2)
        rw [ha] at hm
        rw [← Option.some.inj hm] at hscope
        cases hscope
    · cases he
      exact ⟨⟨hdistance, hknown⟩, rfl⟩
  · rintro ⟨⟨hdistance, hknown⟩, rfl⟩
    exact .inr ⟨name, d, e, rfl, hdistance, hknown, rfl⟩

end Node

end Lox
