import Lox.Proofs.Run.Session

/-!
# Assignments at a distance

An assignment with a distance changes a binding that is there, unless it belongs to the initializer of
the variable that it assigns to (`Session.assignment_at_distance`). The check of names rejects a read in
such a place and lets an assignment pass, so there is a program without errors in which an assignment
with a distance finds no binding (`Session.assignment_without_binding`).
-/

namespace Lox

namespace Node

/-- The distance of a name at an address leads to the innermost scope, where the only declarations of the
name before the address are variables whose initializers it lies in. -/
def InOwnInitializer (root : Node) (a : Address) (x : Text) (d : Nat) : Prop :=
  d = 0 ∧ ∃ scope v, (root.enclosing a).head? = some scope ∧ root.DeclaredAt scope x v ∧
    root.InInitializer v a ∧ ¬root.CompleteBefore scope x a

end Node

/-! ## Names at a distance -/

/-- The distance that binding gives to a name leads to a scope in which the name is visible. -/
theorem Point.visible_of_target? {p : Program} {a : Address} {n : Node} {ctx : Context} {name : Name}
    {d : Nat} (h : Point (.program p.bind) [] a n ctx) (ht : n.target? = some (name, some d)) :
    ∃ scope, ctx[d]? = some scope ∧ name.text ∈ scope.visible := by
  obtain ⟨n, -, rfl⟩ := @Point.of_bind (.program p) n [] ctx a h
  cases n with
  | expr e =>
    cases e with
    | reference | assign =>
      injection ht with ht
      obtain ⟨rfl, hd⟩ := Prod.mk.inj ht
      exact exists_visible_of_distance? hd
    | _ => cases ht
  | _ => cases ht

/-- A name that is visible but not complete belongs to a variable whose initializer is being passed. -/
theorem Point.complete_or_initializing {root n : Node} {a : Address} {ctx : Context}
    (h : Point root [] a n ctx) {d : Nat} {scope : ScopeNames} (hscope : ctx[d]? = some scope) {x : Text}
    (hx : x ∈ scope.visible) : x ∈ scope.complete ∨ root.InOwnInitializer a x d := by
  by_cases hcomplete : x ∈ scope.complete
  · exact .inl hcomplete
  refine .inr ?_
  cases ctx with
  | nil => cases hscope
  | cons inner outer =>
    cases d with
    | succ d =>
      -- further out every name that is visible is complete
      have hmem : scope ∈ outer := List.mem_of_getElem? hscope
      exact absurd (h.settled.1 scope hmem x hx) hcomplete
    | zero =>
      obtain rfl : inner = scope := Option.some.inj hscope
      obtain ⟨b, bs, hb, -, hen⟩ := List.forall₂_cons_right_iff.1 (Node.describes_of_point h)
      have hnot : ¬root.CompleteBefore b x a := fun hc => hcomplete ((hb.complete x).2 hc)
      rcases (hb.visible x).1 hx with hparam | ⟨v, hv, hlt⟩
      · exact absurd (.inl hparam) hnot
      · refine ⟨rfl, b, v, by rw [hen]; rfl, hv, ?_, hnot⟩
        by_contra hinit
        exact hnot (.inr ⟨v, hv, hlt, hinit⟩)

/-- What can be read can be assigned to. -/
theorem Expr.exists_writeVariable {frame : Nat} {name : Name} {d : Option Nat} {m m' : Machine} {v : Value}
    (h : readVariable frame name d m = .ok v m') (w : Value) :
    ∃ m'', writeVariable frame name d w m = .ok () m'' := by
  rw [writeVariable_eq]
  cases hbinder : m.binder? frame name d with
  | some target => exact ⟨_, rfl⟩
  | none =>
    rw [readVariable_eq, Machine.binder?_eq_none.1 hbinder] at h
    cases h

namespace Session

variable {s : Session} {ps : List Program}

/-- The programs of a session have been bound. -/
theorem History.bound (h : History s ps) : ∀ p ∈ ps, ∃ q : Program, p = q.bind := by
  induction h with
  | bare => exact List.forall_mem_nil _
  | load settings ts _ _ ih => exact List.forall_mem_cons.2 ⟨⟨(parse ts).program, rfl⟩, ih⟩
  | register _ _ ih | constant _ _ _ ih | interpret _ _ _ ih | call _ _ ih => exact ih

/-- Behind its value an assignment with a distance finds a binding, unless it lies in the initializer of
the variable that it assigns to. -/
theorem History.assignable (h : History s ps) {t : Task} {m : Machine} {name : Name} {d frame : Nat}
    {value : Expr} (ht : s.Reached ps t m)
    (hcode : t.code? = some (.expr (.assign name (some d) value), frame)) :
    ∃ p ∈ ps, ∃ a, (Node.program p).at? a = some (.expr (.assign name (some d) value)) ∧
      ((Node.program p).InOwnInitializer a name.text d ∨
        ∀ fuel v m', value.eval (callWithin s.host fuel) frame m = .ok v m' →
          ∃ m'', Expr.writeVariable frame name (some d) v m' = .ok () m'') := by
  obtain ⟨own, hm, p, hp, a, ctx, hpoint, hctx⟩ := h.fits ht hcode
  refine ⟨p, hp, a, hpoint.at?, ?_⟩
  obtain ⟨q, rfl⟩ := h.bound p hp
  obtain ⟨scope, hscope, hx⟩ := hpoint.visible_of_target? rfl
  refine (hpoint.complete_or_initializing hscope hx).symm.imp_right fun hcomplete fuel v m' hv => ?_
  have hdirect : ∀ p ∈ ps, (Node.program p).DeclaresDirectly := fun p hp => (h.scoped.1 p hp).direct
  obtain ⟨own', hm', hgrows⟩ := (safe_eval_within hdirect s.host fuel frame value).of_ok hm hv
  obtain ⟨w, hw⟩ := (hctx.grows hgrows).readVariable hm' hscope hcomplete
  exact Expr.exists_writeVariable hw v

/-- **Assignments at a distance.** An assignment with a distance that is reached in a session changes a
binding whenever its value can be computed, or it lies in the initializer of the variable that it assigns
to. So a run that ends in an error about an undefined variable has reached a name without a value that is
no assignment with a distance, or one in such a place. -/
theorem assignment_at_distance (h : History s ps) :
    (∀ t m name d value frame, s.Reached ps t m →
      t.code? = some (.expr (.assign name (some d) value), frame) →
        ∃ p ∈ ps, ∃ a, (Node.program p).at? a = some (.expr (.assign name (some d) value)) ∧
          ((Node.program p).InOwnInitializer a name.text d ∨
            ∀ fuel v m', value.eval (callWithin s.host fuel) frame m = .ok v m' →
              ∃ m'', Expr.writeVariable frame name (some d) v m' = .ok () m'')) ∧
    ∀ e, s.Raised ps e → e.IsUndefined → ∃ t m, s.Reached ps t m ∧ Misses s.host e t m ∧
      ∀ name d value frame, t.code? = some (.expr (.assign name (some d) value), frame) →
        ∃ p ∈ ps, ∃ a, (Node.program p).at? a = some (.expr (.assign name (some d) value)) ∧
          (Node.program p).InOwnInitializer a name.text d := by
  refine ⟨fun t m name d value frame ht hcode => h.assignable ht hcode, fun e hraised he => ?_⟩
  obtain ⟨t, ht, hfails⟩ := hraised.fails
  obtain ⟨t', m', hreach, hmisses⟩ := hfails.origin he
  have hreached := ht.trans hreach
  refine ⟨t', m', hreached, hmisses, fun name d value frame hcode => ?_⟩
  obtain ⟨p, hp, a, hat, hcase⟩ := h.assignable hreached hcode
  refine ⟨p, hp, a, hat, hcase.resolve_right fun hwrite => ?_⟩
  cases hmisses with
  | reference => cases hcode
  | assignment hv hfails =>
    cases hcode
    obtain ⟨m'', hm''⟩ := hwrite _ _ _ hv
    exact Run.not_fails_of_ok hm'' hfails

/-- The tokens of `{ var a = a = nil; }`. -/
def ownAssignment : List Token :=
  let token (kind : TokenKind) (text : String) : Token := ⟨kind, utf8 text, none, .nowhere⟩
  [token .leftBrace "\x7b", token .kwVar "var", token .identifier "a", token .equal "=",
   token .identifier "a", token .equal "=", token .kwNil "nil", token .semicolon ";",
   token .rightBrace "\x7d"]

/-- The program of these tokens, with its distances, and what the check says of it. -/
def ownAssignmentResolved : Program × List ScopeIssue :=
  Program.resolve ⟨true, []⟩ (parse ownAssignment).program

theorem ownAssignmentResolved_clean : Check.Clean ownAssignmentResolved.2 := by
  unfold Check.Clean
  decide +kernel

theorem interpret_ownAssignment :
    ∃ s', (bare .default fun _ => .zero).interpret 0 ownAssignmentResolved.1 =
      some (some ⟨.undefinedVariable (utf8 "a"), .nowhere, []⟩, s') :=
  ⟨_, rfl⟩

/-- The run of the program ends in an error about an undefined variable, whose origin is therefore as
said: no assignment with a distance, or one in its own initializer. -/
theorem assignment_at_distance_own :
    ∃ s ps e, History s ps ∧ s.Raised ps e ∧ e.IsUndefined ∧ ∃ t m, s.Reached ps t m ∧
      Misses s.host e t m ∧
        ∀ name d value frame, t.code? = some (.expr (.assign name (some d) value), frame) →
          ∃ p ∈ ps, ∃ a, (Node.program p).at? a = some (.expr (.assign name (some d) value)) ∧
            (Node.program p).InOwnInitializer a name.text d := by
  have hhistory := History.load ⟨true, []⟩ ownAssignment (.bare .default fun _ => .zero)
    ownAssignmentResolved_clean
  obtain ⟨s', hs'⟩ := interpret_ownAssignment
  have hraised : Raised _ [ownAssignmentResolved.1] _ := .interpret List.mem_cons_self hs'
  exact ⟨_, _, _, hhistory, hraised, ⟨_, rfl⟩,
    (assignment_at_distance hhistory).2 _ hraised ⟨_, rfl⟩⟩

/-- The check finds no error in the program, and the assignment in it has a distance; the run ends in an
error about an undefined variable all the same. -/
theorem assignment_without_binding :
    (parse ownAssignment).errors = [] ∧ Check.Clean ownAssignmentResolved.2 ∧
      ((Node.program ownAssignmentResolved.1).at? [0, 0, 0]).bind Node.target? =
        some (⟨utf8 "a", .nowhere⟩, some 0) ∧
      ∃ s', (bare .default fun _ => .zero).interpret 0 ownAssignmentResolved.1 =
        some (some ⟨.undefinedVariable (utf8 "a"), .nowhere, []⟩, s') :=
  ⟨by decide +kernel, ownAssignmentResolved_clean, by decide +kernel, interpret_ownAssignment⟩

end Session

end Lox
