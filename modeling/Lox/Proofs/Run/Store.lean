import Lox.Proofs.Run.Compiled

/-!
# What was stored last

Frames with their parents are as good as a flat store, which has one place for each name of each
frame: what a history of operations stored last under a name of a frame is what every later operation
finds there (`Frames.refine_flat_store`), whichever frame it starts from. The places are said by the
history alone. It tells the parents of the frames, hence where parents lead (`Leads`), which
operation stores something and where (`Stores`), and what was stored last (`LastStored`).

Histories list operations newest first.
-/

namespace Lox

/-- Binding a name keeps the names that are bound, and adds the name behind them if it is new. -/
theorem Bindings.names_set (name : Text) (v : Value) (bs : Bindings) :
    (set name v bs).map (·.1) =
      if name ∈ bs.map (·.1) then bs.map (·.1) else bs.map (·.1) ++ [name] := by
  induction bs with
  | nil => rfl
  | cons b bs ih =>
    obtain ⟨n, w⟩ := b
    by_cases hn : n = name
    · simp [set, hn]
    · have hset : (set name v ((n, w) :: bs)).map (·.1) = n :: (set name v bs).map (·.1) := by
        rw [set, if_neg (by rwa [beq_iff_eq]), List.map_cons]
      have hmem : name ∈ ((n, w) :: bs).map (·.1) ↔ name ∈ bs.map (·.1) := by
        rw [List.map_cons, List.mem_cons, or_iff_right (Ne.symm hn)]
      rw [hset, ih]
      by_cases h : name ∈ bs.map (·.1)
      · rw [if_pos h, if_pos (hmem.2 h), List.map_cons]
      · rw [if_neg h, if_neg (hmem.not.2 h), List.map_cons, List.cons_append]

theorem Bindings.nodup_set {bs : Bindings} (h : (bs.map (·.1)).Nodup) (name : Text) (v : Value) :
    ((set name v bs).map (·.1)).Nodup := by
  rw [names_set]
  split
  · exact h
  · next hnew => exact List.nodup_append_comm.1 (List.nodup_cons.2 ⟨hnew, h⟩)

namespace Frames

/-! ## Operations -/

/-- What frames can be asked for. -/
inductive Operation
  | addGlobal
  | addChild (parent : Nat)
  | define (frame : Nat) (name : Text) (v : Value)
  | assignAt (frame distance : Nat) (name : Text) (v : Value)
  | getLocal (frame : Nat) (name : Text)
  | getAt (frame distance : Nat) (name : Text)
  | hasLocal (frame : Nat) (name : Text)
  | localNames (frame : Nat)
  | ancestor (frame distance : Nat)
  | parent (frame : Nat)

/-- The frame that an operation is asked of. -/
def Operation.frame? : Operation → Option Nat
  | .addGlobal => none
  | .addChild frame
  | .define frame _ _
  | .assignAt frame _ _ _
  | .getLocal frame _
  | .getAt frame _ _
  | .hasLocal frame _
  | .localNames frame
  | .ancestor frame _
  | .parent frame => some frame

/-- The parent of the frame that an operation makes, if it makes one. -/
def Operation.made? : Operation → Option (Option Nat)
  | .addGlobal => some none
  | .addChild f => some (some f)
  | _ => none

/-- What an operation gives back. -/
inductive Answer
  | done
  | frame (frame : Option Nat)
  | value (v : Option Value)
  | flag (b : Bool)
  | names (names : List Text)

/-- The answer to an operation, and the frames behind it. -/
def serve (fs : Frames) : Operation → Answer × Frames
  | .addGlobal => (.frame (some fs.size), fs.addGlobal)
  | .addChild parent => (.frame (some fs.size), fs.addChild parent)
  | .define frame name v => (.done, fs.define frame name v)
  | .assignAt frame distance name v =>
    (.flag (fs.assignAt frame distance name v).isSome,
      (fs.assignAt frame distance name v).getD fs)
  | .getLocal frame name => (.value (fs.getLocal frame name), fs)
  | .getAt frame distance name => (.value (fs.getAt frame distance name), fs)
  | .hasLocal frame name => (.flag (fs.hasLocal frame name), fs)
  | .localNames frame => (.names (fs.localNames frame), fs)
  | .ancestor frame distance => (.frame (fs.ancestor? frame distance), fs)
  | .parent frame => (.frame (fs.parent? frame), fs)

/-- The frames behind a history. -/
def after : List Operation → Frames
  | [] => #[]
  | op :: past => ((after past).serve op).2

/-! ## What a history tells -/

/-- The parents of the frames that a history makes, in the order of their making. -/
def parents (past : List Operation) : List (Option Nat) := (past.filterMap (·.made?)).reverse

/-- Each operation is asked of a frame that was made before. -/
def Feasible : List Operation → Prop
  | [] => True
  | op :: past => Feasible past ∧ ∀ frame ∈ op.frame?, frame < (parents past).length

/-- The given number of parents leads from the first frame to the second. -/
inductive Leads (past : List Operation) : Nat → Nat → Nat → Prop
  | here {frame : Nat} : Leads past frame 0 frame
  | up {frame parent distance target : Nat} (hparent : (parents past)[frame]? = some (some parent))
      (hrest : Leads past parent distance target) : Leads past frame (distance + 1) target

/-- Behind the history, the operation stores the value under the name of the frame: a definition
does so in its own frame, an assignment in the one that it reaches, if the name was defined there. -/
inductive Stores (past : List Operation) (g : Nat) (x : Text) (v : Value) : Operation → Prop
  | define : Stores past g x v (.define g x v)
  | assign {frame distance : Nat} {w : Value} (hleads : Leads past frame distance g)
      (hdefined : .define g x w ∈ past) : Stores past g x v (.assignAt frame distance x v)

/-- The value is the one that the history stored last under the name of the frame. -/
inductive LastStored (g : Nat) (x : Text) (v : Value) : List Operation → Prop
  | now {op : Operation} {past : List Operation} (h : Stores past g x v op) :
      LastStored g x v (op :: past)
  | before {op : Operation} {past : List Operation} (hop : ∀ w, ¬Stores past g x w op)
      (h : LastStored g x v past) : LastStored g x v (op :: past)

/-- The answer that an operation gets if the history is all that matters. -/
inductive Answers (past : List Operation) : Operation → Answer → Prop
  | addGlobal : Answers past .addGlobal (.frame (some (parents past).length))
  | addChild {parent : Nat} : Answers past (.addChild parent) (.frame (some (parents past).length))
  | define {g : Nat} {x : Text} {v : Value} : Answers past (.define g x v) .done
  | assigned {f d g : Nat} {x : Text} {v w : Value} (hleads : Leads past f d g)
      (hlast : LastStored g x w past) : Answers past (.assignAt f d x v) (.flag true)
  | notAssigned {f d : Nat} {x : Text} {v : Value}
      (h : ∀ g w, Leads past f d g → ¬LastStored g x w past) :
      Answers past (.assignAt f d x v) (.flag false)
  | bound {g : Nat} {x : Text} {v : Value} (hlast : LastStored g x v past) :
      Answers past (.getLocal g x) (.value (some v))
  | unbound {g : Nat} {x : Text} (h : ∀ v, ¬LastStored g x v past) :
      Answers past (.getLocal g x) (.value none)
  | boundAt {f d g : Nat} {x : Text} {v : Value} (hleads : Leads past f d g)
      (hlast : LastStored g x v past) : Answers past (.getAt f d x) (.value (some v))
  | unboundAt {f d : Nat} {x : Text} (h : ∀ g v, Leads past f d g → ¬LastStored g x v past) :
      Answers past (.getAt f d x) (.value none)
  | hasLocal {g : Nat} {x : Text} {b : Bool} (h : b = true ↔ ∃ v, .define g x v ∈ past) :
      Answers past (.hasLocal g x) (.flag b)
  | localNames {g : Nat} {xs : List Text} (hnodup : xs.Nodup)
      (h : ∀ x, x ∈ xs ↔ ∃ v, .define g x v ∈ past) : Answers past (.localNames g) (.names xs)
  | ancestor {f d : Nat} {target : Option Nat} (h : ∀ g, target = some g ↔ Leads past f d g) :
      Answers past (.ancestor f d) (.frame target)
  | parent {f : Nat} : Answers past (.parent f) (.frame (parents past)[f]?.join)

/-! ## What an operation does -/

section Serve

variable {fs : Frames} {f d g : Nat} {x : Text} {v w : Value} {op : Operation}

theorem lt_size_of_hasLocal (h : fs.hasLocal g x = true) : g < fs.size := by
  by_contra hlt
  rw [hasLocal, getLocal_eq_none (Nat.le_of_not_lt hlt)] at h
  cases h

theorem binder?_eq_some :
    fs.binder? f d x = some g ↔ fs.ancestor? f d = some g ∧ fs.hasLocal g x = true := by
  unfold binder?
  rw [Option.filter_eq_some_iff]

/-- A frame binds each of its names once. -/
theorem nodup_localNames_push (h : (fs.localNames g).Nodup) (parent : Option Nat) :
    (Frames.localNames (fs.push ⟨parent, []⟩) g).Nodup := by
  unfold localNames locals
  rw [Array.getElem?_push]
  split
  · exact List.nodup_nil
  · exact h

theorem nodup_localNames_define (h : (fs.localNames g).Nodup) (f : Nat) (x : Text) (v : Value) :
    ((fs.define f x v).localNames g).Nodup := by
  unfold localNames locals at h ⊢
  rw [define, Array.getElem?_modify]
  split
  · cases hg : fs[g]? with
    | none => exact List.nodup_nil
    | some frame =>
      rw [hg] at h
      exact Bindings.nodup_set h x v
  · exact h

/-- The four things that an operation can do: make a frame, define a name, change a value, nothing. -/
inductive Does (fs : Frames) : Operation → Frames → Prop
  | makes {op : Operation} {parent : Option Nat} (h : op.made? = some parent) :
      Does fs op (fs.push ⟨parent, []⟩)
  | defines {g : Nat} {x : Text} {v : Value} : Does fs (.define g x v) (fs.define g x v)
  | assigns {f d g : Nat} {x : Text} {v : Value} (h : fs.binder? f d x = some g) :
      Does fs (.assignAt f d x v) (fs.define g x v)
  | keeps {op : Operation} (hmade : op.made? = none) (hdefine : ∀ g x v, op ≠ .define g x v)
      (hassign : ∀ f d x v, op = .assignAt f d x v → fs.binder? f d x = none) : Does fs op fs

theorem does (fs : Frames) (op : Operation) : fs.Does op (fs.serve op).2 := by
  cases op with
  | addGlobal => exact .makes rfl
  | addChild parent => exact .makes rfl
  | define g x v => exact .defines
  | assignAt f d x v =>
    cases h : fs.binder? f d x with
    | some g =>
      have hserve : (fs.serve (.assignAt f d x v)).2 = fs.define g x v := by
        rw [serve, assignAt, h]
        rfl
      rw [hserve]
      exact .assigns h
    | none =>
      have hserve : (fs.serve (.assignAt f d x v)).2 = fs := by
        rw [serve, assignAt, h]
        rfl
      rw [hserve]
      refine .keeps rfl nofun ?_
      rintro _ _ _ _ ⟨⟩
      exact h
  | getLocal f x | getAt f d x | hasLocal f x | localNames f | ancestor f d | parent f =>
    exact .keeps rfl nofun nofun

end Serve

/-! ## Frames behind a history -/

section After

variable {past : List Operation} {op : Operation} {f d g : Nat} {x : Text} {v w : Value}

theorem does_after (op : Operation) (past : List Operation) :
    (after past).Does op (after (op :: past)) := does _ _

theorem parents_of_made {parent : Option Nat} (h : op.made? = some parent) :
    parents (op :: past) = parents past ++ [parent] := by
  unfold parents
  rw [List.filterMap_cons_some h, List.reverse_cons]

theorem parents_of_not_made (h : op.made? = none) : parents (op :: past) = parents past := by
  unfold parents
  rw [List.filterMap_cons_none h]

theorem parents_prefix (op : Operation) (past : List Operation) :
    parents past <+: parents (op :: past) := by
  cases h : op.made? with
  | none => rw [parents_of_not_made h]
  | some parent => exact ⟨[parent], (parents_of_made h).symm⟩

theorem size_after (past : List Operation) : (after past).size = (parents past).length := by
  induction past with
  | nil => rfl
  | cons op past ih =>
    have hop := does_after op past
    generalize after (op :: past) = fs' at hop ⊢
    cases hop with
    | makes h => rw [Array.size_push, parents_of_made h, List.length_append, ih]; rfl
    | defines => rw [size_define, parents_of_not_made rfl, ih]
    | assigns => rw [size_define, parents_of_not_made rfl, ih]
    | keeps hmade => rw [parents_of_not_made hmade, ih]

/-- The parent of a frame is the one that it was made with. -/
theorem parent?_after (past : List Operation) (f : Nat) :
    (after past).parent? f = (parents past)[f]?.join := by
  induction past with
  | nil => rfl
  | cons op past ih =>
    have hop := does_after op past
    generalize after (op :: past) = fs' at hop ⊢
    cases hop with
    | makes h =>
      rw [parent?_push, size_after, ih, parents_of_made h]
      rcases lt_trichotomy f (parents past).length with hlt | rfl | hgt
      · rw [if_neg (Nat.ne_of_lt hlt), List.getElem?_append_left hlt]
      · rw [if_pos rfl, List.getElem?_concat_length]
        rfl
      · rw [if_neg (Nat.ne_of_gt hgt), List.getElem?_eq_none (Nat.le_of_lt hgt),
          List.getElem?_eq_none (by rw [List.length_append]; exact hgt)]
    | defines => rw [parent?_define, parents_of_not_made rfl, ih]
    | assigns => rw [parent?_define, parents_of_not_made rfl, ih]
    | keeps hmade => rw [parents_of_not_made hmade, ih]

theorem ancestor?_after : (after past).ancestor? f d = some g ↔ Leads past f d g := by
  constructor
  · intro h
    induction d generalizing f with
    | zero =>
      obtain rfl := Option.some.inj h
      exact .here
    | succ d ih =>
      obtain ⟨parent, hparent, hrest⟩ := Option.bind_eq_some_iff.1 h
      rw [parent?_after, Option.join_eq_some_iff] at hparent
      exact .up hparent (ih hrest)
  · intro h
    induction h with
    | here => rfl
    | up hparent _ ih =>
      refine Option.bind_eq_some_iff.2 ⟨_, ?_, ih⟩
      rw [parent?_after, hparent]
      rfl

theorem Leads.unique {g' : Nat} (h : Leads past f d g) (h' : Leads past f d g') : g = g' :=
  Option.some.inj ((ancestor?_after.2 h).symm.trans (ancestor?_after.2 h'))

/-- Only a definition adds a name, and nothing removes one. -/
theorem hasLocal_after_cons (h : Feasible (op :: past)) :
    (after (op :: past)).hasLocal g x = true ↔
      (∃ v, op = .define g x v) ∨ (after past).hasLocal g x = true := by
  have hop := does_after op past
  generalize after (op :: past) = fs' at hop ⊢
  cases hop with
  | makes hmade =>
    have hne : ∀ v, op ≠ .define g x v := by
      rintro v rfl
      cases hmade
    rw [hasLocal, getLocal_push]
    exact (or_iff_right (not_exists.2 hne)).symm
  | @defines g' x' v =>
    have hlt : g' < (after past).size := by
      rw [size_after]
      exact h.2 g' rfl
    rw [hasLocal_define]
    refine or_congr_left ⟨?_, ?_⟩
    · rintro ⟨rfl, rfl, -⟩
      exact ⟨v, rfl⟩
    · rintro ⟨v, ⟨⟩⟩
      exact ⟨rfl, rfl, hlt⟩
  | assigns hbinder =>
    obtain ⟨-, hlocal⟩ := binder?_eq_some.1 hbinder
    rw [hasLocal_define]
    constructor
    · rintro (⟨rfl, rfl, -⟩ | h)
      · exact .inr hlocal
      · exact .inr h
    · rintro (⟨v, ⟨⟩⟩ | h)
      exact .inr h
  | keeps _ hdefine _ => exact (or_iff_right (not_exists.2 (hdefine g x))).symm

theorem hasLocal_after (h : Feasible past) :
    (after past).hasLocal g x = true ↔ ∃ v, .define g x v ∈ past := by
  induction past with
  | nil => exact ⟨nofun, nofun⟩
  | cons op past ih =>
    rw [hasLocal_after_cons h, ih h.1, ← exists_or]
    exact exists_congr fun v => by rw [List.mem_cons, eq_comm]

theorem stores_define {g' : Nat} {x' : Text} :
    Stores past g x v (.define g' x' w) ↔ g = g' ∧ x = x' ∧ v = w := by
  constructor
  · rintro ⟨⟩
    exact ⟨rfl, rfl, rfl⟩
  · rintro ⟨rfl, rfl, rfl⟩
    exact .define

/-- An assignment stores the value where the name is found, and nothing elsewhere. -/
theorem stores_assignAt (h : Feasible past) {x' : Text} :
    Stores past g x v (.assignAt f d x' w) ↔
      (after past).binder? f d x' = some g ∧ x = x' ∧ v = w := by
  rw [binder?_eq_some, ancestor?_after, hasLocal_after h]
  constructor
  · rintro (_ | ⟨hleads, hdefined⟩)
    exact ⟨⟨hleads, _, hdefined⟩, rfl, rfl⟩
  · rintro ⟨⟨hleads, _, hdefined⟩, rfl, rfl⟩
    exact .assign hleads hdefined

theorem not_stores_of_made {parent : Option Nat} (h : op.made? = some parent) :
    ¬Stores past g x v op := by
  rintro (_ | _) <;> cases h

theorem not_stores_of_keeps (h : Feasible past) (hdefine : ∀ g x v, op ≠ .define g x v)
    (hassign : ∀ f d x v, op = .assignAt f d x v → (after past).binder? f d x = none) :
    ¬Stores past g x v op := by
  intro hop
  cases op with
  | define g' x' w => exact hdefine g' x' w rfl
  | assignAt f d x' w =>
    have hsome := ((stores_assignAt h).1 hop).1
    rw [hassign f d x' w rfl] at hsome
    cases hsome
  | _ => cases hop

theorem getLocal_define_iff {fs : Frames} {g' : Nat} {x' : Text} (hlt : g' < fs.size)
    (hstores : ∀ u, Stores past g x u op ↔ g = g' ∧ x = x' ∧ u = w) :
    (fs.define g' x' w).getLocal g x = some v ↔
      Stores past g x v op ∨ (∀ u, ¬Stores past g x u op) ∧ fs.getLocal g x = some v := by
  rw [getLocal_define, hstores]
  by_cases hplace : g = g' ∧ x = x'
  · obtain ⟨rfl, rfl⟩ := hplace
    have hsome : ¬∀ u, ¬Stores past g x u op := fun h => h w ((hstores w).2 ⟨rfl, rfl, rfl⟩)
    rw [if_pos ⟨rfl, rfl, hlt⟩, or_iff_left fun h => hsome h.1, Option.some_inj, eq_comm]
    exact ⟨fun h => ⟨rfl, rfl, h⟩, fun h => h.2.2⟩
  · have hnone : ∀ u, ¬Stores past g x u op := fun u h =>
      hplace ⟨((hstores u).1 h).1, ((hstores u).1 h).2.1⟩
    rw [if_neg fun h => hplace ⟨h.1, h.2.1⟩, or_iff_right fun h => hplace ⟨h.1, h.2.1⟩,
      and_iff_right hnone]

/-- An operation changes a binding if and only if it stores something there. -/
theorem getLocal_after_cons (h : Feasible (op :: past)) :
    (after (op :: past)).getLocal g x = some v ↔
      Stores past g x v op ∨ (∀ w, ¬Stores past g x w op) ∧ (after past).getLocal g x = some v := by
  have hop := does_after op past
  generalize after (op :: past) = fs' at hop ⊢
  cases hop with
  | makes hmade =>
    rw [getLocal_push, or_iff_right (not_stores_of_made hmade),
      and_iff_right fun w => not_stores_of_made hmade]
  | @defines g' x' w =>
    refine getLocal_define_iff ?_ fun u => stores_define
    rw [size_after]
    exact h.2 g' rfl
  | @assigns f d g' x' w hbinder =>
    refine getLocal_define_iff (lt_size_of_hasLocal (binder?_eq_some.1 hbinder).2) fun u => ?_
    rw [stores_assignAt h.1, hbinder, Option.some_inj, eq_comm]
  | keeps _ hdefine hassign =>
    have hnot := fun w => not_stores_of_keeps (g := g) (x := x) (v := w) h.1 hdefine hassign
    rw [or_iff_right (hnot v), and_iff_right hnot]

theorem lastStored_cons :
    LastStored g x v (op :: past) ↔
      Stores past g x v op ∨ (∀ w, ¬Stores past g x w op) ∧ LastStored g x v past := by
  constructor
  · rintro (h | ⟨hop, h⟩)
    · exact .inl h
    · exact .inr ⟨hop, h⟩
  · rintro (h | ⟨hop, h⟩)
    · exact .now h
    · exact .before hop h

/-- A name of a frame is bound to what was stored there last. -/
theorem getLocal_after (h : Feasible past) :
    (after past).getLocal g x = some v ↔ LastStored g x v past := by
  induction past with
  | nil => exact ⟨nofun, nofun⟩
  | cons op past ih => rw [getLocal_after_cons h, lastStored_cons, ih h.1]

theorem getAt_after (h : Feasible past) :
    (after past).getAt f d x = some v ↔ ∃ g, Leads past f d g ∧ LastStored g x v past := by
  unfold getAt
  rw [Option.bind_eq_some_iff]
  exact exists_congr fun g => and_congr ancestor?_after (getLocal_after h)

theorem nodup_localNames_after (past : List Operation) (g : Nat) :
    ((after past).localNames g).Nodup := by
  induction past with
  | nil => exact List.nodup_nil
  | cons op past ih =>
    have hop := does_after op past
    generalize after (op :: past) = fs' at hop ⊢
    cases hop with
    | makes => exact nodup_localNames_push ih _
    | defines => exact nodup_localNames_define ih _ _ _
    | assigns => exact nodup_localNames_define ih _ _ _
    | keeps => exact ih

theorem mem_localNames_after (h : Feasible past) :
    x ∈ (after past).localNames g ↔ ∃ v, .define g x v ∈ past :=
  mem_localNames.trans (hasLocal_after h)

/-- An assignment succeeds exactly where a value is found. -/
theorem isSome_assignAt (fs : Frames) (f d : Nat) (x : Text) (v : Value) :
    (fs.assignAt f d x v).isSome = (fs.getAt f d x).isSome := by
  rw [assignAt, Option.isSome_map, Bool.eq_iff_iff, Option.isSome_iff_ne_none,
    Option.isSome_iff_ne_none]
  exact binder?_eq_none.not

theorem answers_after (h : Feasible past) (op : Operation) :
    Answers past op ((after past).serve op).1 := by
  cases op with
  | addGlobal =>
    rw [serve, size_after]
    exact .addGlobal
  | addChild parent =>
    rw [serve, size_after]
    exact .addChild
  | define g x v => exact .define
  | assignAt f d x v =>
    rw [serve, isSome_assignAt]
    cases hvalue : (after past).getAt f d x with
    | some w =>
      obtain ⟨g, hleads, hlast⟩ := (getAt_after h).1 hvalue
      exact .assigned hleads hlast
    | none =>
      refine .notAssigned fun g w hleads hlast => ?_
      exact nomatch hvalue.symm.trans ((getAt_after h).2 ⟨g, hleads, hlast⟩)
  | getLocal g x =>
    rw [serve]
    cases hvalue : (after past).getLocal g x with
    | some v => exact .bound ((getLocal_after h).1 hvalue)
    | none =>
      exact .unbound fun v hlast => nomatch hvalue.symm.trans ((getLocal_after h).2 hlast)
  | getAt f d x =>
    rw [serve]
    cases hvalue : (after past).getAt f d x with
    | some v =>
      obtain ⟨g, hleads, hlast⟩ := (getAt_after h).1 hvalue
      exact .boundAt hleads hlast
    | none =>
      refine .unboundAt fun g v hleads hlast => ?_
      exact nomatch hvalue.symm.trans ((getAt_after h).2 ⟨g, hleads, hlast⟩)
  | hasLocal g x => exact .hasLocal (hasLocal_after h)
  | localNames g =>
    exact .localNames (nodup_localNames_after past g) fun x => mem_localNames_after h
  | ancestor f d => exact .ancestor fun g => ancestor?_after
  | parent f =>
    rw [serve, parent?_after]
    exact .parent

/-- An operation stores in one place only. -/
theorem Stores.unique {g' : Nat} {x' : Text} {v' : Value} (h : Stores past g x v op)
    (h' : Stores past g' x' v' op) : g = g' ∧ x = x' ∧ v = v' := by
  cases h with
  | define => exact (stores_define.1 h').imp Eq.symm (And.imp Eq.symm Eq.symm)
  | assign hleads =>
    cases h' with
    | assign hleads' => exact ⟨hleads.unique hleads', rfl, rfl⟩

/-- That an operation behind a history does what the history and the operation tell. -/
structure Refines (past : List Operation) (op : Operation) : Prop where
  /-- The answer is that of the history. -/
  answer : Answers past op ((after past).serve op).1
  /-- An assignment succeeds exactly where a value is found. -/
  succeeds : ∀ f d x v, op = .assignAt f d x v →
    ((after past).serve op).1 = .flag ((after past).getAt f d x).isSome
  /-- An assignment that fails changes nothing. -/
  fails : ∀ f d x v, op = .assignAt f d x v → ((after past).serve op).1 = .flag false →
    after (op :: past) = after past
  /-- Only the binding where the operation stores something changes. -/
  changes : ∀ g x, (after (op :: past)).getLocal g x ≠ (after past).getLocal g x →
    ∃ v, Stores past g x v op
  /-- The operation stores in one place only. -/
  place : ∀ g x v g' x' v', Stores past g x v op → Stores past g' x' v' op →
    g = g' ∧ x = x' ∧ v = v'
  /-- Only a definition adds a name, and nothing removes one. -/
  names : ∀ g x, (after (op :: past)).hasLocal g x = true ↔
    (∃ v, op = .define g x v) ∨ (after past).hasLocal g x = true
  /-- Frames stay, with their parents. -/
  parents : ∀ g < (after past).size,
    g < (after (op :: past)).size ∧ (after (op :: past)).parent? g = (after past).parent? g

theorem fails_after {fs : Frames} (h : (fs.serve (.assignAt f d x v)).1 = .flag false) :
    (fs.serve (.assignAt f d x v)).2 = fs := by
  have hnone : (fs.assignAt f d x v).isSome = false := by
    rw [serve] at h
    exact Answer.flag.inj h
  rw [serve, Option.isNone_iff_eq_none.1 (Option.isSome_eq_false_iff.1 hnone)]
  rfl

/-- **Frame chains refine a flat store.** After operations in any order, on frames that were made
before, an operation answers what the history tells: a name that is looked for in the frame that a
number of parents leads to has the value that was stored last under it there, by a definition or by
an assignment that reaches this frame, and no value if there is none or no such frame. An assignment
succeeds exactly where a value is found, changes that one binding, and nothing if it fails. Only a
definition adds a name, nothing removes one, and a frame keeps its parent. -/
theorem refine_flat_store (h : Feasible (op :: past)) : Refines past op where
  answer := answers_after h.1 op
  succeeds := by
    rintro f d x v rfl
    rw [serve, isSome_assignAt]
  fails := by
    rintro f d x v rfl hfalse
    exact fails_after hfalse
  changes g x hne := by
    by_contra hnone
    refine hne (Option.ext fun v => ?_)
    rw [getLocal_after_cons h, or_iff_right fun hop => hnone ⟨v, hop⟩,
      and_iff_right fun w hop => hnone ⟨w, hop⟩]
  place _ _ _ _ _ _ := Stores.unique
  names _ _ := hasLocal_after_cons h
  parents g hg := by
    obtain ⟨made, hmade⟩ := parents_prefix op past
    rw [size_after] at hg ⊢
    rw [parent?_after, parent?_after, ← hmade, List.length_append, List.getElem?_append_left hg]
    exact ⟨Nat.lt_add_right _ hg, rfl⟩

/-- Three frames in a chain, each of the outer two with a variable of the same name, and an assignment
through the innermost frame that reaches the outermost one. -/
def shadowing : List Operation :=
  [.assignAt 2 2 (utf8 "x") .nil, .define 1 (utf8 "x") (.bool true),
    .define 0 (utf8 "x") (.bool false), .addChild 1, .addChild 0, .addGlobal]

/-- The frame between finds what was assigned, as it is found in the outermost frame. -/
theorem refine_flat_store_shadowing :
    Feasible (.getAt 1 1 (utf8 "x") :: shadowing) ∧
      Answers shadowing (.getAt 1 1 (utf8 "x")) (.value (some .nil)) := by
  have h : Feasible (.getAt 1 1 (utf8 "x") :: shadowing) := by
    simp [shadowing, Feasible, Operation.frame?, Frames.parents, Operation.made?]
  exact ⟨h, (refine_flat_store h).answer⟩

end After

end Frames

end Lox
