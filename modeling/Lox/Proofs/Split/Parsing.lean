import Lox.Proofs.Grammar.Local
import Lox.Proofs.Grammar.Parse
import Lox.Proofs.Split.Scanning

/-!
# Parsing one source after another

Each declaration takes a token, so a parse has rounds enough, however many more it is given
(`parseFrom_rounds`). Hence tokens of which the first ones are parsed without an error are parsed as
those, and then as the others are on their own (`parse_append_ended`), unless these begin with `else`.
The tokens of two programs in a row are thus the tokens of one program (`parse_append`), also where the
second one has moved, for no program begins with `else`.
-/

namespace Lox

open Lox.Parser

/-! ## Rounds -/

/-- The last token, if there is one, is the end of the input. -/
def Ended (ts : List Token) : Prop := ∀ t ∈ ts.getLast?, t.isEnd = true

theorem Ended.suffix {ts rest : List Token} (h : Ended ts) (hrest : rest <:+ ts) : Ended rest := by
  obtain ⟨us, rfl⟩ := hrest
  intro t ht
  exact h t (by rw [Option.mem_def.1 (List.mem_getLast?_append_of_mem_getLast? ht), Option.mem_def])

theorem ended_append_singleton (us : List Token) {eof : Token} (heof : eof.isEnd = true) :
    Ended (us ++ [eof]) := by
  intro t ht
  rw [List.getLast?_concat, Option.mem_some_iff] at ht
  rwa [← ht]

/-- What closes tokens is an end of input behind them, or they have it. -/
theorem closed_eq (ts : List Token) :
    closed ts = ts ∧ ts ≠ [] ∧ Ended ts ∨ ∃ eof : Token, eof.isEnd = true ∧ closed ts = ts ++ [eof] := by
  rw [closed]
  split
  · next hlast =>
    rw [List.getLast?_eq_none_iff.1 hlast]
    exact .inr ⟨_, rfl, rfl⟩
  · next last hlast =>
    split
    · next hend =>
      refine .inl ⟨rfl, fun hnil => by simp [hnil] at hlast, fun t ht => ?_⟩
      rw [hlast, Option.mem_some_iff] at ht
      rwa [← ht]
    · exact .inr ⟨_, rfl, rfl⟩

theorem ended_closed (ts : List Token) : Ended (closed ts) := by
  rcases closed_eq ts with ⟨h, _, hended⟩ | ⟨eof, heof, h⟩
  · rwa [h]
  · rw [h]
    exact ended_append_singleton ts heof

theorem closed_of_ended {ts : List Token} (hne : ts ≠ []) (h : Ended ts) : closed ts = ts := by
  rw [closed, List.getLast?_eq_getLast_of_ne_nil hne]
  exact if_pos (h _ (List.getLast?_eq_getLast_of_ne_nil hne ▸ rfl))

theorem closed_length_le (ts : List Token) : (closed ts).length ≤ ts.length + 1 := by
  rcases closed_eq ts with ⟨h, _, _⟩ | ⟨eof, _, h⟩ <;> simp [h]

/-- What a declaration leaves is behind the token that it began with. -/
theorem suffix_of_declaration {n : Nat} {t : Token} (ht : t.isEnd = false) {ts rest : List Token}
    {o : Option Stmt} {errors : List ParseError}
    (h : declaration (Grammar.ofLevels n) (t :: ts) = ⟨.ok o, rest, errors⟩) : rest <:+ ts := by
  obtain ⟨p, hp, hgives⟩ :=
    (Grammar.sound_ofLevels .tolerant n).exists_recovering_eq_declaration
  rw [hp] at h
  refine suffix_of_recovering hgives.suffix (fun us s left es hrun => ?_) ht h
  obtain ⟨vs, cs, rfl, hpicks, hd⟩ := hgives.result _ _ _ _ hrun nofun
  refine ⟨cs, fun hnil => ?_, rfl⟩
  obtain ⟨v, vs, rfl, _⟩ := hd.startsWith
  rw [hnil] at hpicks
  exact absurd hpicks (by simp [Mode.Picks])

/-- **Rounds enough.** The parse up to an end of input is the same for all numbers of rounds of which
none is too small to come to it. -/
theorem parseFrom_rounds (n : Nat) {ts : List Token} (hts : Ended ts) {rounds rounds' : Nat}
    (h : ts.length ≤ rounds + 1) (h' : ts.length ≤ rounds' + 1) :
    parseFrom (Grammar.ofLevels n) rounds ts = parseFrom (Grammar.ofLevels n) rounds' ts := by
  have hover {ts : List Token} (hts : Ended ts) (hlen : ts.length ≤ 1) (rounds : Nat) :
      parseFrom (Grammar.ofLevels n) rounds ts = ⟨[], []⟩ := by
    cases rounds with
    | zero => rfl
    | succ rounds =>
      rw [parseFrom, if_pos]
      cases ts with
      | nil => rfl
      | cons t rest =>
        obtain rfl : rest = [] := List.length_eq_zero_iff.1 (Nat.le_zero.1 (Nat.le_of_succ_le_succ hlen))
        exact hts t rfl
  induction rounds generalizing ts rounds' with
  | zero => rw [hover hts h, hover hts h]
  | succ rounds ih =>
    cases rounds' with
    | zero => rw [hover hts h', hover hts h']
    | succ rounds' =>
      rw [parseFrom, parseFrom]
      split
      · rfl
      · next hend =>
        cases ts with
        | nil => exact absurd rfl hend
        | cons t ts =>
          split
          · next first rest errors hrun =>
            have hrest := suffix_of_declaration (Bool.eq_false_iff.2 hend) hrun
            have hlen := hrest.length_le
            rw [List.length_cons] at h h'
            have hothers : parseFrom (Grammar.ofLevels n) rounds rest =
                parseFrom (Grammar.ofLevels n) rounds' rest :=
              ih (hts.suffix (hrest.trans (List.suffix_cons t ts))) (by omega) (by omega)
            simp only [hothers]
          · rfl

/-- The parse of closed tokens, with any number of rounds that is not too small. -/
theorem parse_eq_parseFrom {ts : List Token} (rounds : Nat) (h : (closed ts).length ≤ rounds + 1) :
    parse ts = parseFrom (Grammar.ofLevels maxNesting) rounds (closed ts) :=
  parseFrom_rounds maxNesting (ended_closed ts) (closed_length_le ts) h

theorem parse_closed (ts : List Token) : parse (closed ts) = parse ts := by
  rcases closed_eq ts with ⟨h, _, _⟩ | ⟨eof, heof, h⟩
  · rw [h]
  · have hclosed : closed (closed ts) = closed ts := by rw [h, closed_of_isEnd ts heof]
    rw [parse_eq_parseFrom _ (Nat.le_succ (closed (closed ts)).length), hclosed,
      ← parse_eq_parseFrom _ (Nat.le_succ _)]

/-! ## Programs in a row -/

/-- **Parsing on.** Tokens that are parsed without an error up to the end of the input are parsed in
front of others too, and these as they are on their own. -/
theorem parse_append_ended {us tail : List Token} {eof : Token} (heof : eof.isEnd = true)
    (hus : NoEnd us) {p : Program} (hp : parse (us ++ [eof]) = ⟨p, []⟩) (hne : tail ≠ [])
    (hended : Ended tail) (helse : headKind tail ≠ .kwElse) :
    parse (us ++ tail) = ⟨p ++ (parse tail).program, (parse tail).errors⟩ := by
  have hkind : eof.kind = .endOfInput := beq_iff_eq.1 heof
  have hlocal := @Grammar.local_ofLevels eof tail hkind helse maxNesting
  have hclosed : closed (us ++ tail) = us ++ tail := by
    refine closed_of_ended (by simp [hne]) fun t ht => hended t ?_
    rwa [List.getLast?_append_of_ne_nil us hne] at ht
  rw [parse_eq_parseFrom _ (Nat.le_succ _), closed_of_isEnd us heof] at hp
  obtain ⟨left, hleft, hparse⟩ := parseFrom_append hkind hlocal hus (by simp) hp
    (us ++ tail).length (by simp)
  have hrest : parseFrom (Grammar.ofLevels maxNesting) left tail = parse tail := by
    rw [parse_eq_parseFrom left, closed_of_ended hne hended]
    rw [closed_of_ended hne hended]
    rw [List.length_append] at hleft
    omega
  rw [parse_eq_parseFrom (us ++ tail).length (by rw [hclosed]; omega), hclosed, hparse, hrest]

/-- No program begins with `else`. -/
theorem Program.Derivation.headKind_ne {mode : Mode} {us rest : List Token} {p : Program}
    (h : Program.Derivation mode us p) (hrest : headKind rest ≠ .kwElse) :
    headKind (us ++ rest) ≠ .kwElse := by
  cases h with
  | mk hbody =>
    intro helse
    have hmem := headKind_flatMap (fun d hd => (hbody d hd).startsWith) rest
    rw [helse] at hmem
    rcases List.mem_cons.1 hmem with hhead | hstart
    · exact hrest hhead.symm
    · exact absurd hstart (by decide)

/-- **Parsing one program after another.** If nothing is wrong with two programs, nothing is wrong with
their tokens in a row, and they are parsed as the statements of the first and those of the second. -/
theorem parse_append {us vs : List Token} {eof eof' : Token} (heof : eof.isEnd = true)
    (heof' : eof'.isEnd = true) (hus : NoEnd us) (hvs : NoEnd vs) {p q : Program}
    (hp : parse (us ++ [eof]) = ⟨p, []⟩) (hq : parse (vs ++ [eof']) = ⟨q, []⟩) :
    parse (us ++ (vs ++ [eof'])) = ⟨p ++ q, []⟩ := by
  have hkind' : eof'.kind = .endOfInput := beq_iff_eq.1 heof'
  have hderivation : Program.Derivation .exact vs q := by
    have h := derivation_of_parse hvs heof'
    rw [hq] at h
    exact h rfl
  rw [parse_append_ended heof hus hp (by simp) (ended_append_singleton vs heof')
    (hderivation.headKind_ne (by simp [hkind'])), hq]

/-- **Parsing across a line break.** If nothing is wrong with two sources, the one that has a line break
between them is parsed as the statements of the first and then those of the second, but for the places
of these. -/
theorem parse_tokenize_append {a b : Text} (ha : (tokenize a).errors = [])
    (hb : (tokenize b).errors = []) {p q : Program} (hp : parse (tokenize a).tokens = ⟨p, []⟩)
    (hq : parse (tokenize b).tokens = ⟨q, []⟩) :
    ∃ q', Program.Alike anywhere q q' ∧ (tokenize (a ++ newline :: b)).errors = [] ∧
      parse (tokenize (a ++ newline :: b)).tokens = ⟨p ++ q', []⟩ := by
  obtain ⟨us, eof, vs, eof', hus, heof, hvs, heof', ha', hmoved, heq⟩ := tokenize_append ha hb
  have halike := parse_alike hmoved
  rw [hq] at halike
  have hmovedParse : parse (vs ++ [eof']) = ⟨(parse (vs ++ [eof'])).program, []⟩ := by
    rw [← List.map_eq_nil_iff.1 halike.errors.symm]
  rw [ha'] at hp
  refine ⟨(parse (vs ++ [eof'])).program, halike.program, by rw [heq], ?_⟩
  rw [heq]
  exact parse_append heof heof' hus hvs hp hmovedParse

end Lox
