import Lox.Token
import Lox.Number.Decimal

/-!
# Lexemes

How a source is cut into pieces. A *gap* is white space and comments; `splitGap` takes the longest
gap from the front of a text. What follows a gap is a *lexeme*: `Lexeme.ofText?` takes the longest
token from the front of a text, or the one byte that no token starts with, or the rest of the
source when a quote never closes. Both only cut: the pieces put together are the text
(`splitGap_append`, `Lexeme.ofText?_append`), and a lexeme is never empty.
-/

namespace Lox

/-! ## Byte classes -/

/-- White space between tokens. -/
def isBlank (b : UInt8) : Bool :=
  b == ascii ' ' || b == ascii '\t' || b == ascii '\r' || b == newline

/-- The bytes that a name can start with. -/
def isNameStart (b : UInt8) : Bool :=
  ascii 'a' ≤ b && b ≤ ascii 'z' || ascii 'A' ≤ b && b ≤ ascii 'Z' || b == ascii '_'

/-- The bytes that a name can go on with. -/
def isNamePart (b : UInt8) : Bool := isNameStart b || isDigit b

/-! ## Gaps -/

/-- The longest run of white space and comments, and the text behind it. The first argument says
whether the text begins inside a comment; a comment begins with two slashes and ends before the
next newline. -/
def splitGap : Bool → Text → Text × Text
  | _, [] => ([], [])
  | true, b :: rest =>
    let (gap, behind) := splitGap (b != newline) rest
    (b :: gap, behind)
  | false, b :: rest =>
    if isBlank b then
      let (gap, behind) := splitGap false rest
      (b :: gap, behind)
    else if b == ascii '/' && rest.head? == some (ascii '/') then
      let (gap, behind) := splitGap true rest
      (b :: gap, behind)
    else ([], b :: rest)

theorem splitGap_append (comment : Bool) (s : Text) :
    (splitGap comment s).1 ++ (splitGap comment s).2 = s := by
  fun_induction splitGap comment s <;> simp_all

theorem splitGap_length_le (comment : Bool) (s : Text) :
    (splitGap comment s).2.length ≤ s.length := by
  have h := congrArg List.length (splitGap_append comment s)
  rw [List.length_append] at h
  omega

/-! ## Lexemes -/

/-- What stands at the front of a text that does not begin with a gap. -/
inductive Lexeme
  /-- A token. -/
  | token (kind : TokenKind) (spelling : Text)
  /-- A byte that no token starts with. -/
  | stray (byte : UInt8)
  /-- A quote without a closing one, and everything behind it. -/
  | unclosed (spelling : Text)
  deriving DecidableEq

namespace Lexeme

/-- The bytes of a lexeme. -/
def bytes : Lexeme → Text
  | .token _ spelling => spelling
  | .stray b => [b]
  | .unclosed spelling => spelling

/-- The longest numeral at the front: digits, and a point if a digit follows it, with the digits
behind it. -/
def numeral (s : Text) : Text :=
  let whole := s.takeWhile isDigit
  match s.dropWhile isDigit with
  | p :: d :: rest =>
    if p == ascii '.' && isDigit d then whole ++ p :: (d :: rest).takeWhile isDigit else whole
  | _ => whole

/-- The first symbol spelled at the front. -/
def symbol? (s : Text) : Option (Text × TokenKind) :=
  TokenKind.symbols.find? fun entry => entry.1.isPrefixOf s

/-- The lexeme at the front of a text, if the text is not empty. -/
def first? : Text → Option Lexeme
  | [] => none
  | b :: rest =>
    if isDigit b then
      some (.token .number (numeral (b :: rest)))
    else if isNameStart b then
      let word := (b :: rest).takeWhile isNamePart
      some (.token (TokenKind.ofWord word) word)
    else if b == quote then
      let body := rest.takeWhile (· != quote)
      if body.length < rest.length then
        some (.token .string (b :: (body ++ [quote])))
      else
        some (.unclosed (b :: rest))
    else
      match symbol? (b :: rest) with
      | some (spelling, kind) => some (.token kind spelling)
      | none => some (.stray b)

/-- The lexeme at the front of a text and the text behind it. -/
def ofText? (s : Text) : Option (Lexeme × Text) :=
  (first? s).map fun l => (l, s.drop l.bytes.length)

/-- The value of a token, for the kinds that have one. -/
def constant? : TokenKind → Text → Option Constant
  | .number, spelling => some (.number (Number.ofNumeral spelling))
  | .string, spelling => some (.string (spelling.drop 1).dropLast)
  | _, _ => none

/-! ### Lexemes only cut -/

theorem numeral_isPrefix (s : Text) : numeral s <+: s := by
  unfold numeral
  have h : s.takeWhile isDigit ++ s.dropWhile isDigit = s := List.takeWhile_append_dropWhile
  split
  · next p d rest hd =>
    split
    · refine ⟨(d :: rest).dropWhile isDigit, ?_⟩
      rw [List.append_assoc, List.cons_append, List.takeWhile_append_dropWhile, ← hd, h]
    · exact List.takeWhile_prefix _
  · exact List.takeWhile_prefix _

theorem numeral_ne_nil {b : UInt8} {rest : Text} (h : isDigit b = true) :
    numeral (b :: rest) ≠ [] := by
  unfold numeral
  have : (b :: rest).takeWhile isDigit ≠ [] := by simp [h]
  split
  · split <;> simp_all
  · exact this

theorem takeWhile_append_mem {s : Text} {b : UInt8}
    (h : (s.takeWhile (· != b)).length < s.length) : s.takeWhile (· != b) ++ [b] <+: s := by
  induction s with
  | nil => simp at h
  | cons a s ih =>
    by_cases hab : a = b
    · subst hab
      simp [List.cons_prefix_cons]
    · simp only [List.takeWhile_cons, bne_iff_ne, ne_eq, hab, not_false_eq_true, if_true,
        List.length_cons, Nat.add_lt_add_iff_right] at h
      simpa [hab, List.cons_prefix_cons] using ih h

theorem symbol?_isPrefix {s : Text} {e : Text × TokenKind} (h : symbol? s = some e) :
    e.1 <+: s := by
  have := List.find?_some h
  exact List.isPrefixOf_iff_prefix.1 this

theorem symbols_ne_nil : ∀ e ∈ TokenKind.symbols, e.1 ≠ [] := by
  decide +kernel

/-- A lexeme is a non-empty beginning of the text. -/
theorem first?_isPrefix {s : Text} {l : Lexeme} (h : first? s = some l) :
    l.bytes <+: s ∧ l.bytes ≠ [] := by
  cases s with
  | nil => simp [first?] at h
  | cons b rest =>
    simp only [first?] at h
    split at h
    · next hd =>
      cases h
      exact ⟨numeral_isPrefix _, numeral_ne_nil hd⟩
    · split at h
      · next hn =>
        cases h
        exact ⟨List.takeWhile_prefix _, by simp [bytes, isNamePart, hn]⟩
      · split at h
        · split at h
          · next hb hlt =>
            cases h
            refine ⟨?_, by simp [bytes]⟩
            simp only [bytes]
            exact (List.prefix_cons_inj b).2 (takeWhile_append_mem hlt)
          · cases h
            exact ⟨List.prefix_refl _, by simp [bytes]⟩
        · split at h
          · next hs =>
            cases h
            exact ⟨symbol?_isPrefix hs, symbols_ne_nil _ (List.mem_of_find?_eq_some hs)⟩
          · cases h
            exact ⟨⟨rest, rfl⟩, by simp [bytes]⟩

theorem ofText?_append {s behind : Text} {l : Lexeme} (h : ofText? s = some (l, behind)) :
    l.bytes ++ behind = s := by
  obtain ⟨l', hl, he⟩ := Option.map_eq_some_iff.1 h
  cases he
  obtain ⟨⟨t, ht⟩, _⟩ := first?_isPrefix hl
  rw [← ht]
  simp

theorem ofText?_length_lt {s behind : Text} {l : Lexeme} (h : ofText? s = some (l, behind)) :
    behind.length < s.length := by
  obtain ⟨l', hl, he⟩ := Option.map_eq_some_iff.1 h
  have hne := (first?_isPrefix hl).2
  have ha := congrArg List.length (ofText?_append h)
  cases he
  have : 0 < l.bytes.length := List.length_pos_iff.2 hne
  rw [List.length_append] at ha
  omega

end Lexeme

end Lox
