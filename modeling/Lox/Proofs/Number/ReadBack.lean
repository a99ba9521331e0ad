import Lox.Proofs.Number.Order
import Lox.Proofs.Number.Shortest
import Lox.Proofs.Printing.Program

/-!
# Literals read back

A number that is not negative is written as one numeral. It reads back as that number if the number is
infinite, whole, at least `10 ^ -4`, or short enough for positional notation; otherwise the literal is
the magnitude rounded to twenty places, and reads as the number nearest to that
(`Number.literal_reads_back`). So it is not true that every literal reads back
(`Number.literal_reads_zero`).
-/

namespace Lox

namespace Number

variable {x y : Number}

/-- Numbers that are not negative are the same if their magnitudes are. -/
theorem eq_of_magnitudeBits (hx : x.isNegative = false) (hy : y.isNegative = false)
    (h : x.magnitudeBits = y.magnitudeBits) : x = y :=
  eq_of_parts (hx.trans hy.symm) h

theorem eq_ofDecimal (hsign : x.isNegative = false) {d : Decimal} (h : x.readsBack d = true) :
    ofDecimal d = x :=
  eq_of_magnitudeBits (ofUnits_spec _ _).1 hsign (beq_iff_eq.1 h)

theorem isFinite_of (hnan : x.isNaN = false) (hinfinite : x.isInfinite = false) :
    x.isFinite = true := by
  have hle := Nat.le_of_not_lt (of_decide_eq_false hnan)
  have hne : x.magnitudeBits ≠ infinityBits := by simpa [isInfinite] using hinfinite
  exact decide_eq_true (Nat.lt_of_le_of_ne hle hne)

/-! ## The forms of a literal -/

theorem ofNumeral_huge : ofNumeral (utf8 "1" ++ Decimal.zeros 309) = infinity := by
  have hone : ∀ b ∈ utf8 "1", isDigit b = true := List.forall_mem_singleton.2 rfl
  rw [ofNumeral_whole (isDigit_of_mem_append hone (isDigit_of_mem_zeros 309)),
    Text.toNat_append_zeros]
  decide +kernel

/-- Zero reads back, whatever its exponent. -/
theorem readsBack_zero (h : x.units = 0) (e : Int) :
    x.readsBack ⟨0, e⟩ = true := by
  obtain ⟨t, r, hbits, hunits, -, hnormal⟩ := exists_spacing x
  obtain rfl : r = 0 := by
    rw [h] at hunits
    exact (Nat.mul_eq_zero.1 hunits.symm).resolve_right (Nat.ne_of_gt (Nat.two_pow_pos t))
  obtain rfl : t = 0 := hnormal.resolve_right (by decide)
  rw [readsBack, magnitudeBits_ofDecimal_zero, hbits]
  rfl

theorem wholePart_mul (h : x.isWhole = true) : x.wholePart * unitsPerOne = x.units := by
  rw [isWhole, Bool.and_eq_true, beq_iff_eq] at h
  unfold wholePart
  exact Nat.div_mul_cancel (Nat.dvd_of_mod_eq_zero h.2)

/-- A whole number reads as itself. -/
theorem readsBack_whole (h : x.isWhole = true) : x.readsBack ⟨x.wholePart, 0⟩ = true := by
  have hfinite : x.isFinite = true := (Bool.and_eq_true_iff.1 h).1
  have hunits := wholePart_mul h
  by_cases hzero : x.units = 0
  · have hnone : x.wholePart = 0 := by rw [wholePart, hzero, Nat.zero_div]
    rw [hnone]
    exact readsBack_zero hzero 0
  · have hvalue : (Decimal.mk x.wholePart 0).units = (x.units, 1) := by
      rw [← hunits]
      simp [Decimal.units]
    rw [readsBack, ofDecimal, hvalue, beq_iff_eq]
    exact magnitudeBits_ofUnits hfinite (by dsimp only; omega) (by dsimp only; omega)

/-- Rounding to the places of a literal is off by half a unit in the twentieth place, which is less than
one part in `2 ^ 54` of a number that is at least `10 ^ -4`. -/
theorem readsBack_places (hfinite : x.isFinite = true) (h : unitsPerOne ≤ x.units * 10 ^ 4) :
    x.readsBack
      ⟨roundedQuotient (x.units * 10 ^ literalPlaces) unitsPerOne, -literalPlaces⟩ = true := by
  obtain ⟨hbelow, habove⟩ := roundedQuotient_spec (x.units * 10 ^ literalPlaces) unitsPerOne_pos
  have hpos := unitsPerOne_pos
  refine beq_iff_eq.2 (magnitudeBits_ofUnits hfinite ?_ ?_) <;>
    · dsimp only [Decimal.units, literalPlaces] at *
      generalize roundedQuotient (x.units * 10 ^ 20) unitsPerOne = q at *
      have hvalue : q * 10 ^ (-((20 : Nat) : Int)).toNat * unitsPerOne = q * unitsPerOne :=
        congrArg (· * unitsPerOne) (Nat.mul_one q)
      have hplaces : (-(-((20 : Nat) : Int))).toNat = 20 := rfl
      have hhalf : unitsPerOne * (2 * q) = 2 * (q * unitsPerOne) := by ring
      rw [hvalue, hplaces]
      omega

/-- The texts without an exponent read as the decimals that they write. -/
theorem ofNumeral_text (hnone : x.signText = []) (hnan : x.isNaN = false)
    (hinfinite : x.isInfinite = false) :
    (x.isWhole = true → ofNumeral x.text = ofDecimal ⟨x.wholePart, 0⟩) ∧
      (x.isWhole = false → x.shortest.isPositional = true →
        ofNumeral x.text = ofDecimal x.shortest) := by
  unfold text
  rw [if_neg (by rw [hnan]; exact Bool.false_ne_true),
    if_neg (by rw [hinfinite]; exact Bool.false_ne_true), hnone]
  constructor
  · intro hwhole
    rw [if_pos hwhole]
    split
    · next hzero =>
      rw [hzero]
      exact ofNumeral_whole (List.forall_mem_singleton.2 rfl)
    · rw [List.nil_append, ofNumeral_whole (Text.isDigit_of_mem_ofNat _), Text.toNat_ofNat]
  · intro hwhole hpositional
    rw [if_neg (by rw [hwhole]; exact Bool.false_ne_true), List.nil_append, Decimal.text,
      if_pos hpositional]
    exact x.shortest.ofNumeral_positional

/-- What the literal of a finite number denotes, by its form. -/
theorem ofNumeral_literal (hsign : x.isNegative = false) (hnan : x.isNaN = false)
    (hinfinite : x.isInfinite = false) :
    ofNumeral x.literal = if x.isWhole = true then ofDecimal ⟨x.wholePart, 0⟩
      else if x.shortest.isPositional = true then ofDecimal x.shortest
      else ofDecimal ⟨roundedQuotient (x.units * 10 ^ literalPlaces) unitsPerOne, -literalPlaces⟩ := by
  have hnone : x.signText = [] := by rw [signText, if_neg (by rw [hsign]; exact Bool.false_ne_true)]
  obtain ⟨hwhole, hpositional⟩ := ofNumeral_text hnone hnan hinfinite
  unfold literal
  rw [if_neg (by rw [hinfinite]; exact Bool.false_ne_true), hnone, hnan, Bool.false_or]
  cases hw : x.isWhole with
  | true =>
    rw [Bool.true_or, if_pos rfl, if_pos rfl]
    exact hwhole hw
  | false =>
    rw [Bool.false_or, if_neg Bool.false_ne_true]
    cases hp : x.shortest.isPositional with
    | true =>
      rw [if_pos rfl, if_pos rfl]
      exact hpositional hw hp
    | false =>
      rw [if_neg Bool.false_ne_true, if_neg Bool.false_ne_true, List.nil_append]
      exact ofNumeral_fixedText x (by decide)

/-- **Which literals read back.** The literal of a number that is not negative is scanned as one number
token. The token denotes the number itself if that is infinite, whole, at least `10 ^ -4`, or has a
shortest decimal that is written without an exponent. Otherwise the literal is the magnitude rounded to
twenty places, and the token denotes that. -/
theorem literal_reads_back (x : Number) (hsign : x.isNegative = false) (hnan : x.isNaN = false) :
    ∃ y, tokenize x.literal = ⟨[⟨.number, x.literal, some (.number y), .start⟩,
        .endOfInput (Location.start.after x.literal)], []⟩ ∧
      (x.isInfinite = true ∨ x.isWhole = true ∨ x.shortest.isPositional = true ∨
        unitsPerOne ≤ x.units * 10 ^ 4 → y = x) ∧
      (x.isInfinite = false → x.isWhole = false → x.shortest.isPositional = false →
        y = ofDecimal
          ⟨roundedQuotient (x.units * 10 ^ literalPlaces) unitsPerOne, -literalPlaces⟩) := by
  refine ⟨ofNumeral x.literal, ?_, fun h => ?_, fun hinfinite hwhole hpositional => ?_⟩
  · have hscan := scans_token (t := []) (.numeral (numeral_literal hsign hnan)) nofun .start
    rw [List.append_nil] at hscan
    exact hscan.tokenize_eq
  · cases hinfinite : x.isInfinite with
    | true =>
      have hliteral : x.literal = utf8 "1" ++ Decimal.zeros 309 := by
        rw [literal, if_pos hinfinite, signText,
          if_neg (by rw [hsign]; exact Bool.false_ne_true), List.nil_append]
      rw [hliteral, ofNumeral_huge]
      exact eq_of_magnitudeBits (by decide) hsign (beq_iff_eq.1 hinfinite).symm
    | false =>
      have hfinite := isFinite_of hnan hinfinite
      rw [ofNumeral_literal hsign hnan hinfinite]
      split
      · next hwhole => exact eq_ofDecimal hsign (readsBack_whole hwhole)
      · next hwhole =>
        have hunits : x.units ≠ 0 := by
          intro hzero
          rw [isWhole, hfinite, hzero, Nat.zero_mod] at hwhole
          exact hwhole rfl
        split
        · exact eq_ofDecimal hsign (readsBack_shortest hfinite hunits)
        · next hpositional =>
          have hlarge : unitsPerOne ≤ x.units * 10 ^ 4 := by
            simpa [hinfinite, hwhole, hpositional] using h
          exact eq_ofDecimal hsign (readsBack_places hfinite hlarge)
  · rw [ofNumeral_literal hsign hnan hinfinite, hwhole, hpositional]
    rfl

/-- Three thousandths, which is neither whole nor exactly a sum of powers of two, read back. -/
theorem literal_reads_back_thousandths :
    let x := ofNumeral (utf8 "0.003")
    x.isNegative = false ∧ x.isNaN = false ∧ x.literal = utf8 "0.003" ∧
      ∃ y, tokenize x.literal = ⟨[⟨.number, x.literal, some (.number y), .start⟩,
        .endOfInput (Location.start.after x.literal)], []⟩ ∧ y = x := by
  have hsign : (ofNumeral (utf8 "0.003")).isNegative = false := by decide +kernel
  have hnan : (ofNumeral (utf8 "0.003")).isNaN = false := by decide +kernel
  have hlarge : unitsPerOne ≤ (ofNumeral (utf8 "0.003")).units * 10 ^ 4 := by decide +kernel
  obtain ⟨y, hscan, hsame, -⟩ := literal_reads_back _ hsign hnan
  exact ⟨hsign, hnan, by decide +kernel, y, hscan, hsame (.inr (.inr (.inr hlarge)))⟩

/-- Not every literal reads back: a numeral can have its first digit other than zero in the twenty-first
place, and the literal of its number is zero. -/
theorem literal_reads_zero :
    let x := ofNumeral (utf8 "0.000000000000000000001")
    x.isNegative = false ∧ x.isNaN = false ∧
      (tokenize x.literal).tokens =
        [⟨.number, utf8 "0", some (.number zero), .start⟩, .endOfInput ⟨1, 2⟩] ∧ x ≠ zero :=
  ⟨by decide +kernel, by decide +kernel, by decide +kernel, by decide +kernel⟩

end Number

end Lox
