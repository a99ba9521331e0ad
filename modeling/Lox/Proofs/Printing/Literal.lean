import Lox.Number.Display
import Lox.Proofs.Printing.Spelling
import Mathlib.Data.List.Induction

/-!
# Literals are numerals

A number that was read from a numeral is not negative and is a number, and the literal written for it
is a numeral again (`numeral_literal`): digits, or digits around a point with some on either side. The
second side is where the shortest decimal of a number matters, which has a digit other than zero.
-/

namespace Lox

/-! ## Digits -/

theorem Text.ofNat_ne_nil (n : Nat) : Text.ofNat n ≠ [] := by
  rw [Text.ofNat]
  split
  · exact List.cons_ne_nil _ _
  · exact List.append_ne_nil_of_right_ne_nil _ (List.cons_ne_nil _ _)

theorem numeral_ofNat (n : Nat) : Numeral (Text.ofNat n) :=
  .whole (Text.ofNat_ne_nil n) (Text.isDigit_of_mem_ofNat n)

theorem isDigit_of_mem_zeros (n : Nat) : ∀ b ∈ Decimal.zeros n, isDigit b = true := by
  intro b hb
  rw [List.eq_of_mem_replicate hb]
  rfl

theorem isDigit_of_mem_append {s t : Text} (hs : ∀ b ∈ s, isDigit b = true)
    (ht : ∀ b ∈ t, isDigit b = true) : ∀ b ∈ s ++ t, isDigit b = true := by
  intro b hb
  rcases List.mem_append.1 hb with hb | hb
  · exact hs b hb
  · exact ht b hb

/-- What is left of a text without trailing zeros. -/
theorem mem_of_mem_stripped {s : Text} {p : UInt8 → Bool} {b : UInt8}
    (hb : b ∈ (s.reverse.dropWhile p).reverse) : b ∈ s := by
  rw [List.mem_reverse] at hb
  exact List.mem_reverse.1 ((List.dropWhile_sublist p).subset hb)

theorem toNat_eq_zero {t : Text} (h : ∀ b ∈ t, b = ascii '0') : Text.toNat t = 0 := by
  induction t using List.reverseRecOn with
  | nil => rfl
  | append_singleton t b ih =>
    rw [Text.toNat_append_singleton, ih fun c hc => h c (List.mem_append_left _ hc),
      h b (List.mem_append_right _ List.mem_cons_self)]
    rfl

namespace Decimal

variable {d : Decimal}

theorem isDigit_of_mem_significant : ∀ b ∈ d.significant, isDigit b = true :=
  fun b hb => Text.isDigit_of_mem_ofNat d.digits b (mem_of_mem_stripped hb)

/-- Only zero has no significant digits. -/
theorem significant_ne_nil (h : d.digits ≠ 0) : d.significant ≠ [] := by
  intro hnil
  refine h ?_
  rw [← Text.toNat_ofNat d.digits]
  refine toNat_eq_zero fun b hb => ?_
  have hall := List.dropWhile_eq_nil_iff.1 (List.reverse_eq_nil_iff.1 hnil)
  simpa using hall b (List.mem_reverse.2 hb)

/-- Positional notation is a numeral, if there is a digit behind the point. -/
theorem numeral_positional (h : d.digits ≠ 0 ∨ 0 ≤ d.leading) : Numeral d.positional := by
  have hs : ∀ b ∈ d.significant, isDigit b = true := isDigit_of_mem_significant
  unfold positional
  dsimp only
  split
  · next hlt =>
    have hne : d.significant ≠ [] := significant_ne_nil (h.resolve_right (by omega))
    have hzero : ∀ b ∈ [ascii '0'], isDigit b = true := List.forall_mem_singleton.2 rfl
    have hfraction := isDigit_of_mem_append (isDigit_of_mem_zeros (-d.leading - 1).toNat) hs
    exact Numeral.fraction (List.cons_ne_nil _ _) hzero
      (List.append_ne_nil_of_right_ne_nil _ hne) hfraction
  · split
    · next hle =>
      refine .whole ?_ (isDigit_of_mem_append hs (isDigit_of_mem_zeros _))
      intro hnil
      have hlength := congrArg List.length hnil
      rw [List.length_append, zeros, List.length_replicate, List.length_nil] at hlength
      omega
    · next hle =>
      have hwhole : ∀ b ∈ d.significant.take (d.leading.toNat + 1), isDigit b = true :=
        fun b hb => hs b (List.mem_of_mem_take hb)
      have hfraction : ∀ b ∈ d.significant.drop (d.leading.toNat + 1), isDigit b = true :=
        fun b hb => hs b (List.mem_of_mem_drop hb)
      have hlength : d.leading.toNat + 1 < d.significant.length := Nat.lt_of_not_le hle
      have htake : d.significant.take (d.leading.toNat + 1) ≠ [] := by
        intro hnil
        rw [← List.length_eq_zero_iff, List.length_take] at hnil
        omega
      have hdrop : d.significant.drop (d.leading.toNat + 1) ≠ [] := by
        intro hnil
        have := List.drop_eq_nil_iff.1 hnil
        omega
      rw [List.append_assoc]
      exact Numeral.fraction htake hwhole hdrop hfraction

end Decimal

/-! ## Numbers from numerals -/

namespace Number

theorem infinityBits_lt : infinityBits < 2 ^ 63 := by decide

theorem ofMagnitude_spec (negative : Bool) {k : Nat} (h : k < 2 ^ 63) :
    (ofMagnitude negative k).isNegative = negative ∧ (ofMagnitude negative k).magnitudeBits = k := by
  have hbits : (ofMagnitude negative k).bits.toNat = if negative then k + 2 ^ 63 else k := by
    show (UInt64.ofNat (if negative then k + 2 ^ 63 else k)).toNat = _
    rw [UInt64.toNat_ofNat']
    split <;> omega
  rw [isNegative, magnitudeBits, hbits]
  cases negative with
  | false => exact ⟨decide_eq_false (Nat.not_le_of_lt h), Nat.mod_eq_of_lt h⟩
  | true => exact ⟨decide_eq_true (Nat.le_add_left _ _), by rw [if_pos rfl]; omega⟩

theorem magnitudeBits_ofMagnitude {k : Nat} (h : k < 2 ^ 63) :
    (ofMagnitude false k).magnitudeBits = k :=
  (ofMagnitude_spec false h).2

/-- What reading a decimal gives is a number, and it is not negative. -/
theorem ofUnits_spec (n d : Nat) :
    (ofUnits n d).isNegative = false ∧ (ofUnits n d).isNaN = false := by
  unfold ofUnits
  dsimp only
  have hle := Nat.min_le_right
    (((n / d).log2 - 52) * 2 ^ 52 + roundedQuotient n (d * 2 ^ ((n / d).log2 - 52))) infinityBits
  have hlt := Nat.lt_of_le_of_lt hle infinityBits_lt
  constructor
  · exact (ofMagnitude_spec false hlt).1
  · rw [isNaN, magnitudeBits_ofMagnitude hlt]
    exact decide_eq_false (Nat.not_lt_of_le hle)

theorem roundedQuotient_zero {d : Nat} (h : 0 < d) : roundedQuotient 0 d = 0 := by
  unfold roundedQuotient
  rw [Nat.zero_div, Nat.zero_mod]
  exact if_pos (.inl h)

/-- A decimal without a digit other than zero is zero. -/
theorem magnitudeBits_ofDecimal_zero (e : Int) : (ofDecimal ⟨0, e⟩).magnitudeBits = 0 := by
  have hd : 0 < 10 ^ (-e).toNat := Nat.pow_pos (by decide)
  have hround : roundedQuotient 0 (10 ^ (-e).toNat * 2 ^ 0) = 0 :=
    roundedQuotient_zero (by rwa [Nat.pow_zero, Nat.mul_one])
  show (ofUnits (0 * 10 ^ e.toNat * unitsPerOne) (10 ^ (-e).toNat)).magnitudeBits = 0
  rw [Nat.zero_mul, Nat.zero_mul, ofUnits, Nat.zero_div]
  show (ofMagnitude false (min (0 * 2 ^ 52 + roundedQuotient 0 (10 ^ (-e).toNat * 2 ^ 0))
    infinityBits)).magnitudeBits = 0
  rw [hround]
  rfl

theorem units_of_magnitudeBits {x : Number} (h : x.magnitudeBits = 0) : x.units = 0 := by
  rw [units, exponent, fraction, h]
  rfl

/-- Zero is whole. -/
theorem isWhole_of_magnitudeBits {x : Number} (h : x.magnitudeBits = 0) : x.isWhole = true := by
  rw [isWhole, isFinite, h, units_of_magnitudeBits h, Nat.zero_mod]
  rfl

/-- The shortest decimal of a number that is not whole has a digit other than zero, or nothing
behind its point. -/
theorem shortest_spec {x : Number} (h : x.isWhole = false) :
    x.shortest.digits ≠ 0 ∨ 0 ≤ x.shortest.leading := by
  unfold shortest
  cases hf : (List.range 17).findSome? fun k => x.ofLength? (k + 1) with
  | none =>
    have hpos := List.length_pos_iff.2 (Text.ofNat_ne_nil 0)
    refine .inr ?_
    show (0 : Int) ≤ 0 + ((Text.ofNat 0).length : Int) - 1
    omega
  | some d =>
    refine .inl fun hzero => ?_
    obtain ⟨k, _, hk⟩ := List.exists_of_findSome?_eq_some hf
    have hread := readsBack_of_ofLength? hk
    obtain ⟨digits, e⟩ := d
    obtain rfl : digits = 0 := hzero
    rw [readsBack, magnitudeBits_ofDecimal_zero, beq_iff_eq] at hread
    rw [isWhole_of_magnitudeBits hread.symm] at h
    cases h

theorem numeral_fixedText (x : Number) (places : Nat) : Numeral (x.fixedText places) := by
  unfold fixedText
  dsimp only
  split
  · rw [List.append_nil]
    exact numeral_ofNat _
  · next hkept =>
    refine Numeral.fraction (Text.ofNat_ne_nil _) (Text.isDigit_of_mem_ofNat _)
      (by simpa using hkept) fun b hb => ?_
    exact isDigit_of_mem_append (isDigit_of_mem_zeros _) (Text.isDigit_of_mem_ofNat _) b
      (mem_of_mem_stripped hb)

/-- The text of a finite number without an exponent is a numeral. -/
theorem numeral_text {x : Number} (hnone : x.signText = []) (hnan : x.isNaN = false)
    (hinfinite : x.isInfinite = false)
    (h : x.isWhole = true ∨ x.shortest.isPositional = true) : Numeral x.text := by
  unfold text
  rw [if_neg (by rw [hnan]; exact Bool.false_ne_true),
    if_neg (by rw [hinfinite]; exact Bool.false_ne_true), hnone]
  by_cases hwhole : x.isWhole = true
  · rw [if_pos hwhole]
    split
    · exact .whole (List.cons_ne_nil _ _) (List.forall_mem_singleton.2 rfl)
    · exact numeral_ofNat _
  · have hpositional := h.resolve_left hwhole
    rw [if_neg hwhole, List.nil_append, Decimal.text, if_pos hpositional]
    exact Decimal.numeral_positional (shortest_spec (Bool.eq_false_iff.2 hwhole))

/-- The numeral for infinity. -/
theorem numeral_huge : Numeral (utf8 "1" ++ Decimal.zeros 309) := by
  have hone : ∀ b ∈ utf8 "1", isDigit b = true := List.forall_mem_singleton.2 rfl
  exact .whole (List.append_ne_nil_of_left_ne_nil (by decide) _)
    (isDigit_of_mem_append hone (isDigit_of_mem_zeros 309))

/-- The literal of a number that is not negative is a numeral. -/
theorem numeral_literal {x : Number} (hsign : x.isNegative = false) (hnan : x.isNaN = false) :
    Numeral x.literal := by
  have hnone : x.signText = [] := by rw [signText, if_neg (by rw [hsign]; exact Bool.false_ne_true)]
  unfold literal
  cases hinfinite : x.isInfinite with
  | true =>
    rw [if_pos rfl, hnone, List.nil_append]
    exact numeral_huge
  | false =>
    rw [if_neg Bool.false_ne_true, hnone, hnan, Bool.false_or, List.nil_append]
    cases hplain : (x.isWhole || x.shortest.isPositional) with
    | true =>
      rw [if_pos rfl]
      exact numeral_text hnone hnan hinfinite (Bool.or_eq_true_iff.1 hplain)
    | false =>
      rw [if_neg Bool.false_ne_true]
      exact numeral_fixedText x literalPlaces

theorem numeral_literal_ofNumeral (t : Text) : Numeral (ofNumeral t).literal :=
  numeral_literal (ofUnits_spec _ _).1 (ofUnits_spec _ _).2

end Number

end Lox
