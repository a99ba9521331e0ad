import Lox.Proofs.Number.Rounding

/-!
# Equal numbers and their order

The bits of a number without its sign count the magnitudes in their order, and with the sign they are
the place of the number among all of them. The two zeros share a place. Finite numbers are equal if and
only if they have the same value (`Number.equal_iff_value_eq`), and then they have the same literal.
-/

namespace Lox

namespace Number

variable {x y z : Number}

/-- A magnitude with the sign of a number. -/
def signed (x : Number) (k : Nat) : Int := if x.isNegative then -k else k

/-- The value of a finite number, in units. -/
def value (x : Number) : Int := x.signed x.units

/-- The place of a number in the order of all of them. -/
def place (x : Number) : Int := x.signed x.magnitudeBits

/-- The number at a place. -/
def ofPlace (k : Int) : Number := ofMagnitude (decide (k < 0)) k.natAbs

/-! ## Places and values -/

theorem place_ofPlace {k : Int} (h : k.natAbs < infinityBits) :
    (ofPlace k).place = k ∧ (ofPlace k).isFinite = true := by
  obtain ⟨hsign, hbits⟩ := ofMagnitude_spec (decide (k < 0)) (h.trans infinityBits_lt)
  unfold place signed isFinite ofPlace
  rw [hsign, hbits]
  refine ⟨?_, decide_eq_true h⟩
  split
  · next hneg =>
    have := of_decide_eq_true hneg
    omega
  · next hpos =>
    have := of_decide_eq_false (Bool.not_eq_true _ ▸ hpos)
    omega

/-- Magnitudes are ordered as their bits are. -/
theorem units_lt_units (h : x.magnitudeBits < y.magnitudeBits) : x.units < y.units := by
  obtain ⟨t, r, hbits, hunits, hr, hnormal⟩ := exists_spacing x
  obtain ⟨u, s, hbits', hunits', hs, hnormal'⟩ := exists_spacing y
  rw [hunits, hunits']
  rcases Nat.lt_trichotomy t u with htu | rfl | hut
  · have hs' : 2 ^ 52 ≤ s := hnormal'.resolve_left (by omega)
    calc r * 2 ^ t < 2 ^ 53 * 2 ^ t := Nat.mul_lt_mul_of_pos_right hr (Nat.two_pow_pos t)
      _ = 2 ^ 52 * 2 ^ (t + 1) := by rw [Nat.pow_succ]; ring
      _ ≤ s * 2 ^ u := Nat.mul_le_mul hs' (Nat.pow_le_pow_right (by decide) htu)
  · exact Nat.mul_lt_mul_of_pos_right (by omega) (Nat.two_pow_pos t)
  · have hr' : 2 ^ 52 ≤ r := hnormal.resolve_left (by omega)
    omega

theorem units_eq_units (h : x.magnitudeBits = y.magnitudeBits) : x.units = y.units := by
  rw [units, units, exponent, exponent, fraction, fraction, h]

theorem magnitudeBits_of_units (h : x.units = 0) : x.magnitudeBits = 0 := by
  by_contra hne
  have hlt : zero.units < x.units := units_lt_units (Nat.pos_of_ne_zero hne)
  exact Nat.not_lt_zero _ (h ▸ hlt)

/-- Values are ordered as their places are. -/
theorem value_lt_value (h : x.place < y.place) : x.value < y.value := by
  have hlt := @units_lt_units x y
  have hgt := @units_lt_units y x
  have hx := @magnitudeBits_of_units x
  have hy := @magnitudeBits_of_units y
  unfold place signed at h
  unfold value signed
  cases hsx : x.isNegative <;> cases hsy : y.isNegative <;>
    simp only [hsx, hsy, if_true, if_false, Bool.false_eq_true] at h ⊢ <;> omega

theorem value_eq_value (h : x.place = y.place) : x.value = y.value := by
  have heq := @units_eq_units x y
  have hx := @units_of_magnitudeBits x
  have hy := @units_of_magnitudeBits y
  unfold place signed at h
  unfold value signed
  cases hsx : x.isNegative <;> cases hsy : y.isNegative <;>
    simp only [hsx, hsy, if_true, if_false, Bool.false_eq_true] at h ⊢ <;> omega

theorem place_lt_iff : x.place < y.place ↔ x.value < y.value := by
  refine ⟨value_lt_value, fun h => ?_⟩
  rcases Int.lt_trichotomy x.place y.place with hlt | heq | hgt
  · exact hlt
  · exact absurd (value_eq_value heq) (Int.ne_of_lt h)
  · exact absurd (value_lt_value hgt) (Int.lt_asymm h)

theorem place_eq_iff : x.place = y.place ↔ x.value = y.value := by
  refine ⟨value_eq_value, fun h => ?_⟩
  refine Int.le_antisymm (Int.not_lt.1 fun hlt => ?_) (Int.not_lt.1 fun hlt => ?_)
  · exact absurd h.symm (Int.ne_of_lt (place_lt_iff.1 hlt))
  · exact absurd h (Int.ne_of_lt (place_lt_iff.1 hlt))

theorem eq_of_parts (hsign : x.isNegative = y.isNegative)
    (hbits : x.magnitudeBits = y.magnitudeBits) : x = y := by
  have hx := x.bits.toNat_lt
  have hy := y.bits.toNat_lt
  rw [isNegative, isNegative, decide_eq_decide] at hsign
  unfold magnitudeBits at hbits
  exact congrArg Number.mk (UInt64.toNat_inj.1 (by omega))

/-! ## Equality -/

theorem equal_iff : x.equal y = true ↔ x.isNaN = false ∧ y.isNaN = false ∧
    (x = y ∨ x.magnitudeBits = 0 ∧ y.magnitudeBits = 0) := by
  have hbits : x.bits = y.bits ↔ x = y := ⟨fun h => congrArg Number.mk h, fun h => congrArg bits h⟩
  simp only [equal, Bool.and_eq_true, Bool.or_eq_true, Bool.not_eq_true', beq_iff_eq, hbits, and_assoc]

theorem equal_self (x : Number) : x.equal x = !x.isNaN := by
  rw [equal, beq_self_eq_true, Bool.true_or, Bool.and_true, Bool.and_self]

theorem equal_trans (h : x.equal y = true) (h' : y.equal z = true) : x.equal z = true := by
  obtain ⟨hx, -, hxy⟩ := equal_iff.1 h
  obtain ⟨-, hz, hyz⟩ := equal_iff.1 h'
  refine equal_iff.2 ⟨hx, hz, ?_⟩
  rcases hxy with rfl | ⟨hx0, hy0⟩
  · exact hyz
  · rcases hyz with rfl | ⟨-, hz0⟩
    · exact .inr ⟨hx0, hy0⟩
    · exact .inr ⟨hx0, hz0⟩

theorem isNaN_of_isFinite (h : x.isFinite = true) : x.isNaN = false :=
  decide_eq_false (Nat.not_lt_of_lt (of_decide_eq_true h))

theorem isInfinite_of_isFinite (h : x.isFinite = true) : x.isInfinite = false :=
  beq_eq_false_iff_ne.2 (Nat.ne_of_lt (of_decide_eq_true h))

/-- Finite numbers are equal if and only if they have the same value. -/
theorem equal_iff_value_eq (hx : x.isFinite = true) (hy : y.isFinite = true) :
    x.equal y = true ↔ x.value = y.value := by
  rw [equal_iff, ← place_eq_iff]
  constructor
  · rintro ⟨-, -, rfl | ⟨hx0, hy0⟩⟩
    · rfl
    · unfold place signed
      rw [hx0, hy0]
      split <;> split <;> rfl
  · intro h
    refine ⟨isNaN_of_isFinite hx, isNaN_of_isFinite hy, ?_⟩
    by_cases hsign : x.isNegative = y.isNegative
    · refine .inl (eq_of_parts hsign ?_)
      unfold place signed at h
      rw [hsign] at h
      split at h <;> omega
    · -- numbers of different signs that share a place
      right
      unfold place signed at h
      cases hsx : x.isNegative <;> cases hsy : y.isNegative <;>
        simp only [hsx, hsy, if_true, if_false, Bool.false_eq_true, not_true] at h hsign <;> omega

/-! ## The text of zero -/

theorem text_of_magnitudeBits (h : x.magnitudeBits = 0) : x.text = utf8 "0" := by
  have hfinite : x.isFinite = true := by
    rw [isFinite, h]
    rfl
  have hpart : x.wholePart = 0 := by rw [wholePart, units_of_magnitudeBits h, Nat.zero_div]
  rw [text, if_neg (ne_true_of_eq_false (isNaN_of_isFinite hfinite)),
    if_neg (ne_true_of_eq_false (isInfinite_of_isFinite hfinite)),
    if_pos (isWhole_of_magnitudeBits h), if_pos hpart]

theorem literal_of_magnitudeBits (h : x.magnitudeBits = 0) : x.literal = utf8 "0" := by
  have hinfinite : x.isInfinite = false := by
    rw [isInfinite, h]
    rfl
  rw [literal, if_neg (ne_true_of_eq_false hinfinite), isWhole_of_magnitudeBits h, Bool.or_true,
    Bool.true_or, if_pos rfl, text_of_magnitudeBits h]

/-- Equal numbers have the same literal. -/
theorem literal_eq_of_equal (h : x.equal y = true) : x.literal = y.literal := by
  obtain ⟨-, -, rfl | ⟨hx, hy⟩⟩ := equal_iff.1 h
  · rfl
  · rw [literal_of_magnitudeBits hx, literal_of_magnitudeBits hy]

end Number

end Lox
