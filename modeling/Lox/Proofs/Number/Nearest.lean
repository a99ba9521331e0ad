import Lox.Proofs.Number.Order

/-!
# Nearest numbers

`Number.Rounds` says what correct rounding is, apart from any algorithm: of all finite numbers none is
nearer, and where another one is equally near the last bit is even. Only one value can be that
(`Number.Rounds.value_eq`), and `Number.ofUnits` finds its magnitude (`Number.rounds_of_ofUnits`).
-/

namespace Lox

/-- How far two natural numbers are apart. -/
def apart (a b : Nat) : Nat := ((a : Int) - b).natAbs

/-- Of all multiples of the divisor the rounded quotient is nearest, and even if another is as near. -/
theorem roundedQuotient_nearest {d : Nat} (n : Nat) (hd : 0 < d) (m : Nat) :
    apart (roundedQuotient n d * d) n ≤ apart (m * d) n ∧
      (apart (m * d) n = apart (roundedQuotient n d * d) n → m ≠ roundedQuotient n d →
        roundedQuotient n d % 2 = 0) := by
  have hn : n / d * d + n % d = n := Nat.div_add_mod' n d
  have hr : n % d < d := Nat.mod_lt n hd
  have hsucc : (n / d + 1) * d = n / d * d + d := Nat.succ_mul _ _
  -- the multiples in question are the two around the number, or they lie beyond one of these
  have hbelow : m < n / d → m * d + d ≤ n / d * d := fun h => by
    rw [← Nat.succ_mul]
    exact Nat.mul_le_mul_right d h
  have habove : n / d + 1 < m → (n / d + 1) * d + d ≤ m * d := fun h => by
    rw [← Nat.succ_mul]
    exact Nat.mul_le_mul_right d h
  have hcases : m < n / d ∨ m = n / d ∨ m = n / d + 1 ∨ n / d + 1 < m := by omega
  unfold roundedQuotient apart
  dsimp only
  rcases hcases with h | rfl | rfl | h <;> split <;> omega

namespace Number

variable {x y : Number} {n : Int} {d : Nat}

/-! ## Correct rounding -/

/-- How far a number is from `n / d` units, in parts of the denominator. -/
def distance (x : Number) (n : Int) (d : Nat) : Nat := (x.value * d - n).natAbs

/-- How often the spacing has doubled at the largest finite numbers. -/
def widest : Nat := 2045

/-- The number is the fraction `n / d` of units, correctly rounded: it is finite, no finite number is
nearer, and its last bit is even if another one is as near. -/
structure Rounds (x : Number) (n : Int) (d : Nat) : Prop where
  /-- What lies half a spacing beyond the largest finite number, or further, is rounded to an infinity. -/
  inRange : 2 * n.natAbs < (2 ^ 54 - 1) * (d * 2 ^ widest)
  isFinite : x.isFinite = true
  nearest : ∀ y : Number, y.isFinite = true → x.distance n d ≤ y.distance n d
  even : ∀ y : Number, y.isFinite = true → y.distance n d = x.distance n d → y.value ≠ x.value →
    x.magnitudeBits % 2 = 0

theorem natAbs_place (x : Number) : x.place.natAbs = x.magnitudeBits := by
  unfold place signed
  split <;> omega

/-- Of two numbers with an even last bit the next number after the smaller one lies in between. So it is
nearer to what is as far from both. -/
theorem Rounds.not_value_lt (hd : 0 < d) (hx : x.Rounds n d) (hy : y.Rounds n d) :
    ¬ x.value < y.value := by
  intro hlt
  have hdistance : x.distance n d = y.distance n d :=
    Nat.le_antisymm (hx.nearest y hy.isFinite) (hy.nearest x hx.isFinite)
  have hplace : x.place < y.place := place_lt_iff.2 hlt
  have hevenx := hx.even y hy.isFinite hdistance.symm (Int.ne_of_gt hlt)
  have heveny := hy.even x hx.isFinite hdistance (Int.ne_of_lt hlt)
  have hfinx : x.magnitudeBits < infinityBits := of_decide_eq_true hx.isFinite
  have hfiny : y.magnitudeBits < infinityBits := of_decide_eq_true hy.isFinite
  rw [← natAbs_place] at hevenx heveny hfinx hfiny
  obtain ⟨hz, hfinite⟩ := @place_ofPlace (x.place + 1) (by omega)
  have hxz : x.value < (ofPlace (x.place + 1)).value := value_lt_value (by omega)
  have hzy : (ofPlace (x.place + 1)).value < y.value := value_lt_value (by omega)
  have hnear := hx.nearest _ hfinite
  have hd' : (0 : Int) < d := Int.natCast_pos.2 hd
  have hxz' := Int.mul_lt_mul_of_pos_right hxz hd'
  have hzy' := Int.mul_lt_mul_of_pos_right hzy hd'
  unfold distance at hdistance hnear
  omega

/-- There is only one value that a fraction is rounded to. -/
theorem Rounds.value_eq (hd : 0 < d) (hx : x.Rounds n d) (hy : y.Rounds n d) : x.value = y.value :=
  Int.le_antisymm (Int.not_lt.1 (hy.not_value_lt hd hx)) (Int.not_lt.1 (hx.not_value_lt hd hy))

/-- Only one number of each sign is a rounding. -/
theorem Rounds.and_isNegative_iff (hd : 0 < d) (hx : x.Rounds n d) :
    y.Rounds n d ∧ y.isNegative = x.isNegative ↔ y = x := by
  constructor
  · rintro ⟨hy, hsign⟩
    refine eq_of_parts hsign ?_
    rw [← natAbs_place, ← natAbs_place, place_eq_iff.2 (hy.value_eq hd hx)]
  · rintro rfl
    exact ⟨hx, rfl⟩

/-! ## The nearest magnitude -/

/-- Counted in spacings a quotient has at most 53 bits, and as many where the spacing is more than one
unit. -/
theorem quotient_bounds {k t : Nat} (ht : t = (k / d).log2 - 52) :
    k / (d * 2 ^ t) < 2 ^ 53 ∧ (t = 0 ∨ 2 ^ 52 ≤ k / (d * 2 ^ t)) := by
  have hquotient : k / (d * 2 ^ t) = k / d / 2 ^ t := (Nat.div_div_eq_div_mul k d (2 ^ t)).symm
  rw [hquotient, Nat.div_lt_iff_lt_mul (Nat.two_pow_pos t),
    Nat.le_div_iff_mul_le (Nat.two_pow_pos t), ← Nat.pow_add, ← Nat.pow_add]
  by_cases hzero : k / d = 0
  · rw [hzero] at ht ⊢
    exact ⟨Nat.two_pow_pos _, .inl ht⟩
  · refine ⟨(Nat.log2_lt hzero).1 (by omega), ?_⟩
    by_cases hunit : t = 0
    · exact .inl hunit
    · exact .inr ((Nat.le_log2 hzero).1 (by omega))

/-- The spacing of the numbers around a quotient. The rounded quotient is the multiple of it that the
number is, also where that has 54 bits and the number is the first one with a wider spacing. -/
theorem exists_spacing_ofUnits {k : Nat} (hd : 0 < d) (hx : x.isFinite = true)
    (hbits : (ofUnits k d).magnitudeBits = x.magnitudeBits) :
    ∃ t, x.magnitudeBits = t * 2 ^ 52 + roundedQuotient k (d * 2 ^ t) ∧
      x.units = roundedQuotient k (d * 2 ^ t) * 2 ^ t ∧ roundedQuotient k (d * 2 ^ t) ≤ 2 ^ 53 ∧
        (t = 0 ∨ 2 ^ 52 * (d * 2 ^ t) ≤ k) := by
  obtain ⟨t, ht⟩ : ∃ t, t = (k / d).log2 - 52 := ⟨_, rfl⟩
  obtain ⟨hupper, hlower⟩ := quotient_bounds ht
  have hfin : x.magnitudeBits < infinityBits := of_decide_eq_true hx
  have hspacing : 0 < d * 2 ^ t := Nat.mul_pos hd (Nat.two_pow_pos t)
  have hge := div_le_roundedQuotient k (d * 2 ^ t)
  have hle := roundedQuotient_le k (d * 2 ^ t)
  have hmagnitude : x.magnitudeBits = t * 2 ^ 52 + roundedQuotient k (d * 2 ^ t) := by
    unfold ofUnits at hbits
    dsimp only at hbits
    rw [← ht, magnitudeBits_ofMagnitude
      (Nat.lt_of_le_of_lt (Nat.min_le_right _ _) infinityBits_lt)] at hbits
    omega
  refine ⟨t, hmagnitude, ?_, by omega, ?_⟩
  · obtain ⟨u, r, hbits', hunits, hr, hnormal⟩ := exists_spacing x
    obtain ⟨rfl, rfl⟩ | ⟨rfl, rfl, hq⟩ : u = t ∧ r = roundedQuotient k (d * 2 ^ t) ∨
        u = t + 1 ∧ r = 2 ^ 52 ∧ roundedQuotient k (d * 2 ^ t) = 2 ^ 53 := by omega
    · exact hunits
    · rw [hunits, hq, Nat.pow_succ 2 t]
      ring
  · refine hlower.imp_right fun h => ?_
    exact (Nat.le_div_iff_mul_le hspacing).1 h

/-- The number nearest to a quotient is at least as near as any other, and even if another is as near. -/
theorem apart_ofUnits_le {k : Nat} (hd : 0 < d) (hx : x.isFinite = true)
    (hbits : (ofUnits k d).magnitudeBits = x.magnitudeBits) (y : Number) :
    apart (x.units * d) k ≤ apart (y.units * d) k ∧
      (apart (y.units * d) k = apart (x.units * d) k → y.units ≠ x.units → x.magnitudeBits % 2 = 0) := by
  obtain ⟨t, hmagnitude, hunits, -, hwide⟩ := exists_spacing_ofUnits hd hx hbits
  obtain ⟨u, s, -, hunits', hs, -⟩ := exists_spacing y
  have hnearest := @roundedQuotient_nearest (d * 2 ^ t) k (Nat.mul_pos hd (Nat.two_pow_pos t))
  have hvalue : x.units * d = roundedQuotient k (d * 2 ^ t) * (d * 2 ^ t) := by rw [hunits]; ring
  rw [hvalue]
  by_cases htu : t ≤ u
  · -- the other number is a multiple of the spacing
    obtain ⟨j, rfl⟩ := Nat.exists_eq_add_of_le htu
    have hmultiple : y.units = s * 2 ^ j * 2 ^ t := by rw [hunits', Nat.pow_add]; ring
    have hvalue' : y.units * d = s * 2 ^ j * (d * 2 ^ t) := by rw [hmultiple]; ring
    obtain ⟨hle, heven⟩ := hnearest (s * 2 ^ j)
    rw [hvalue']
    refine ⟨hle, fun htie hne => ?_⟩
    have hother : s * 2 ^ j ≠ roundedQuotient k (d * 2 ^ t) := by
      intro h
      exact hne (by rw [hmultiple, hunits, h])
    have := heven htie hother
    omega
  · -- the other number lies below all of those with this spacing, and the least of them is nearer
    have hsmaller : y.units < 2 ^ 52 * 2 ^ t := by
      calc y.units = s * 2 ^ u := hunits'
        _ < 2 ^ 53 * 2 ^ u := Nat.mul_lt_mul_of_pos_right hs (Nat.two_pow_pos u)
        _ = 2 ^ 52 * 2 ^ (u + 1) := by rw [Nat.pow_succ 2 u]; ring
        _ ≤ 2 ^ 52 * 2 ^ t :=
          Nat.mul_le_mul_left _ (Nat.pow_le_pow_right (by decide) (Nat.lt_of_not_le htu))
    have hbelow : y.units * d < 2 ^ 52 * (d * 2 ^ t) := by
      calc y.units * d < 2 ^ 52 * 2 ^ t * d := Nat.mul_lt_mul_of_pos_right hsmaller hd
        _ = 2 ^ 52 * (d * 2 ^ t) := by ring
    have hleast : 2 ^ 52 * (d * 2 ^ t) ≤ k := hwide.resolve_left (by omega)
    have hle := (hnearest (2 ^ 52)).1
    unfold apart at hle ⊢
    omega

/-- What is rounded to a finite number is not too large for one. -/
theorem inRange_of_ofUnits {k : Nat} (hd : 0 < d) (hx : x.isFinite = true)
    (hbits : (ofUnits k d).magnitudeBits = x.magnitudeBits) :
    2 * k < (2 ^ 54 - 1) * (d * 2 ^ widest) := by
  obtain ⟨t, hmagnitude, -, hq, hwide⟩ := exists_spacing_ofUnits hd hx hbits
  have hspacing : 0 < d * 2 ^ t := Nat.mul_pos hd (Nat.two_pow_pos t)
  obtain ⟨habove, -⟩ := roundedQuotient_spec k hspacing
  have hodd := (@roundedQuotient_nearest (d * 2 ^ t) k hspacing
    (roundedQuotient k (d * 2 ^ t) + 1)).2
  have hlower : t = 0 ∨ 2 ^ 52 ≤ roundedQuotient k (d * 2 ^ t) :=
    hwide.imp_right fun h =>
      ((Nat.le_div_iff_mul_le hspacing).2 h).trans (div_le_roundedQuotient _ _)
  have hsize : t = widest ∧ roundedQuotient k (d * 2 ^ t) ≤ 2 ^ 53 - 1 ∨ t + 1 ≤ widest := by
    have hfin : x.magnitudeBits < 2047 * 2 ^ 52 := of_decide_eq_true hx
    clear hodd habove hwide
    unfold widest
    omega
  generalize hspaced : d * 2 ^ t = e at *
  generalize roundedQuotient k e = q at *
  have hdouble : e * (2 * q) = 2 * (q * e) := by ring
  rw [hdouble] at habove
  rcases hsize with ⟨rfl, hlargest⟩ | hbelow
  · rw [hspaced]
    rcases Nat.lt_or_eq_of_le hlargest with hless | heq
    · have hle : q * e ≤ (2 ^ 53 - 2) * e := Nat.mul_le_mul_right e (Nat.le_sub_one_of_lt hless)
      omega
    · -- the largest multiple of the widest spacing is odd: what is half way above it is rounded up
      have hvalue : (2 ^ 54 - 1) * e = 2 * (q * e) + e := by
        rw [heq]
        ring
      have hlast : q % 2 = 1 := by rw [heq]
      rw [Nat.succ_mul] at hodd
      unfold apart at hodd
      rw [hvalue]
      clear heq hvalue
      omega
  · have hle' : q * e ≤ 2 ^ 53 * e := Nat.mul_le_mul_right e hq
    have hwider : e * 2 ≤ d * 2 ^ widest := by
      rw [← hspaced, Nat.mul_assoc, ← Nat.pow_succ]
      exact Nat.mul_le_mul_left d (Nat.pow_le_pow_right (by decide) hbelow)
    generalize d * 2 ^ widest = f at *
    omega

/-! ## The nearest number -/

/-- A number of the same sign is as far away as its magnitude; the way to one of the other sign leads
through zero. -/
theorem distance_signed (x y : Number) (k d : Nat) :
    y.distance (x.signed k) d =
      if y.isNegative = x.isNegative then apart (y.units * d) k else y.units * d + k := by
  have hneg : (-(y.units : Int)) * d = -((y.units * d : Nat) : Int) := by
    rw [Int.neg_mul, Nat.cast_mul]
  have hpos : (y.units : Int) * d = ((y.units * d : Nat) : Int) := (Nat.cast_mul _ _).symm
  unfold distance apart value signed
  generalize y.units * d = m at hneg hpos ⊢
  cases y.isNegative <;> cases x.isNegative <;>
    simp only [if_true, if_false, Bool.false_eq_true, Bool.true_eq_false, hneg, hpos] <;> omega

/-- A fraction with the sign of a number rounds to that number if its magnitude rounds to the magnitude
of the number. -/
theorem rounds_of_ofUnits {k : Nat} (hd : 0 < d) (hx : x.isFinite = true)
    (hbits : (ofUnits k d).magnitudeBits = x.magnitudeBits) : x.Rounds (x.signed k) d := by
  have hself : x.distance (x.signed k) d = apart (x.units * d) k := by
    rw [distance_signed, if_pos rfl]
  have hother (y : Number) : apart (y.units * d) k ≤ y.distance (x.signed k) d := by
    rw [distance_signed]
    unfold apart
    split <;> omega
  have hmagnitude : (x.signed k).natAbs = k := by
    unfold signed
    split <;> omega
  refine ⟨?_, hx, fun y _ => ?_, fun y _ htie hne => ?_⟩
  · rw [hmagnitude]
    exact inRange_of_ofUnits hd hx hbits
  · rw [hself]
    exact (apart_ofUnits_le hd hx hbits y).1.trans (hother y)
  · obtain ⟨hle, heven⟩ := apart_ofUnits_le hd hx hbits y
    have hle' := hother y
    refine heven (by omega) fun hunits => hne ?_
    -- the same magnitude with the other sign would be as far away only if both were zero
    have hzero := (apart_ofUnits_le hd hx hbits zero).1
    rw [show zero.units = 0 from rfl, Nat.zero_mul] at hzero
    rw [distance_signed, hself, hunits] at htie
    unfold value signed
    rw [hunits]
    by_cases hsign : y.isNegative = x.isNegative
    · rw [hsign]
    · rw [if_neg hsign] at htie
      have hnone : x.units * d = 0 := by
        unfold apart at htie hzero
        omega
      rw [(Nat.mul_eq_zero.1 hnone).resolve_right (Nat.ne_of_gt hd)]
      split <;> split <;> rfl

end Number

end Lox
