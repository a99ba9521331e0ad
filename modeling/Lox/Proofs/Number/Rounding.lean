import Lox.Proofs.Printing.Literal
import Mathlib.Tactic.Ring

/-!
# Rounding to the nearest number

A finite number other than zero is a whole multiple of the spacing of the numbers around it
(`Number.exists_spacing`). Every quotient of units that is off by less than one part in `2 ^ 54` rounds
to it (`Number.magnitudeBits_ofUnits`): half the distance to the next number is never smaller, also
just above a power of two, where the numbers below lie closer together. What a decimal rounds to depends
on its value only (`Number.ofUnits_congr`, `Number.ofDecimal_mul_pow`).
-/

namespace Lox

/-! ## Rounded quotients -/

/-- What is less than one half away from a natural number rounds to it. -/
theorem roundedQuotient_eq {n d m : Nat} (hbelow : d * (2 * m) < 2 * n + d)
    (habove : 2 * n < d * (2 * m) + d) : roundedQuotient n d = m := by
  have hn : d * (n / d) + n % d = n := Nat.div_add_mod n d
  have hd : 0 < d := by
    by_contra h
    obtain rfl : d = 0 := by omega
    omega
  have hr : n % d < d := Nat.mod_lt n hd
  have hdouble : d * (2 * (n / d)) = 2 * (d * (n / d)) := Nat.mul_left_comm d 2 _
  -- the quotient is the number or the one before it
  have hle : n / d < m + 1 := by
    refine Nat.lt_of_mul_lt_mul_left (a := d * 2) ?_
    have hstep : d * 2 * (m + 1) = d * (2 * m) + d * 2 := by ring
    have hquot : d * 2 * (n / d) = 2 * (d * (n / d)) := by ring
    omega
  have hge : m < n / d + 2 := by
    refine Nat.lt_of_mul_lt_mul_left (a := d * 2) ?_
    have hstep : d * 2 * (n / d + 2) = 2 * (d * (n / d)) + d * 4 := by ring
    have hm : d * 2 * m = d * (2 * m) := Nat.mul_assoc d 2 m
    omega
  obtain hm | hm : m = n / d ∨ m = n / d + 1 := by omega
  · rw [← hm] at hdouble hn
    rw [roundedQuotient, if_pos (.inl (by omega)), ← hm]
  · have hstep : d * (2 * m) = 2 * (d * (n / d)) + 2 * d := by rw [hm]; ring
    rw [roundedQuotient, if_neg (by omega), ← hm]

/-- Rounding is to a neighbour that is at most one half away. -/
theorem roundedQuotient_spec {d : Nat} (n : Nat) (hd : 0 < d) :
    2 * n ≤ d * (2 * roundedQuotient n d) + d ∧ d * (2 * roundedQuotient n d) ≤ 2 * n + d := by
  have hn : d * (n / d) + n % d = n := Nat.div_add_mod n d
  have hr : n % d < d := Nat.mod_lt n hd
  have hdouble : d * (2 * (n / d)) = 2 * (d * (n / d)) := Nat.mul_left_comm d 2 _
  have hstep : d * (2 * (n / d + 1)) = 2 * (d * (n / d)) + 2 * d := by ring
  unfold roundedQuotient
  dsimp only
  split <;> omega

theorem roundedQuotient_mul_right (n d : Nat) {c : Nat} (hc : 0 < c) :
    roundedQuotient (n * c) (d * c) = roundedQuotient n d := by
  have hlt : 2 * (n % d * c) < d * c ↔ 2 * (n % d) < d := by
    rw [← Nat.mul_assoc, Nat.mul_lt_mul_right hc]
  have heq : 2 * (n % d * c) = d * c ↔ 2 * (n % d) = d := by
    rw [← Nat.mul_assoc, Nat.mul_left_inj (Nat.ne_of_gt hc)]
  simp only [roundedQuotient, Nat.mul_div_mul_right n d hc, Nat.mul_mod_mul_right, hlt, heq]

namespace Number

/-! ## Quotients of units -/

theorem ofUnits_mul_right (n d : Nat) {c : Nat} (hc : 0 < c) :
    ofUnits (n * c) (d * c) = ofUnits n d := by
  unfold ofUnits
  dsimp only
  rw [Nat.mul_div_mul_right n d hc, Nat.mul_right_comm d c, roundedQuotient_mul_right _ _ hc]

/-- Equal quotients round to the same number. -/
theorem ofUnits_congr {n d n' d' : Nat} (hd : 0 < d) (hd' : 0 < d') (h : n * d' = n' * d) :
    ofUnits n d = ofUnits n' d' := by
  calc ofUnits n d = ofUnits (n * d') (d * d') := (ofUnits_mul_right n d hd').symm
    _ = ofUnits (n' * d) (d' * d) := by rw [h, Nat.mul_comm d d']
    _ = ofUnits n' d' := ofUnits_mul_right n' d' hd

theorem ten_pow_pos (k : Nat) : 0 < 10 ^ k := Nat.pow_pos (by decide)

/-- Zeros at the end of the digits of a decimal count as powers of ten. -/
theorem ofDecimal_mul_pow (m j : Nat) (e : Int) :
    ofDecimal ⟨m * 10 ^ j, e⟩ = ofDecimal ⟨m, e + j⟩ := by
  refine ofUnits_congr (ten_pow_pos _) (ten_pow_pos _) ?_
  have hexp : 10 ^ (j + e.toNat + (-(e + j)).toNat) = 10 ^ ((e + j).toNat + (-e).toNat) := by
    congr 1
    omega
  calc m * 10 ^ j * 10 ^ e.toNat * unitsPerOne * 10 ^ (-(e + j)).toNat
      = m * unitsPerOne * 10 ^ (j + e.toNat + (-(e + j)).toNat) := by
        rw [Nat.pow_add, Nat.pow_add]
        ring
    _ = m * 10 ^ (e + j).toNat * unitsPerOne * 10 ^ (-e).toNat := by
        rw [hexp, Nat.pow_add]
        ring

/-! ## The numbers around a quotient -/

/-- The magnitude of a number is a multiple of the spacing of the numbers around it. The multiple has
at most 53 bits, and exactly 53 where the spacing is more than one unit. -/
theorem exists_spacing (x : Number) :
    ∃ t r, x.magnitudeBits = t * 2 ^ 52 + r ∧ x.units = r * 2 ^ t ∧ r < 2 ^ 53 ∧
      (t = 0 ∨ 2 ^ 52 ≤ r) := by
  have hparts : 2 ^ 52 * x.exponent + x.fraction = x.magnitudeBits := Nat.div_add_mod _ _
  have hfraction : x.fraction < 2 ^ 52 := Nat.mod_lt _ (by decide)
  unfold units
  split
  · next hzero =>
    rw [hzero] at hparts
    exact ⟨0, x.fraction, by omega, by rw [Nat.pow_zero, Nat.mul_one], by omega, .inl rfl⟩
  · next hpos =>
    refine ⟨x.exponent - 1, 2 ^ 52 + x.fraction, ?_, rfl, by omega, .inr (by omega)⟩
    omega

/-- The number of units of a quotient fixes the spacing around it. -/
theorem ofUnits_eq {n d t : Nat} (hd : 0 < d) (habove : n < d * 2 ^ (53 + t))
    (hbelow : t = 0 ∨ d * 2 ^ (52 + t) ≤ n) :
    ofUnits n d = ofMagnitude false
      (min (t * 2 ^ 52 + roundedQuotient n (d * 2 ^ t)) infinityBits) := by
  have hlt : n / d < 2 ^ (53 + t) := by rwa [Nat.div_lt_iff_lt_mul hd, Nat.mul_comm]
  have hdoublings : (n / d).log2 - 52 = t := by
    by_cases hzero : n / d = 0
    · rcases hbelow with rfl | hle
      · rw [hzero]
        rfl
      · have hpos : 2 ^ (52 + t) ≤ n / d := by rwa [Nat.le_div_iff_mul_le hd, Nat.mul_comm]
        have := Nat.two_pow_pos (52 + t)
        omega
    · have hlog := (Nat.log2_lt hzero).2 hlt
      rcases hbelow with rfl | hle
      · omega
      · have hge := (Nat.le_log2 hzero).2 ((Nat.le_div_iff_mul_le hd).2 (by rwa [Nat.mul_comm]))
        omega
  unfold ofUnits
  dsimp only
  rw [hdoublings]

/-- **Close quotients read back.** A quotient that is off from the magnitude of a finite number by less
than one part in `2 ^ 54` rounds to that number. -/
theorem magnitudeBits_ofUnits {x : Number} (hfinite : x.isFinite = true) {n d : Nat}
    (hbelow : 2 ^ 54 * (x.units * d) < 2 ^ 54 * n + x.units * d)
    (habove : 2 ^ 54 * n < 2 ^ 54 * (x.units * d) + x.units * d) :
    (ofUnits n d).magnitudeBits = x.magnitudeBits := by
  obtain ⟨t, r, hbits, hunits, hr, hnormal⟩ := exists_spacing x
  have hd : 0 < d := by
    by_contra h
    obtain rfl : d = 0 := by omega
    omega
  have hfin : x.magnitudeBits < infinityBits := of_decide_eq_true hfinite
  have hlimit := infinityBits_lt
  -- everything is measured in spacings of the number
  have hvalue : x.units * d = r * (d * 2 ^ t) := by rw [hunits]; ring
  have hpow (k : Nat) : d * 2 ^ (k + t) = 2 ^ k * (d * 2 ^ t) := by rw [Nat.pow_add]; ring
  have hspacing : 0 < d * 2 ^ t := Nat.mul_pos hd (Nat.two_pow_pos t)
  have hmax : r * (d * 2 ^ t) ≤ (2 ^ 53 - 1) * (d * 2 ^ t) := Nat.mul_le_mul_right _ (by omega)
  rw [hvalue] at hbelow habove
  have hlt : n < d * 2 ^ (53 + t) := by rw [hpow]; omega
  by_cases hsame : t = 0 ∨ d * 2 ^ (52 + t) ≤ n
  · have hround : roundedQuotient n (d * 2 ^ t) = r := by
      refine roundedQuotient_eq ?_ ?_ <;> rw [Nat.mul_left_comm, Nat.mul_comm (d * 2 ^ t) r] <;> omega
    rw [ofUnits_eq hd hlt hsame, hround, ← hbits, Nat.min_eq_left (Nat.le_of_lt hfin),
      magnitudeBits_ofMagnitude (by omega)]
  · -- just below a power of two, where the spacing is half as wide
    obtain ⟨hpos, hnear⟩ := not_or.1 hsame
    rw [hpow] at hnear
    have hleast : r = 2 ^ 52 := by
      refine Nat.le_antisymm (Nat.le_of_not_lt fun hmore => ?_) (hnormal.resolve_left hpos)
      have hmul : (2 ^ 52 + 1) * (d * 2 ^ t) ≤ r * (d * 2 ^ t) := Nat.mul_le_mul_right _ hmore
      omega
    obtain ⟨u, rfl⟩ : ∃ u, t = u + 1 := ⟨t - 1, by omega⟩
    have hhalf : d * 2 ^ (u + 1) = 2 * (d * 2 ^ u) := by rw [Nat.pow_succ]; ring
    have hpow' (k : Nat) : d * 2 ^ (k + u) = 2 ^ k * (d * 2 ^ u) := by rw [Nat.pow_add]; ring
    rw [hleast, hhalf] at hbelow habove
    rw [hhalf] at hnear
    have hround : roundedQuotient n (d * 2 ^ u) = 2 ^ 53 := roundedQuotient_eq (by omega) (by omega)
    have hbits' : u * 2 ^ 52 + 2 ^ 53 = x.magnitudeBits := by omega
    rw [ofUnits_eq hd (by rw [hpow']; omega) (.inr (by rw [hpow']; omega)), hround, hbits',
      Nat.min_eq_left (Nat.le_of_lt hfin), magnitudeBits_ofMagnitude (by omega)]

end Number

end Lox
