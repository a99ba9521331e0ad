import Lox.Number.Display
import Lox.Proofs.Number.Digits

/-!
# The shortest decimal reads back

Of the decimals with seventeen digits the one nearest to a number is off by less than one part in
`2 ^ 54`, so it reads back. So there is a shortest decimal that does (`Number.readsBack_shortest`).
-/

namespace Lox

namespace Number

variable {x : Number}

theorem unitsPerOne_pos : 0 < unitsPerOne := by decide +kernel

theorem wholePart_mul_le (x : Number) : unitsPerOne * x.wholePart ≤ x.units := by
  unfold wholePart
  exact Nat.mul_div_le x.units unitsPerOne

/-- The power of ten of the leading digit is not above the number. -/
theorem leadingExponent_spec (h : x.units ≠ 0) :
    unitsPerOne * 10 ^ x.leadingExponent.toNat ≤ x.units * 10 ^ (-x.leadingExponent).toNat := by
  unfold leadingExponent
  split
  · next hwhole =>
    have hpos := List.length_pos_iff.2 (Text.ofNat_ne_nil x.wholePart)
    have hlength := (Text.ten_pow_length_ofNat x.wholePart).2 hwhole
    have hexp : (((Text.ofNat x.wholePart).length : Int) - 1).toNat =
        (Text.ofNat x.wholePart).length - 1 := by omega
    have hexp' : (-(((Text.ofNat x.wholePart).length : Int) - 1)).toNat = 0 := by omega
    have hpow : 10 * 10 ^ ((Text.ofNat x.wholePart).length - 1) =
        10 ^ (Text.ofNat x.wholePart).length := by
      rw [← Nat.pow_succ', Nat.succ_eq_add_one, Nat.sub_add_cancel hpos]
    have hle : 10 ^ ((Text.ofNat x.wholePart).length - 1) ≤ x.wholePart := by
      rw [← hpow] at hlength
      exact Nat.le_of_mul_le_mul_left hlength (by decide)
    rw [hexp, hexp', Nat.pow_zero, Nat.mul_one]
    exact (Nat.mul_le_mul_left unitsPerOne hle).trans (wholePart_mul_le x)
  · cases hfind : (List.range 325).find? fun k => decide (unitsPerOne ≤ x.units * 10 ^ k) with
    | some k =>
      have hle := @List.find?_some _ (fun k => decide (unitsPerOne ≤ x.units * 10 ^ k)) k _ hfind
      rw [decide_eq_true_eq] at hle
      rw [Option.getD_some]
      have hexp : (-(k : Int)).toNat = 0 := by omega
      have hexp' : (-(-(k : Int))).toNat = k := by omega
      rwa [hexp, hexp', Nat.pow_zero, Nat.mul_one]
    | none =>
      have hsmallest : unitsPerOne ≤ 10 ^ 324 := by decide +kernel
      have hno := List.find?_eq_none.1 hfind 324 (List.mem_range.2 (by decide))
      refine absurd (decide_eq_true ?_) hno
      exact hsmallest.trans (Nat.le_mul_of_pos_left _ (Nat.pos_of_ne_zero h))

/-- The nearest decimal with an exponent that leaves seventeen digits reads back. -/
theorem readsBack_nearest (hfinite : x.isFinite = true) {n d : Nat} {e : Int}
    (hn : n = x.units * 10 ^ (-e).toNat) (hd : d = unitsPerOne * 10 ^ e.toNat)
    (hlong : 10 ^ 16 * d ≤ n) : x.readsBack ⟨roundedQuotient n d, e⟩ = true := by
  have hpos : 0 < d := by
    rw [hd]
    exact Nat.mul_pos unitsPerOne_pos (ten_pow_pos _)
  obtain ⟨hbelow, habove⟩ := roundedQuotient_spec n hpos
  have hvalue : roundedQuotient n d * 10 ^ e.toNat * unitsPerOne = d * roundedQuotient n d := by
    rw [hd]
    ring
  have hhalf : d * (2 * roundedQuotient n d) = 2 * (d * roundedQuotient n d) :=
    Nat.mul_left_comm d 2 _
  refine beq_iff_eq.2 (magnitudeBits_ofUnits hfinite ?_ ?_) <;>
    · dsimp only [Decimal.units]
      rw [hvalue, ← hn]
      omega

/-- Some decimal with seventeen digits reads back. -/
theorem exists_ofLength? (hfinite : x.isFinite = true) (h : x.units ≠ 0) :
    ∃ d, x.ofLength? 17 = some d := by
  have hleading := leadingExponent_spec h
  unfold ofLength?
  generalize hl : x.leadingExponent = l at hleading ⊢
  generalize he : l - (17 - 1 : Nat) = e
  generalize hn : x.units * 10 ^ (-e).toNat = n
  generalize hd : unitsPerOne * 10 ^ e.toNat = d
  have hlong : 10 ^ 16 * d ≤ n := by
    -- the exponent is sixteen below that of the leading digit
    have hexp : 10 ^ (16 + e.toNat + (-l).toNat) = 10 ^ (l.toNat + (-e).toNat) := by
      congr 1
      omega
    refine Nat.le_of_mul_le_mul_right ?_ (ten_pow_pos (-l).toNat)
    calc 10 ^ 16 * d * 10 ^ (-l).toNat
        = unitsPerOne * 10 ^ (16 + e.toNat + (-l).toNat) := by
          rw [← hd, Nat.pow_add, Nat.pow_add]
          ring
      _ = unitsPerOne * 10 ^ l.toNat * 10 ^ (-e).toNat := by
          rw [hexp, Nat.pow_add]
          ring
      _ ≤ x.units * 10 ^ (-l).toNat * 10 ^ (-e).toNat := Nat.mul_le_mul_right _ hleading
      _ = n * 10 ^ (-l).toNat := by
          rw [← hn]
          ring
  have hread := readsBack_nearest hfinite hn.symm hd.symm hlong
  rw [← Option.isSome_iff_exists, List.find?_isSome]
  refine ⟨⟨roundedQuotient n d, e⟩, ?_, hread⟩
  unfold around
  dsimp only
  rw [hn, hd]
  split
  · next heq => exact heq ▸ List.mem_cons_self
  · next hne =>
    have hround : roundedQuotient n d = n / d + 1 := by
      have := div_le_roundedQuotient n d
      have := roundedQuotient_le n d
      omega
    exact hround ▸ List.mem_cons_self

/-- **The shortest decimal reads back.** -/
theorem readsBack_shortest (hfinite : x.isFinite = true) (h : x.units ≠ 0) :
    x.readsBack x.shortest = true := by
  obtain ⟨d, hd⟩ := exists_ofLength? hfinite h
  unfold shortest
  cases hf : (List.range 17).findSome? fun k => x.ofLength? (k + 1) with
  | none =>
    have hnone := List.findSome?_eq_none_iff.1 hf 16 (List.mem_range.2 (by decide))
    rw [hnone] at hd
    cases hd
  | some d =>
    obtain ⟨k, _, hk⟩ := List.exists_of_findSome?_eq_some hf
    exact readsBack_of_ofLength? hk

end Number

end Lox
