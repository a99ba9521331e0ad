import Lox.Proofs.Number.Rounding
import Lox.Proofs.Scan.Pattern

/-!
# Digits and their values

What a sequence of digits denotes when it is put together of two, and how many digits a natural number
has. Zeros in front of the digits do not count, and each zero behind them is a factor of ten. So
positional notation reads as the decimal that it writes (`Decimal.ofNumeral_positional`), and a text with
a fixed count of places as the magnitude rounded to that many (`Number.ofNumeral_fixedText`).
-/

namespace Lox

namespace Text

theorem toNat_append (s t : Text) : toNat (s ++ t) = toNat s * 10 ^ t.length + toNat t := by
  induction t using List.reverseRecOn with
  | nil => simp [toNat]
  | append_singleton t b ih =>
    rw [← List.append_assoc, toNat_append_singleton, toNat_append_singleton, ih, List.length_append,
      List.length_singleton, Nat.pow_succ, Nat.mul_add, ← Nat.add_assoc]
    congr 2
    exact Nat.mul_left_comm _ _ _ |>.trans (by rw [Nat.mul_comm 10])

theorem toNat_zeros (n : Nat) : toNat (Decimal.zeros n) = 0 :=
  toNat_eq_zero fun _ hb => List.eq_of_mem_replicate hb

theorem toNat_zeros_append (n : Nat) (t : Text) : toNat (Decimal.zeros n ++ t) = toNat t := by
  rw [toNat_append, toNat_zeros, Nat.zero_mul, Nat.zero_add]

theorem toNat_append_zeros (t : Text) (n : Nat) :
    toNat (t ++ Decimal.zeros n) = toNat t * 10 ^ n := by
  rw [toNat_append, toNat_zeros, Nat.add_zero, Decimal.zeros, List.length_replicate]

/-- The digits of a number other than zero are no more than it needs. -/
theorem ten_pow_length_ofNat (n : Nat) :
    n < 10 ^ (ofNat n).length ∧ (n ≠ 0 → 10 ^ (ofNat n).length ≤ 10 * n) := by
  fun_induction ofNat n with
  | case1 n h => exact ⟨by simpa using h, fun hn => by simp; omega⟩
  | case2 n h ih =>
    have hdiv := Nat.div_add_mod n 10
    have hmod := Nat.mod_lt n (y := 10) (by decide)
    rw [List.length_append, List.length_singleton, Nat.pow_succ]
    exact ⟨by omega, fun _ => by have := ih.2 (by omega); omega⟩

/-- A text without the zeros at its end. -/
def stripped (t : Text) : Text := (t.reverse.dropWhile (· == ascii '0')).reverse

/-- Only zeros are missing from a stripped text. -/
theorem exists_stripped_append_zeros (t : Text) : ∃ n, t = t.stripped ++ Decimal.zeros n := by
  have hzero : ∀ b ∈ t.reverse.takeWhile (· == ascii '0'), b = ascii '0' := by
    intro b hb
    have hd := List.mem_takeWhile_imp (p := (· == ascii '0')) hb
    exact beq_iff_eq.1 hd
  have hzeros : (t.reverse.takeWhile (· == ascii '0')).reverse =
      Decimal.zeros (t.reverse.takeWhile (· == ascii '0')).length := by
    rw [List.eq_replicate_of_mem hzero, List.reverse_replicate, List.length_replicate]
    rfl
  refine ⟨(t.reverse.takeWhile (· == ascii '0')).length, ?_⟩
  calc t = (t.reverse.takeWhile (· == ascii '0') ++ t.reverse.dropWhile (· == ascii '0')).reverse := by
        rw [List.takeWhile_append_dropWhile, List.reverse_reverse]
    _ = t.stripped ++ (t.reverse.takeWhile (· == ascii '0')).reverse := List.reverse_append
    _ = t.stripped ++ Decimal.zeros _ := by rw [hzeros]

/-- The digits of a number below a power of ten. -/
theorem length_ofNat_le {n k : Nat} (hk : 0 < k) (h : n < 10 ^ k) : (ofNat n).length ≤ k := by
  by_cases hn : n = 0
  · have hzero : ofNat 0 = [digitByte 0] := by rw [ofNat, if_pos (by decide)]
    rw [hn, hzero]
    exact hk
  · have hle := (ten_pow_length_ofNat n).2 hn
    have hlt : 10 ^ (ofNat n).length < 10 ^ (k + 1) := by
      rw [Nat.pow_succ]
      omega
    exact Nat.le_of_lt_succ ((Nat.pow_lt_pow_iff_right (by decide)).1 hlt)

end Text

/-- Digits, and more digits behind a point if there are any. -/
theorem ofNumeral_point {ds : Text} (fs : Text) (h : ∀ b ∈ ds, isDigit b = true) :
    Number.ofNumeral (ds ++ if fs.isEmpty then [] else utf8 "." ++ fs) =
      .ofDecimal ⟨Text.toNat (ds ++ fs), -fs.length⟩ := by
  cases fs with
  | nil =>
    rw [List.isEmpty_nil, if_pos rfl, List.append_nil]
    exact ofNumeral_whole h
  | cons b fs => exact ofNumeral_fraction h

/-! ## Positional notation -/

namespace Decimal

variable (d : Decimal)

/-- The significant digits, with the exponent of the last one, make the same decimal. -/
theorem ofDecimal_significant :
    Number.ofDecimal d =
      .ofDecimal ⟨Text.toNat d.significant, d.leading + 1 - d.significant.length⟩ := by
  obtain ⟨n, hn⟩ := Text.exists_stripped_append_zeros (Text.ofNat d.digits)
  replace hn : Text.ofNat d.digits = d.significant ++ zeros n := hn
  have hdigits : d.digits = Text.toNat d.significant * 10 ^ n := by
    rw [← Text.toNat_append_zeros, ← hn, Text.toNat_ofNat]
  have hlength : (Text.ofNat d.digits).length = d.significant.length + n := by
    rw [hn, List.length_append, zeros, List.length_replicate]
  have hexponent : d.leading + 1 - d.significant.length = d.exponent + n := by
    unfold leading
    rw [hlength]
    omega
  rw [hexponent, ← Number.ofDecimal_mul_pow, ← hdigits]

/-- Positional notation reads as the decimal. -/
theorem ofNumeral_positional : Number.ofNumeral d.positional = .ofDecimal d := by
  rw [ofDecimal_significant d]
  have hs : ∀ b ∈ d.significant, isDigit b = true := isDigit_of_mem_significant
  unfold positional
  dsimp only
  generalize d.significant = s at *
  generalize d.leading = l at *
  split
  · next hneg =>
    have hzero : ∀ b ∈ [ascii '0'], isDigit b = true := List.forall_mem_singleton.2 rfl
    have htext : utf8 "0." ++ zeros (-l - 1).toNat ++ s =
        [ascii '0'] ++ ascii '.' :: (zeros (-l - 1).toNat ++ s) := rfl
    have hdigits : Text.toNat ([ascii '0'] ++ (zeros (-l - 1).toNat ++ s)) = Text.toNat s := by
      rw [← List.append_assoc]
      exact Text.toNat_zeros_append ((-l - 1).toNat + 1) s
    rw [htext, ofNumeral_fraction hzero, hdigits, List.length_append, zeros, List.length_replicate]
    congr 2
    omega
  · split
    · next hle =>
      have hall := isDigit_of_mem_append hs (isDigit_of_mem_zeros (l.toNat + 1 - s.length))
      rw [ofNumeral_whole hall, Text.toNat_append_zeros, Number.ofDecimal_mul_pow]
      congr 2
      omega
    · next hgt =>
      have hwhole : ∀ b ∈ s.take (l.toNat + 1), isDigit b = true :=
        fun b hb => hs b (List.mem_of_mem_take hb)
      rw [List.append_assoc]
      have hnumeral := @ofNumeral_fraction _ (s.drop (l.toNat + 1)) hwhole
      rw [List.take_append_drop, List.length_drop] at hnumeral
      refine hnumeral.trans ?_
      congr 2
      omega

end Decimal

/-! ## A fixed count of places -/

/-- Text with a fixed count of places reads as the magnitude rounded to that many places. -/
theorem Number.ofNumeral_fixedText (x : Number) {places : Nat} (h : 0 < places) :
    ofNumeral (x.fixedText places) =
      .ofDecimal ⟨roundedQuotient (x.units * 10 ^ places) unitsPerOne, -places⟩ := by
  unfold fixedText
  dsimp only
  generalize roundedQuotient (x.units * 10 ^ places) unitsPerOne = n
  have hparts : 10 ^ places * (n / 10 ^ places) + n % 10 ^ places = n := Nat.div_add_mod _ _
  have hbelow : n % 10 ^ places < 10 ^ places := Nat.mod_lt n (ten_pow_pos places)
  -- the digits of the fraction, all of them
  generalize hf : Decimal.zeros (places - (Text.ofNat (n % 10 ^ places)).length) ++
    Text.ofNat (n % 10 ^ places) = f
  have hlength : f.length = places := by
    have hle := Text.length_ofNat_le h hbelow
    rw [← hf, List.length_append, Decimal.zeros, List.length_replicate]
    omega
  have hvalue : Text.toNat f = n % 10 ^ places := by
    rw [← hf, Text.toNat_zeros_append, Text.toNat_ofNat]
  obtain ⟨j, hj⟩ := Text.exists_stripped_append_zeros f
  have hdigits : n = Text.toNat (Text.ofNat (n / 10 ^ places) ++ f.stripped) * 10 ^ j := by
    rw [← Text.toNat_append_zeros, List.append_assoc, ← hj, Text.toNat_append, Text.toNat_ofNat,
      hlength, hvalue, Nat.mul_comm, hparts]
  have hplaces : places = f.stripped.length + j := by
    have := congrArg List.length hj
    rw [List.length_append, Decimal.zeros, List.length_replicate, hlength] at this
    exact this
  refine (ofNumeral_point f.stripped (Text.isDigit_of_mem_ofNat _)).trans ?_
  generalize Text.ofNat (n / 10 ^ places) ++ f.stripped = ds at hdigits ⊢
  rw [hdigits, ofDecimal_mul_pow]
  congr 2
  omega

end Lox
