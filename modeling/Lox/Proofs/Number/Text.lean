import Lox.Proofs.Number.Nearest
import Lox.Proofs.Number.ReadBack

/-!
# The text of a number reads back

A signed decimal is read from a text by `SignedDecimal.ofText?`: perhaps a minus sign, digits, perhaps a
point and more digits, perhaps a letter with an exponent. What is read from the text of a finite number
is correctly rounded to that number, where zero has lost its sign; if the number is whole, the decimal is
the number exactly, and is written with digits only. So numbers have the same text if and only if they
are equal (`Number.text_reads_back`).
-/

namespace Lox

/-! ## Reading a decimal -/

/-- One digit or more and nothing else. -/
def isDigits (t : Text) : Bool := !t.isEmpty && t.all isDigit

/-- The letter in front of an exponent. -/
def exponentLetter : UInt8 := ascii 'e'

namespace Decimal

/-- Digits, or digits with a point between them. -/
def mantissaOfText? (t : Text) : Option Decimal :=
  let whole := t.takeWhile isDigit
  match t.dropWhile isDigit with
  | [] => if isDigits whole then some ⟨Text.toNat whole, 0⟩ else none
  | point :: fraction =>
    if isDigits whole && point == ascii '.' && isDigits fraction then
      some ⟨Text.toNat (whole ++ fraction), -fraction.length⟩
    else none

/-- A plus or minus sign and digits. -/
def exponentOfText? : Text → Option Int
  | [] => none
  | sign :: digits =>
    if isDigits digits && sign == ascii '+' then some (Text.toNat digits)
    else if isDigits digits && sign == ascii '-' then some (-Text.toNat digits)
    else none

/-- A decimal, with an exponent or without one. -/
def ofText? (t : Text) : Option Decimal :=
  let mantissa := mantissaOfText? (t.takeWhile (· != exponentLetter))
  match t.dropWhile (· != exponentLetter) with
  | [] => mantissa
  | _ :: rest => do
    let m ← mantissa
    let e ← exponentOfText? rest
    return ⟨m.digits, m.exponent + e⟩

end Decimal

/-- A decimal with a sign. -/
structure SignedDecimal where
  negative : Bool
  magnitude : Decimal
  deriving DecidableEq

namespace SignedDecimal

/-- A decimal, with a minus sign in front or without one. -/
def ofText? (t : Text) : Option SignedDecimal :=
  if t.head? = some (ascii '-') then (Decimal.ofText? t.tail).map (⟨true, ·⟩)
  else (Decimal.ofText? t).map (⟨false, ·⟩)

/-- The fraction of units that a decimal is equal to has this numerator. -/
def numerator (d : SignedDecimal) : Int :=
  if d.negative then -d.magnitude.units.1 else d.magnitude.units.1

/-- The fraction of units that a decimal is equal to has this denominator. -/
def denominator (d : SignedDecimal) : Nat := d.magnitude.units.2

end SignedDecimal

/-- The number that a decimal is read as: correctly rounded, and of the same sign. -/
def Number.IsReadAs (d : SignedDecimal) (x : Number) : Prop :=
  x.Rounds d.numerator d.denominator ∧ x.isNegative = d.negative

/-! ## What the forms of a decimal are read as -/

theorem isDigits_iff {t : Text} : isDigits t = true ↔ t ≠ [] ∧ ∀ b ∈ t, isDigit b = true := by
  simp [isDigits]

namespace Decimal

theorem mantissaOfText?_whole {ds : Text} (hne : ds ≠ []) (h : ∀ b ∈ ds, isDigit b = true) :
    mantissaOfText? ds = some ⟨Text.toNat ds, 0⟩ := by
  have hwhole : ds.takeWhile isDigit = ds := List.takeWhile_eq_self_iff.2 h
  have hrest : ds.dropWhile isDigit = [] := List.dropWhile_eq_nil_iff.2 h
  unfold mantissaOfText?
  rw [hwhole, hrest]
  exact if_pos (isDigits_iff.2 ⟨hne, h⟩)

theorem mantissaOfText?_fraction {ds fs : Text} (hne : ds ≠ []) (h : ∀ b ∈ ds, isDigit b = true)
    (hne' : fs ≠ []) (h' : ∀ b ∈ fs, isDigit b = true) :
    mantissaOfText? (ds ++ ascii '.' :: fs) = some ⟨Text.toNat (ds ++ fs), -fs.length⟩ := by
  unfold mantissaOfText?
  rw [takeWhile_append_of_head h (isDigit_head_point fs),
    dropWhile_append_of_head h (isDigit_head_point fs)]
  refine if_pos ?_
  rw [isDigits_iff.2 ⟨hne, h⟩, isDigits_iff.2 ⟨hne', h'⟩]
  rfl

/-- A numeral is read as the decimal that a program would read. -/
theorem exists_mantissaOfText? {t : Text} (h : Numeral t) :
    ∃ m, mantissaOfText? t = some m ∧ Number.ofNumeral t = .ofDecimal m := by
  cases h with
  | whole hne hds => exact ⟨_, mantissaOfText?_whole hne hds, ofNumeral_whole hds⟩
  | fraction hne hds hne' hfs =>
    exact ⟨_, mantissaOfText?_fraction hne hds hne' hfs, ofNumeral_fraction hds⟩

theorem exponentOfText?_signed {e : Int} {n : Nat} :
    exponentOfText? ((if e < 0 then [ascii '-'] else [ascii '+']) ++ zeros n ++
      Text.ofNat e.natAbs) = some e := by
  have hdigits : isDigits (zeros n ++ Text.ofNat e.natAbs) = true :=
    isDigits_iff.2 ⟨List.append_ne_nil_of_right_ne_nil _ (Text.ofNat_ne_nil _),
      isDigit_of_mem_append (isDigit_of_mem_zeros n) (Text.isDigit_of_mem_ofNat _)⟩
  have hvalue : Text.toNat (zeros n ++ Text.ofNat e.natAbs) = e.natAbs := by
    rw [Text.toNat_zeros_append, Text.toNat_ofNat]
  split
  · rw [List.append_assoc, List.singleton_append, exponentOfText?, hdigits, hvalue]
    show some (-(e.natAbs : Int)) = some e
    congr 1
    omega
  · rw [List.append_assoc, List.singleton_append, exponentOfText?, hdigits, hvalue]
    show some (e.natAbs : Int) = some e
    congr 1
    omega

theorem ne_exponentLetter_of_isDigit {b : UInt8} (h : isDigit b = true) : b ≠ exponentLetter := by
  rintro rfl
  exact absurd h (by decide)

theorem ne_exponentLetter_of_numeral {t : Text} (h : Numeral t) : ∀ b ∈ t, b ≠ exponentLetter := by
  cases h with
  | whole _ hds => exact fun b hb => ne_exponentLetter_of_isDigit (hds b hb)
  | fraction _ hds _ hfs =>
    intro b hb
    rcases List.mem_append.1 hb with hb | hb
    · exact ne_exponentLetter_of_isDigit (hds b hb)
    · rcases List.mem_cons.1 hb with rfl | hb
      · decide
      · exact ne_exponentLetter_of_isDigit (hfs b hb)

/-- A numeral alone. -/
theorem ofText?_numeral {t : Text} (h : Numeral t) : ofText? t = mantissaOfText? t := by
  have hall : ∀ b ∈ t, (b != exponentLetter) = true :=
    fun b hb => bne_iff_ne.2 (ne_exponentLetter_of_numeral h b hb)
  unfold ofText?
  rw [List.takeWhile_eq_self_iff.2 hall, List.dropWhile_eq_nil_iff.2 hall]

/-- A numeral with an exponent. -/
theorem ofText?_exponent {t rest : Text} {m : Decimal} {e : Int} (h : Numeral t)
    (hm : mantissaOfText? t = some m) (he : exponentOfText? rest = some e) :
    ofText? (t ++ exponentLetter :: rest) = some ⟨m.digits, m.exponent + e⟩ := by
  have hall : ∀ b ∈ t, (b != exponentLetter) = true :=
    fun b hb => bne_iff_ne.2 (ne_exponentLetter_of_numeral h b hb)
  have hhead : ∀ b ∈ (exponentLetter :: rest).head?, (b != exponentLetter) = false := by
    intro b hb
    obtain rfl := Option.some.inj hb
    rfl
  unfold ofText?
  rw [takeWhile_append_of_head hall hhead, dropWhile_append_of_head hall hhead, hm]
  dsimp only
  rw [he]
  rfl

/-- The first digit and the others behind a point, if there are any. -/
theorem numeral_leadingDigit {s : Text} (hne : s ≠ []) (hs : ∀ b ∈ s, isDigit b = true) :
    let t := s.take 1 ++ if s.length > 1 then utf8 "." ++ s.drop 1 else []
    Numeral t ∧ mantissaOfText? t = some ⟨Text.toNat s, 1 - s.length⟩ := by
  have hpos : 0 < s.length := List.length_pos_iff.2 hne
  have hfirst : s.take 1 ≠ [] := by
    rw [← List.length_pos_iff, List.length_take]
    omega
  have hfirst' : ∀ b ∈ s.take 1, isDigit b = true := fun b hb => hs b (List.mem_of_mem_take hb)
  intro t
  by_cases hlength : s.length > 1
  · have hothers : s.drop 1 ≠ [] := by
      rw [← List.length_pos_iff, List.length_drop]
      omega
    have hothers' : ∀ b ∈ s.drop 1, isDigit b = true := fun b hb => hs b (List.mem_of_mem_drop hb)
    have ht : t = s.take 1 ++ ascii '.' :: s.drop 1 := congrArg (s.take 1 ++ ·) (if_pos hlength)
    rw [ht, mantissaOfText?_fraction hfirst hfirst' hothers hothers', List.take_append_drop,
      List.length_drop]
    refine ⟨.fraction hfirst hfirst' hothers hothers', ?_⟩
    congr 2
    omega
  · have ht : t = s := by
      show s.take 1 ++ _ = s
      rw [if_neg hlength, List.append_nil, List.take_of_length_le (by omega)]
    rw [ht, mantissaOfText?_whole hne hs]
    refine ⟨.whole hne hs, ?_⟩
    congr 2
    omega

/-- Scientific notation is read as the decimal. -/
theorem exists_ofText?_scientific {d : Decimal} (h : d.digits ≠ 0) :
    ∃ m, ofText? d.scientific = some m ∧ Number.ofDecimal d = .ofDecimal m := by
  obtain ⟨hnumeral, hm⟩ := numeral_leadingDigit (significant_ne_nil h) isDigit_of_mem_significant
  have hexponent := @exponentOfText?_signed d.leading (2 - (Text.ofNat d.leading.natAbs).length)
  have htext : d.scientific = (d.significant.take 1 ++
      if d.significant.length > 1 then utf8 "." ++ d.significant.drop 1 else []) ++
      exponentLetter :: ((if d.leading < 0 then [ascii '-'] else [ascii '+']) ++
        zeros (2 - (Text.ofNat d.leading.natAbs).length) ++ Text.ofNat d.leading.natAbs) := by
    unfold scientific
    dsimp only
    rw [List.append_assoc, List.append_assoc]
    congr 1
    split <;> rfl
  rw [htext, ofText?_exponent hnumeral hm hexponent, ofDecimal_significant d]
  refine ⟨_, rfl, ?_⟩
  dsimp only
  congr 2
  omega

/-- The text of a decimal is read as that decimal. -/
theorem exists_ofText?_text {d : Decimal} (h : d.digits ≠ 0) :
    ∃ m, ofText? d.text = some m ∧ Number.ofDecimal d = .ofDecimal m := by
  unfold text
  split
  · have hnumeral := numeral_positional (.inl h)
    obtain ⟨m, hm, hvalue⟩ := exists_mantissaOfText? hnumeral
    exact ⟨m, by rw [ofText?_numeral hnumeral, hm], by rw [← hvalue, ofNumeral_positional]⟩
  · exact exists_ofText?_scientific h

/-- There is no sign in front of an unsigned decimal. -/
theorem head_ne_minus {t : Text} {m : Decimal} (h : ofText? t = some m) :
    t.head? ≠ some (ascii '-') := by
  intro hhead
  obtain ⟨u, rfl⟩ : ∃ u, t = ascii '-' :: u := by
    cases t with
    | nil => cases hhead
    | cons b u => exact ⟨u, by rw [Option.some.inj hhead]⟩
  have hnone (v : Text) : mantissaOfText? (ascii '-' :: v) = none := rfl
  unfold ofText? at h
  rw [List.takeWhile_cons_of_pos (by decide), hnone] at h
  dsimp only at h
  split at h <;> cases h

end Decimal

/-! ## The text of a finite number -/

namespace Number

variable {x y : Number}

/-- A number, with zero without its sign. -/
def folded (x : Number) : Number := if x.magnitudeBits = 0 then zero else x

theorem text_folded (x : Number) : x.folded.text = x.text := by
  unfold folded
  split
  · next h => rw [text_of_magnitudeBits h, text_of_magnitudeBits rfl]
  · rfl

theorem folded_folded (x : Number) : x.folded.folded = x.folded := by
  unfold folded
  by_cases h : x.magnitudeBits = 0
  · rw [if_pos h]
    rfl
  · rw [if_neg h, if_neg h]

/-- Equal numbers are those that differ at most in the sign of zero. -/
theorem folded_eq_iff (hx : x.isNaN = false) (hy : y.isNaN = false) :
    x.folded = y.folded ↔ x.equal y = true := by
  rw [equal_iff, hx, hy]
  unfold folded
  constructor
  · intro h
    refine ⟨rfl, rfl, ?_⟩
    split at h <;> split at h
    · exact .inr ⟨‹_›, ‹_›⟩
    · next hy0 => exact absurd (congrArg magnitudeBits h.symm) hy0
    · next hx0 _ => exact absurd (congrArg magnitudeBits h) hx0
    · exact .inl h
  · rintro ⟨-, -, rfl | ⟨hx0, hy0⟩⟩
    · rfl
    · rw [if_pos hx0, if_pos hy0]

theorem isFinite_folded (h : x.isFinite = true) : x.folded.isFinite = true := by
  unfold folded
  split
  · rfl
  · exact h

theorem isWhole_folded (h : x.isWhole = true) : x.folded.isWhole = true := by
  unfold folded
  split
  · exact isWhole_of_magnitudeBits rfl
  · exact h

theorem value_folded (x : Number) : x.folded.value = x.value := by
  unfold folded
  split
  · next h =>
    refine value_eq_value ?_
    have hzero : x.place = 0 := by
      unfold place signed
      rw [h]
      split <;> rfl
    rw [hzero]
    rfl
  · rfl

theorem signed_mul (x : Number) (a b : Nat) : x.signed (a * b) = x.signed a * b := by
  unfold signed
  split
  · rw [Nat.cast_mul, Int.neg_mul]
  · rw [Nat.cast_mul]

/-- The sign of a number is read with what stands behind it. -/
theorem ofText?_signText {t : Text} {m : Decimal} (x : Number) (h : Decimal.ofText? t = some m) :
    SignedDecimal.ofText? (x.signText ++ t) = some ⟨x.isNegative, m⟩ := by
  unfold signText
  cases hsign : x.isNegative with
  | false =>
    rw [if_neg Bool.false_ne_true, List.nil_append, SignedDecimal.ofText?,
      if_neg (Decimal.head_ne_minus h), h]
    rfl
  | true =>
    show (Decimal.ofText? t).map _ = _
    rw [h]
    rfl

/-- The text of a finite number, by whether it is whole. -/
theorem text_of_isFinite (h : x.isFinite = true) :
    x.text = if x.isWhole then if x.wholePart = 0 then utf8 "0" else x.signText ++ Text.ofNat x.wholePart
      else x.signText ++ x.shortest.text := by
  rw [text, if_neg (ne_true_of_eq_false (isNaN_of_isFinite h)),
    if_neg (ne_true_of_eq_false (isInfinite_of_isFinite h))]

/-- A whole number is written with digits, and perhaps a minus sign. -/
theorem isDigit_of_mem_text (h : x.isWhole = true) {b : UInt8} (hb : b ∈ x.text) :
    b = ascii '-' ∨ isDigit b = true := by
  have hfinite : x.isFinite = true := (Bool.and_eq_true_iff.1 h).1
  rw [text_of_isFinite hfinite, if_pos h] at hb
  split at hb
  · rw [List.mem_singleton.1 hb]
    exact .inr rfl
  · rcases List.mem_append.1 hb with hb | hb
    · unfold signText at hb
      split at hb
      · exact .inl (List.mem_singleton.1 hb)
      · cases hb
    · exact .inr (Text.isDigit_of_mem_ofNat _ b hb)

/-- Numbers that are not whole have a shortest decimal with a digit other than zero. -/
theorem digits_shortest_ne_zero (hfinite : x.isFinite = true) (hwhole : x.isWhole = false) :
    x.shortest.digits ≠ 0 ∧ (ofDecimal x.shortest).magnitudeBits = x.magnitudeBits := by
  have hne : x.magnitudeBits ≠ 0 := by
    intro hzero
    rw [isWhole_of_magnitudeBits hzero] at hwhole
    cases hwhole
  have hread : (ofDecimal x.shortest).magnitudeBits = x.magnitudeBits :=
    beq_iff_eq.1 (readsBack_shortest hfinite fun hunits => hne (magnitudeBits_of_units hunits))
  refine ⟨fun hdigits => hne ?_, hread⟩
  rw [← hread, show x.shortest = ⟨0, x.shortest.exponent⟩ by rw [← hdigits],
    magnitudeBits_ofDecimal_zero]

/-- The text of a finite number that is not a negative zero is read as a decimal of its sign, and the
decimal as its magnitude. -/
theorem exists_ofText?_text (hfinite : x.isFinite = true) (hfold : x.folded = x) :
    ∃ m, SignedDecimal.ofText? x.text = some ⟨x.isNegative, m⟩ ∧
      (ofDecimal m).magnitudeBits = x.magnitudeBits ∧
      (x.isWhole = true → m.units.1 = x.units * m.units.2) := by
  rw [text_of_isFinite hfinite]
  cases hwhole : x.isWhole with
  | true =>
    have hpart := wholePart_mul hwhole
    refine ⟨⟨x.wholePart, 0⟩, ?_, beq_iff_eq.1 (readsBack_whole hwhole), fun _ => ?_⟩
    · rw [if_pos rfl]
      split
      · next hzero =>
        have hbits : x.magnitudeBits = 0 :=
          magnitudeBits_of_units (by rw [← hpart, hzero, Nat.zero_mul])
        have hsign : x.isNegative = false := by
          rw [← hfold, folded, if_pos hbits]
          rfl
        rw [hzero, hsign]
        rfl
      · refine ofText?_signText x ?_
        rw [Decimal.ofText?_numeral (numeral_ofNat _), Decimal.mantissaOfText?_whole
          (Text.ofNat_ne_nil _) (Text.isDigit_of_mem_ofNat _), Text.toNat_ofNat]
    · have hunits : (Decimal.mk x.wholePart 0).units = (x.wholePart * unitsPerOne, 1) := by
        simp [Decimal.units]
      rw [hunits, hpart, Nat.mul_one]
  | false =>
    obtain ⟨hdigits, hread⟩ := digits_shortest_ne_zero hfinite hwhole
    obtain ⟨m, hm, hvalue⟩ := Decimal.exists_ofText?_text hdigits
    refine ⟨m, ?_, by rw [← hvalue, hread], fun h => absurd h Bool.false_ne_true⟩
    rw [if_neg Bool.false_ne_true]
    exact ofText?_signText x hm

/-- What the text of a finite number is read as is the number, where zero has lost its sign. -/
theorem exists_isReadAs_iff (hfinite : x.isFinite = true) :
    ∃ d, SignedDecimal.ofText? x.text = some d ∧ (∀ y, IsReadAs d y ↔ y = x.folded) ∧
      (x.isWhole = true → d.numerator = x.value * d.denominator) := by
  obtain ⟨m, htext, hbits, hexact⟩ :=
    exists_ofText?_text (isFinite_folded hfinite) (folded_folded x)
  have hpos : 0 < m.units.2 := ten_pow_pos _
  have hrounds : x.folded.Rounds (x.folded.signed m.units.1) m.units.2 :=
    rounds_of_ofUnits hpos (isFinite_folded hfinite) hbits
  refine ⟨⟨x.folded.isNegative, m⟩, text_folded x ▸ htext, fun y => ?_, fun hwhole => ?_⟩
  · exact hrounds.and_isNegative_iff hpos
  · calc x.folded.signed m.units.1 = x.folded.signed (x.folded.units * m.units.2) := by
          rw [hexact (isWhole_folded hwhole)]
      _ = x.folded.value * m.units.2 := signed_mul _ _ _
      _ = x.value * m.units.2 := by rw [value_folded]

/-- **The text of a number reads back.** The text of a finite number is read as a decimal that, correctly
rounded and with its sign, is that number and no other, where a negative zero is read as zero. If the
number is whole, the decimal is exactly the number, and the text has neither a point nor an exponent. So
finite numbers have the same text if and only if they are equal. -/
theorem text_reads_back :
    (∀ x : Number, x.isFinite = true → ∃ d, SignedDecimal.ofText? x.text = some d ∧
      (∀ y, IsReadAs d y ↔ y = if x.magnitudeBits = 0 then zero else x) ∧
      (x.isWhole = true → d.numerator = x.value * d.denominator ∧
        ascii '.' ∉ x.text ∧ exponentLetter ∉ x.text)) ∧
      ∀ x y : Number, x.isFinite = true → y.isFinite = true →
        (x.text = y.text ↔ x.equal y = true) := by
  constructor
  · intro x hfinite
    obtain ⟨d, htext, hread, hexact⟩ := exists_isReadAs_iff hfinite
    refine ⟨d, htext, hread, fun hwhole => ⟨hexact hwhole, fun hpoint => ?_, fun hletter => ?_⟩⟩
    · exact absurd (isDigit_of_mem_text hwhole hpoint) (by decide)
    · exact absurd (isDigit_of_mem_text hwhole hletter) (by decide)
  · intro x y hx hy
    rw [← folded_eq_iff (isNaN_of_isFinite hx) (isNaN_of_isFinite hy)]
    constructor
    · intro h
      obtain ⟨d, htext, hread, -⟩ := exists_isReadAs_iff hx
      obtain ⟨d', htext', hread', -⟩ := exists_isReadAs_iff hy
      obtain rfl : d = d' := Option.some.inj (by rw [← htext, ← htext', h])
      exact (hread' x.folded).1 ((hread x.folded).2 rfl)
    · intro h
      rw [← text_folded x, ← text_folded y, h]

/-- The least number of all in magnitude, with a minus sign, is written with an exponent; two to the
hundredth power is written without one; and the two zeros are written alike. -/
theorem text_reads_back_least :
    let x := ofMagnitude true 1
    let y := ofDecimal ⟨2 ^ 100, 0⟩
    x.isFinite = true ∧ x.text = utf8 "-5e-324" ∧ (∀ z, IsReadAs ⟨true, ⟨5, -324⟩⟩ z ↔ z = x) ∧
      y.isWhole = true ∧ ascii '.' ∉ y.text ∧ exponentLetter ∉ y.text ∧
      (ofMagnitude true 0).text = zero.text := by
  intro x y
  have hfinite : x.isFinite = true := by decide
  have htext : x.text = utf8 "-5e-324" := by decide +kernel
  have hwhole : y.isWhole = true := by decide +kernel
  obtain ⟨hreads, hsame⟩ := text_reads_back
  obtain ⟨d, hd, hread, -⟩ := hreads x hfinite
  rw [if_neg (by decide)] at hread
  obtain ⟨_, -, -, hexact⟩ := hreads y (by decide +kernel)
  obtain ⟨-, hpoint, hletter⟩ := hexact hwhole
  obtain rfl : d = ⟨true, ⟨5, -324⟩⟩ := by
    rw [htext] at hd
    exact Option.some.inj (hd.symm.trans (by decide +kernel))
  exact ⟨hfinite, htext, hread, hwhole, hpoint, hletter, (hsame _ _ rfl rfl).2 (by decide)⟩

end Number

end Lox
