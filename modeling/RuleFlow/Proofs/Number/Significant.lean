import Mathlib.Algebra.Field.Rat
import Mathlib.Algebra.GroupWithZero.Units.Basic
import Mathlib.Data.List.DropRight
import Mathlib.Tactic.FieldSimp
import RuleFlow.Proofs.Json.Number
import RuleFlow.Proofs.Number.Natural

/-!
# Natural numbers with six significant digits

A natural number of up to 53 bits is a double, and its text with a number of significant digits stands for the number
rounded to so many digits. So it stands for the number itself exactly if only zeros are cut off.
-/

namespace RuleFlow

open RuleFlow.Text (ofNat)

variable {n d k m : Nat}

/-! ## The power of ten of a number -/

theorem Text.pow_length_le (hn : n ≠ 0) : 10 ^ ((ofNat n).length - 1) ≤ n := by
  by_contra hlt
  have hpos : 0 < (ofNat n).length := List.length_pos_iff.mpr (Text.ofNat_ne_nil n)
  rcases Nat.eq_or_lt_of_le (Nat.one_le_iff_ne_zero.mpr hpos.ne') with hone | hmore
  · rw [← hone] at hlt
    omega
  · have hshort := (Text.length_ofNat_le_iff (n := n) (k := (ofNat n).length - 1) (by omega)).mpr (by omega)
    omega

theorem Text.lt_pow_length (n : Nat) : n < 10 ^ (ofNat n).length :=
  (Text.length_ofNat_le_iff (List.length_pos_iff.mpr (Text.ofNat_ne_nil n))).mp (Nat.le_refl _)

/-- The number of digits of a numeral. -/
theorem Text.length_ofNat_eq (hk : 0 < k) (hlow : 10 ^ (k - 1) ≤ n) (hhigh : n < 10 ^ k) : (ofNat n).length = k := by
  have hmost := (Text.length_ofNat_le_iff hk).mpr hhigh
  have hleast := (Nat.pow_lt_pow_iff_right (by decide)).mp (Nat.lt_of_le_of_lt hlow (Text.lt_pow_length n))
  omega

namespace Decimal

theorem tenTo_eq (e : Nat) : tenTo e = 10 ^ e := rfl

/-- The magnitude of a natural number, also when it is given as a quotient. -/
theorem magnitude_mul (hn : n ≠ 0) (hd : 0 < d) : magnitude (n * d) d = (ofNat n).length - 1 := by
  have hnd : n * d ≠ 0 := Nat.mul_ne_zero hn hd.ne'
  have hposn : 0 < (ofNat n).length := List.length_pos_iff.mpr (Text.ofNat_ne_nil n)
  have hposd : 0 < (ofNat d).length := List.length_pos_iff.mpr (Text.ofNat_ne_nil d)
  have hlown := Text.pow_length_le hn
  have hhighn := Text.lt_pow_length n
  have hlowd := Text.pow_length_le hd.ne'
  have hhighd := Text.lt_pow_length d
  have hlownd := Text.pow_length_le hnd
  have hhighnd := Text.lt_pow_length (n * d)
  unfold magnitude
  dsimp only
  generalize (ofNat n).length = a at *
  generalize (ofNat d).length = b at *
  generalize (ofNat (n * d)).length = c at *
  -- the numeral of the product has as many digits as both together, or one less
  have hleast : a + b - 1 ≤ c := by
    have hpow : 10 ^ (a - 1 + (b - 1)) < 10 ^ c := by
      rw [Nat.pow_add]
      exact Nat.lt_of_le_of_lt (Nat.mul_le_mul hlown hlowd) hhighnd
    have := (Nat.pow_lt_pow_iff_right (by decide)).mp hpow
    omega
  have hmost : c ≤ a + b := by
    have hpow : 10 ^ (c - 1) < 10 ^ (a + b) := by
      rw [Nat.pow_add]
      exact Nat.lt_of_le_of_lt hlownd (Nat.mul_lt_mul'' hhighn hhighd)
    have := (Nat.pow_lt_pow_iff_right (by decide)).mp hpow
    omega
  have hscale : (-((c : Int) - b)).toNat = 0 := by omega
  rw [tenTo_eq, tenTo_eq, hscale, Nat.pow_zero, Nat.mul_one]
  rcases (by omega : c = a + b - 1 ∨ c = a + b) with hc | hc
  · have hguess : ((c : Int) - b).toNat = a - 1 := by omega
    rw [hguess, if_pos]
    · omega
    · rw [Nat.mul_comm d]
      exact Nat.mul_le_mul_right d hlown
  · have hguess : ((c : Int) - b).toNat = a := by omega
    rw [hguess, if_neg]
    · omega
    · rw [Nat.mul_comm d]
      exact Nat.not_le.mpr (Nat.mul_lt_mul_of_pos_right hhighn hd)

/-! ## Digits -/

/-- The number rounded to `count` digits at its front, a half to the even digit. -/
def roundedTo (count n : Nat) : Nat :=
  roundDiv n (10 ^ ((ofNat n).length - count)) * 10 ^ ((ofNat n).length - count)

/-- Rounding keeps a number if only zeros are cut off. -/
theorem roundedTo_eq_iff (count n : Nat) : roundedTo count n = n ↔ 10 ^ ((ofNat n).length - count) ∣ n := by
  unfold roundedTo
  constructor
  · intro h
    exact ⟨_, by rw [Nat.mul_comm]; exact h.symm⟩
  · rintro ⟨k, hk⟩
    have hpos : 0 < 10 ^ ((ofNat n).length - count) := Nat.pow_pos (by decide)
    generalize 10 ^ ((ofNat n).length - count) = unit at *
    rw [hk, Nat.mul_comm unit, roundDiv_mul hpos]

variable {count : Nat}

/-- A number with few digits is filled up with zeros. -/
theorem scientific_of_le (hn : n ≠ 0) (hd : 0 < d) (hle : (ofNat n).length ≤ count) :
    scientific count (n * d) d = (n * 10 ^ (count - (ofNat n).length), ((ofNat n).length : Int) - 1) := by
  have hlt : n * 10 ^ (count - (ofNat n).length) < 10 ^ count := by
    have hpow : 10 ^ (ofNat n).length * 10 ^ (count - (ofNat n).length) = 10 ^ count := by
      rw [← Nat.pow_add, Nat.add_sub_cancel' hle]
    rw [← hpow]
    exact Nat.mul_lt_mul_of_pos_right (Text.lt_pow_length n) (Nat.pow_pos (by decide))
  unfold scientific
  rw [magnitude_mul hn hd]
  dsimp only
  generalize (ofNat n).length = a at *
  have hup : ((count : Int) - 1 - (a - 1)).toNat = count - a := by omega
  have hdown : (-((count : Int) - 1 - (a - 1))).toNat = 0 := by omega
  rw [hup, hdown, tenTo_eq, tenTo_eq, tenTo_eq, Nat.pow_zero, Nat.mul_one, Nat.mul_right_comm, roundDiv_mul hd,
    if_neg hlt.ne]

/-- A number with many digits is rounded, and one digit more is carried over. -/
theorem scientific_of_lt (hn : n ≠ 0) (hd : 0 < d) (hlt : count < (ofNat n).length) :
    scientific count (n * d) d =
      if roundDiv n (10 ^ ((ofNat n).length - count)) = 10 ^ count then (10 ^ (count - 1), ((ofNat n).length : Int))
      else (roundDiv n (10 ^ ((ofNat n).length - count)), ((ofNat n).length : Int) - 1) := by
  unfold scientific
  rw [magnitude_mul hn hd]
  dsimp only
  generalize (ofNat n).length = a at *
  have hup : ((count : Int) - 1 - (a - 1)).toNat = 0 := by omega
  have hdown : (-((count : Int) - 1 - (a - 1))).toNat = a - count := by omega
  rw [hup, hdown, tenTo_eq, tenTo_eq, tenTo_eq, tenTo_eq, Nat.pow_zero, Nat.mul_one, Nat.mul_comm d,
    roundDiv_mul_mul hd,
    Int.sub_add_cancel]

end Decimal

/-! ## Reading the digits -/

/-- The number that a decimal stands for. -/
def Number.Scaled.value (s : Number.Scaled) : ℚ := s.digits * (10 : ℚ) ^ s.power

namespace Decimal

open RuleFlow.Json (isDigit)
open RuleFlow.Number (readScaled? splitMantissa splitFraction splitExponent splitSign ofDigits decimalMark isDigitOf)

variable {whole ds t : Text} {e : Int} {count : Nat}

theorem stripZeros_append (t : Text) : ∃ k, stripZeros t ++ List.replicate k 48 = t := by
  have hzeros : t.rtakeWhile (· == 48) = List.replicate (t.rtakeWhile (· == 48)).length 48 :=
    List.eq_replicate_of_mem fun b hb => by simpa using List.mem_rtakeWhile_imp hb
  exact ⟨_, by rw [← hzeros]; exact List.rdropWhile_append_rtakeWhile⟩

theorem ofDigits_padLeft (width n : Nat) : ofDigits 10 (padLeft width (ofNat n)) = n := by
  rw [padLeft, Text.ofDigits_append, Text.ofDigits_replicate_zero, Nat.zero_mul, Nat.zero_add, Text.ofDigits_ofNat]

theorem splitExponent_exponent (e : Int) : splitExponent decimalMark (exponent e) = some (e, []) := by
  have hspan : (padLeft 2 (ofNat e.natAbs)).span (isDigitOf 10) = (padLeft 2 (ofNat e.natAbs), []) :=
    Text.span_isDigitOf_self fun _ => Json.isDigit_of_mem_padLeft
  have hne : (padLeft 2 (ofNat e.natAbs)).isEmpty = false :=
    List.isEmpty_eq_false_iff.mpr (by simp [padLeft, Text.ofNat_ne_nil])
  have hsigned : ∀ negative t, splitSign t = (negative, padLeft 2 (ofNat e.natAbs)) →
      splitExponent decimalMark (101 :: t) = some (if negative then -(e.natAbs : Int) else e.natAbs, []) := by
    intro negative t hsign
    have hmark : Text.lowerByte 101 == decimalMark := by decide
    simp only [splitExponent, hmark, hsign, hspan, hne, ofDigits_padLeft]
    rfl
  unfold exponent
  split
  · rename_i he
    rw [hsigned true _ rfl, if_pos rfl]
    congr 2
    omega
  · rename_i he
    rw [hsigned false _ rfl, if_neg Bool.false_ne_true]
    congr 2
    omega

theorem splitFraction_fraction (hds : ∀ b ∈ ds, isDigit b) (hdigit : ∀ b ∈ t.head?, ¬ isDigit b)
    (hpoint : t.head? ≠ some 46) :
    splitFraction 10 (fraction ds ++ t) = (ds, t) := by
  cases ds with
  | nil =>
      show splitFraction 10 t = ([], t)
      unfold splitFraction
      split
      · simp at hpoint
      · rfl
  | cons b ds => exact Text.span_isDigitOf hds hdigit

/-- Digits with a point among them, and what follows. -/
theorem splitMantissa_fraction (hne : whole ≠ []) (hwhole : ∀ b ∈ whole, isDigit b) (hds : ∀ b ∈ ds, isDigit b)
    (hdigit : ∀ b ∈ t.head?, ¬ isDigit b) (hpoint : t.head? ≠ some 46) :
    splitMantissa 10 (whole ++ (fraction ds ++ t)) = some (⟨ofDigits 10 (whole ++ ds), ds.length⟩, t) := by
  have hfraction : ∀ b ∈ (fraction ds ++ t).head?, ¬ isDigit b := by
    cases ds with
    | nil => exact hdigit
    | cons b ds =>
        rintro _ ⟨⟩
        decide
  have hsome : !(whole ++ ds).isEmpty := by simp [hne]
  unfold splitMantissa
  rw [Text.span_isDigitOf hwhole hfraction]
  simp only [splitFraction_fraction hds hdigit hpoint, hsome]
  rfl

theorem readScaled?_fraction (hne : whole ≠ []) (hwhole : ∀ b ∈ whole, isDigit b) (hds : ∀ b ∈ ds, isDigit b) :
    readScaled? (whole ++ fraction ds) = some ⟨ofDigits 10 (whole ++ ds), 0 - ds.length⟩ := by
  have hmantissa := splitMantissa_fraction (t := []) hne hwhole hds (by simp) (by simp)
  rw [List.append_nil] at hmantissa
  unfold readScaled?
  rw [hmantissa]
  rfl

theorem readScaled?_exponent (hne : whole ≠ []) (hwhole : ∀ b ∈ whole, isDigit b) (hds : ∀ b ∈ ds, isDigit b)
    (e : Int) :
    readScaled? (whole ++ fraction ds ++ exponent e) = some ⟨ofDigits 10 (whole ++ ds), e - ds.length⟩ := by
  have hmantissa :=
    splitMantissa_fraction (t := exponent e) hne hwhole hds (by rintro _ ⟨⟩; decide) (by simp [exponent])
  unfold readScaled?
  rw [List.append_assoc, hmantissa]
  simp only [Option.bind_eq_bind, Option.bind_some, splitExponent_exponent]
  rfl

/-- Zeros at the end of the fraction do not count. -/
theorem value_stripZeros (whole ds : Text) (e : Int) :
    Number.Scaled.value ⟨ofDigits 10 (whole ++ stripZeros ds), e - (stripZeros ds).length⟩ =
      Number.Scaled.value ⟨ofDigits 10 (whole ++ ds), e - ds.length⟩ := by
  obtain ⟨k, hk⟩ := stripZeros_append ds
  have hdigits : ofDigits 10 (whole ++ ds) = ofDigits 10 (whole ++ stripZeros ds) * 10 ^ k := by
    conv_lhs => rw [← hk, ← List.append_assoc, Text.ofDigits_append, Text.ofDigits_replicate_zero,
      List.length_replicate, Nat.add_zero]
  have hlength : (ds.length : Int) = (stripZeros ds).length + k := by
    conv_lhs => rw [← hk, List.length_append, List.length_replicate]
    exact Nat.cast_add _ _
  have hpower : e - (stripZeros ds).length = (k : Int) + (e - ds.length) := by omega
  unfold Number.Scaled.value
  rw [hdigits, hpower, zpow_add₀ (by decide), zpow_natCast]
  push_cast
  ring

/-- All ways to place the digits stand for the same number. -/
theorem readScaled?_place (hcount : ds.length = count) (hne : ds ≠ []) (hds : ∀ b ∈ ds, isDigit b) (e : Int) :
    ∃ s, readScaled? (place count ds e) = some s ∧ s.value = ofDigits 10 ds * (10 : ℚ) ^ (e + 1 - count) := by
  have hstrip : ∀ ds : Text, (∀ b ∈ ds, isDigit b) → ∀ b ∈ stripZeros ds, isDigit b :=
    fun ds h b hb => h b (Json.mem_of_mem_stripZeros hb)
  have hpos : 0 < ds.length := List.length_pos_iff.mpr hne
  unfold place
  split
  · rename_i hpositional
    split
    · rename_i hnegative
      have hzeros : ∀ b ∈ List.replicate (e.natAbs - 1) 48 ++ ds, isDigit b := by
        intro b hb
        rcases List.mem_append.mp hb with hb | hb
        · rw [List.eq_of_mem_replicate hb]
          decide
        · exact hds b hb
      have hread : readScaled? ([48] ++ fraction (stripZeros (List.replicate (e.natAbs - 1) 48 ++ ds))) = _ :=
        readScaled?_fraction (by simp) (by simp; decide) (hstrip _ hzeros)
      refine ⟨_, hread, ?_⟩
      rw [value_stripZeros, Number.Scaled.value, ← List.append_assoc, Text.ofDigits_append]
      have hlead : ofDigits 10 ([48] ++ List.replicate (e.natAbs - 1) 48) = 0 :=
        Text.ofDigits_replicate_zero (e.natAbs - 1 + 1)
      rw [hlead, Nat.zero_mul, Nat.zero_add, List.length_append, List.length_replicate]
      congr 2
      dsimp only
      omega
    · rename_i hnatural
      refine ⟨_, readScaled?_fraction (by simp [hne]) (fun b hb => hds b (List.mem_of_mem_take hb))
        (hstrip _ fun b hb => hds b (List.mem_of_mem_drop hb)), ?_⟩
      rw [value_stripZeros, Number.Scaled.value, List.take_append_drop, List.length_drop]
      congr 2
      dsimp only
      omega
  · refine ⟨_, readScaled?_exponent (by simp [hne]) (fun b hb => hds b (List.mem_of_mem_take hb))
      (hstrip _ fun b hb => hds b (List.mem_of_mem_drop hb)) e, ?_⟩
    rw [value_stripZeros, Number.Scaled.value, List.take_append_drop, List.length_drop]
    congr 2
    dsimp only
    omega

/-! ## Natural numbers -/

variable {n d : Nat}

theorem scientific_spec (hcount : 0 < count) (hn : n ≠ 0) (hd : 0 < d) :
    (ofNat (scientific count (n * d) d).1).length = count ∧
      (scientific count (n * d) d).1 * (10 : ℚ) ^ ((scientific count (n * d) d).2 + 1 - count) = roundedTo count n := by
  have hpow : ∀ k : Nat, (10 : ℚ) ^ (k : Int) = ((10 ^ k : Nat) : ℚ) := fun k => by simp
  rcases Nat.lt_or_ge count (ofNat n).length with hlt | hle
  · rw [scientific_of_lt hn hd hlt, roundedTo]
    have hleast : 10 ^ (count - 1) ≤ roundDiv n (10 ^ ((ofNat n).length - count)) := by
      refine le_roundDiv (Nat.pow_pos (by decide)) ?_
      rw [← Nat.pow_add, (by omega : count - 1 + ((ofNat n).length - count) = (ofNat n).length - 1)]
      exact Text.pow_length_le hn
    have hmost : roundDiv n (10 ^ ((ofNat n).length - count)) ≤ 10 ^ count := by
      refine roundDiv_le (Nat.pow_pos (by decide)) ?_
      rw [← Nat.pow_add, Nat.add_sub_cancel' hlt.le]
      exact (Text.lt_pow_length n).le
    split
    · -- rounding leads to one digit more, which is a one with zeros
      rename_i hcarry
      refine ⟨Text.length_ofNat_eq hcount (Nat.le_refl _) (Nat.pow_lt_pow_right (by decide) (by omega)), ?_⟩
      have hpower : ((ofNat n).length : Int) + 1 - count = ((ofNat n).length + 1 - count : Nat) := by omega
      rw [hcarry, hpower, hpow, ← Nat.cast_mul, ← Nat.pow_add, ← Nat.pow_add]
      congr 2
      omega
    · rename_i hsame
      refine ⟨Text.length_ofNat_eq hcount hleast (Nat.lt_of_le_of_ne hmost hsame), ?_⟩
      have hpower : ((ofNat n).length : Int) - 1 + 1 - count = ((ofNat n).length - count : Nat) := by omega
      rw [hpower, hpow, ← Nat.cast_mul]
  · -- no digit is cut off
    have hwhole : roundedTo count n = n :=
      (roundedTo_eq_iff count n).mpr (by rw [Nat.sub_eq_zero_of_le hle]; exact one_dvd n)
    rw [scientific_of_le hn hd hle, hwhole]
    constructor
    · rw [Text.ofNat_mul_pow hn, List.length_append, List.length_replicate, Nat.add_sub_cancel' hle]
    · have hpower : ((ofNat n).length : Int) - 1 + 1 - count = -(count - (ofNat n).length : Nat) := by omega
      rw [hpower, zpow_neg, hpow, Nat.cast_mul, mul_assoc, mul_inv_cancel₀, mul_one]
      exact Nat.cast_ne_zero.mpr (Nat.pow_pos (by decide)).ne'

/-- The text of a natural number with so many digits stands for the number rounded to them. -/
theorem readScaled?_significant (hcount : 0 < count) (hn : n < 2 ^ 53) :
    ∃ s, readScaled? (significant count n.toFloat) = some s ∧ s.value = roundedTo count n := by
  by_cases hzero : n = 0
  · subst hzero
    have htext : significant count (0 : Nat).toFloat = [48] := rfl
    have hrounded : roundedTo count 0 = 0 := (roundedTo_eq_iff count 0).mpr (dvd_zero _)
    exact ⟨⟨0, 0⟩, by rw [htext]; rfl, by rw [hrounded]; simp [Number.Scaled.value]⟩
  · have hpos : 0 < n := Nat.pos_of_ne_zero hzero
    have hlog : n.log2 ≤ 52 := Nat.le_of_lt_succ ((Nat.log2_lt hzero).mpr hn)
    have hnumerator : Binary.numerator (n * 2 ^ (52 - n.log2)) (n.log2 - 52) = n * 2 ^ (52 - n.log2) := by
      rw [Binary.numerator, (by omega : ((n.log2 : Int) - 52).toNat = 0), Nat.shiftLeft_zero]
    have hdenominator : Binary.denominator (n.log2 - 52) = 2 ^ (52 - n.log2) := by
      rw [Binary.denominator, (by omega : (-((n.log2 : Int) - 52)).toNat = 52 - n.log2), Nat.shiftLeft_eq, Nat.one_mul]
    obtain ⟨hlength, hvalue⟩ := scientific_spec hcount hzero (Nat.two_pow_pos (52 - n.log2))
    have hread := readScaled?_place hlength (Text.ofNat_ne_nil _) (fun _ => Text.isDigit_of_mem_ofNat)
      (scientific count (n * 2 ^ (52 - n.log2)) (2 ^ (52 - n.log2))).2
    rw [Text.ofDigits_ofNat, hvalue] at hread
    unfold significant
    rw [Number.ofFloat_toFloat hpos hn]
    dsimp only
    rw [if_neg (Nat.mul_ne_zero hzero (Nat.two_pow_pos _).ne'), hnumerator, hdenominator]
    exact hread

end Decimal

end RuleFlow
