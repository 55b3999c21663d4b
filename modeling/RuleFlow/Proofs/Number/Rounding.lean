import RuleFlow.Proofs.Number.Binary

/-!
# Rounding to a double

The mantissa of a rounded quotient is `roundDiv` of the exact one, at the exponent where it has 53 bits or at the least
one (`roundWithAccuracy_eq`). From this come the bounds below which a result is finite.
-/

namespace RuleFlow

variable {n d k : Nat}

/-! ## Rounded quotients -/

theorem le_roundDiv (hd : 0 < d) (h : k * d ≤ n) : k ≤ roundDiv n d := by
  have hlow : k ≤ n / d := (Nat.le_div_iff_mul_le hd).mpr h
  unfold roundDiv
  dsimp only
  split
  · exact hlow
  · split
    · omega
    · split <;> omega

theorem roundDiv_lt (hd : 0 < d) (h : 2 * n < (2 * k - 1) * d) : roundDiv n d < k := by
  have hk : 0 < k := by
    by_contra hzero
    have hk : k = 0 := by omega
    simp [hk] at h
  obtain ⟨j, rfl⟩ : ∃ j, k = j + 1 := ⟨k - 1, by omega⟩
  have hodd : 2 * (j + 1) - 1 = 2 * j + 1 := by omega
  rw [hodd, Nat.add_mul, Nat.one_mul, Nat.mul_assoc] at h
  have hparts := Nat.div_add_mod n d
  have hlow : n / d ≤ j := by
    by_contra hlarge
    have hmul : d * (j + 1) ≤ d * (n / d) := Nat.mul_le_mul_left d (by omega)
    rw [Nat.mul_add, Nat.mul_one, Nat.mul_comm] at hmul
    omega
  rcases Nat.lt_or_eq_of_le hlow with hlt | heq
  · unfold roundDiv
    dsimp only
    split
    · omega
    · split
      · omega
      · split <;> omega
  · -- the quotient is just below the bound, so it is rounded down
    have hrest : 2 * (n % d) < d := by
      rw [heq, Nat.mul_comm d j] at hparts
      omega
    unfold roundDiv
    dsimp only
    rw [if_pos hrest]
    omega

theorem roundDiv_le (hd : 0 < d) (h : n ≤ k * d) : roundDiv n d ≤ k := by
  refine Nat.lt_succ_iff.mp (roundDiv_lt hd ?_)
  have hodd : 2 * (k + 1) - 1 = 2 * k + 1 := by omega
  rw [Nat.succ_eq_add_one, hodd, Nat.add_mul, Nat.mul_assoc]
  omega

theorem roundDiv_mul (hd : 0 < d) (k : Nat) : roundDiv (k * d) d = k :=
  Nat.le_antisymm (roundDiv_le hd (Nat.le_refl _)) (le_roundDiv hd (Nat.le_refl _))

theorem roundDiv_mul_mul (hd : 0 < d) (n m : Nat) : roundDiv (n * d) (m * d) = roundDiv n m := by
  have hquotient : n * d / (m * d) = n / m := Nat.mul_div_mul_right n m hd
  have hrest : n * d % (m * d) = n % m * d := Nat.mul_mod_mul_right d n m
  have hlow : 2 * (n % m * d) < m * d ↔ 2 * (n % m) < m := by
    rw [← Nat.mul_assoc]
    exact Nat.mul_lt_mul_right hd
  have hhigh : m * d < 2 * (n % m * d) ↔ m < 2 * (n % m) := by
    rw [← Nat.mul_assoc]
    exact Nat.mul_lt_mul_right hd
  unfold roundDiv
  rw [hquotient, hrest]
  simp only [hlow, hhigh]

/-- How a quotient is rounded does not depend on how it is written. -/
theorem roundDiv_congr {m : Nat} (hd : 0 < d) (hk : 0 < k) (h : n * k = m * d) : roundDiv n d = roundDiv m k := by
  rw [← roundDiv_mul_mul hk n d, ← roundDiv_mul_mul hd m k, h, Nat.mul_comm d k]

namespace Number

open Float.Model (UnpackedFloat Format totalExponent)
open Float.Model.UnpackedFloat (Sign ExtendedMantissa Accuracy accuracyOfFraction roundWithAccuracy
  shiftToTargetExponent shiftToExponent decreaseExponent)

/-! ## Extended mantissas -/

/-- The mantissa and its two bits tell how `n / d` is rounded. -/
structure Extends (em : ExtendedMantissa) (n d : Nat) : Prop where
  mantissa : em.mantissa = n / d
  roundBit : em.roundBit ↔ d ≤ 2 * (n % d)
  stickyBit : em.stickyBit ↔ n % d ≠ 0 ∧ 2 * (n % d) ≠ d

variable {em : ExtendedMantissa}

theorem extends_exact (n : Nat) : Extends (.ofMantissaAndAccuracy n .exact) n 1 where
  mantissa := (Nat.div_one n).symm
  roundBit := by simp [ExtendedMantissa.ofMantissaAndAccuracy, Nat.mod_one]
  stickyBit := by simp [ExtendedMantissa.ofMantissaAndAccuracy, Nat.mod_one]

theorem extends_fraction (n : Nat) (hd : 0 < d) :
    Extends (.ofMantissaAndAccuracy (n / d) (accuracyOfFraction (n % d) d)) n d := by
  unfold accuracyOfFraction
  split
  · rename_i hzero
    refine ⟨rfl, ?_, ?_⟩ <;> simp [ExtendedMantissa.ofMantissaAndAccuracy, hzero]
    omega
  · rename_i hrest
    cases hcompare : compare (2 * (n % d)) d with
    | lt =>
        have hlt : 2 * (n % d) < d := Nat.compare_eq_lt.mp hcompare
        refine ⟨rfl, ?_, ?_⟩ <;> simp [ExtendedMantissa.ofMantissaAndAccuracy] <;> omega
    | eq =>
        have heq : 2 * (n % d) = d := Nat.compare_eq_eq.mp hcompare
        refine ⟨rfl, ?_, ?_⟩ <;> simp [ExtendedMantissa.ofMantissaAndAccuracy] <;> omega
    | gt =>
        have hgt : d < 2 * (n % d) := Nat.compare_eq_gt.mp hcompare
        refine ⟨rfl, ?_, ?_⟩ <;> simp [ExtendedMantissa.ofMantissaAndAccuracy] <;> omega

theorem Extends.shiftRightOne (h : Extends em n d) (hd : 0 < d) : Extends em.shiftRightOne n (d * 2) := by
  have hrest : n % d < d := Nat.mod_lt n hd
  -- the bit that is shifted out becomes the upper part of the rest
  have hmod : n % (d * 2) = n % d + d * (n / d % 2) := Nat.mod_mul
  have hbit : n / d % 2 = 0 ∨ n / d % 2 = 1 := by omega
  obtain ⟨hmantissa, hround, hsticky⟩ := h
  refine ⟨?_, ?_, ?_⟩
  · rw [ExtendedMantissa.shiftRightOne, hmantissa, Nat.div_div_eq_div_mul]
  · simp only [ExtendedMantissa.shiftRightOne, hmantissa, bne_iff_ne, hmod]
    rcases hbit with hbit | hbit <;> simp [hbit] <;> omega
  · simp only [ExtendedMantissa.shiftRightOne, Bool.or_eq_true, hround, hsticky, hmod]
    rcases hbit with hbit | hbit <;> simp [hbit] <;> omega

theorem Extends.shiftRight (h : Extends em n d) (hd : 0 < d) (k : Nat) : Extends (em >>> k) n (d * 2 ^ k) := by
  show Extends (k.repeat ExtendedMantissa.shiftRightOne em) n (d * 2 ^ k)
  induction k with
  | zero => simpa [Nat.repeat] using h
  | succ k ih =>
      rw [Nat.repeat, Nat.pow_succ, ← Nat.mul_assoc]
      exact ih.shiftRightOne (Nat.mul_pos hd (Nat.two_pow_pos k))

theorem Extends.roundedMantissa (h : Extends em n d) (hd : 0 < d) : em.roundedMantissa = roundDiv n d := by
  obtain ⟨hmantissa, hround, hsticky⟩ := h
  obtain ⟨mantissa, roundBit, stickyBit⟩ := em
  dsimp only at hmantissa hround hsticky
  subst hmantissa
  unfold roundDiv
  dsimp only
  cases roundBit with
  | false =>
      have hlow : 2 * (n % d) < d := by simpa using hround
      rw [if_pos hlow]
      cases stickyBit <;> rfl
  | true =>
      have hhalf : d ≤ 2 * (n % d) := by simpa using hround
      rw [if_neg (Nat.not_lt.mpr hhalf)]
      cases stickyBit with
      | false =>
          -- exactly a half: adding the last bit makes the mantissa even
          have heq : 2 * (n % d) = d := by
            simp at hsticky
            omega
          rw [if_neg (by omega)]
          show n / d + n / d % 2 = _
          split <;> omega
      | true =>
          have hne : 2 * (n % d) ≠ d := (hsticky.mp rfl).2
          rw [if_pos (by omega)]
          rfl

/-! ## The rounded number -/

/-- A rounded mantissa with its exponent; one of 54 bits, which is a power of two, is halved. -/
def settle (s : Sign) (mantissa : Nat) (exponent : Int) : UnpackedFloat :=
  if h : mantissa = 0 then .zero s
  else if mantissa < 2 ^ 53 then .finite s mantissa exponent (Nat.pos_of_ne_zero h)
  else .finite s (2 ^ 52) (exponent + 1) (by decide)

/-- How many bits are rounded off. -/
def surplus (mantissa : Nat) (exponent : Int) : Nat := (max (mantissa.log2 + exponent - 52) (-1074) - exponent).toNat

variable {s : Sign} {m : Nat} {e : Int} {a : Accuracy}

theorem settle_zero : settle s 0 e = .zero s := rfl

theorem settle_of_lt (hpos : 0 < m) (hm : m < 2 ^ 53) : settle s m e = .finite s m e hpos := by
  rw [settle, dif_neg hpos.ne', if_pos hm]

theorem settle_of_le (hm : 2 ^ 53 ≤ m) : settle s m e = .finite s (2 ^ 52) (e + 1) (by decide) := by
  rw [settle, dif_neg (by omega), if_neg (by omega)]

theorem settle_cases (s : Sign) (m : Nat) (e : Int) :
    (m = 0 ∧ settle s m e = .zero s) ∨ (∃ hpos : 0 < m, m < 2 ^ 53 ∧ settle s m e = .finite s m e hpos) ∨
      (2 ^ 53 ≤ m ∧ settle s m e = .finite s (2 ^ 52) (e + 1) (by decide)) := by
  rcases Nat.eq_zero_or_pos m with rfl | hpos
  · exact .inl ⟨rfl, settle_zero⟩
  · rcases Nat.lt_or_ge m (2 ^ 53) with hlt | hge
    · exact .inr (.inl ⟨hpos, hlt, settle_of_lt hpos hlt⟩)
    · exact .inr (.inr ⟨hge, settle_of_le hge⟩)

theorem targetExponent_eq (m : Nat) (e : Int) :
    Format.binary64.targetExponent (totalExponent m e) = max (m.log2 + e - 52) (-1074) := by
  show max ((m.log2 : Int) + 1 + e - 53) (-1074) = _
  omega

theorem shiftToTargetExponent_of_le (hm : m ≤ 2 ^ 53) (he : -1074 ≤ e) :
    shiftToTargetExponent Format.binary64 m e .exact =
    if m < 2 ^ 53 then (⟨m, false, false⟩, e) else (⟨2 ^ 52, false, false⟩, e + 1) := by
  unfold shiftToTargetExponent shiftToExponent
  dsimp only
  rw [targetExponent_eq]
  split
  · rename_i hlt
    have hlog : m.log2 ≤ 52 := by
      by_cases hzero : m = 0
      · simp [hzero]
      · exact Nat.le_of_lt_succ ((Nat.log2_lt hzero).mpr hlt)
    have hshift : (max ((m.log2 : Int) + e - 52) (-1074) - e).toNat = 0 := by omega
    rw [hshift]
    simp [ExtendedMantissa.ofMantissaAndAccuracy, HShiftRight.hShiftRight, Nat.repeat]
  · obtain rfl : m = 2 ^ 53 := by omega
    have hshift : (max (((2 ^ 53 : Nat).log2 : Int) + e - 52) (-1074) - e).toNat = 1 := by
      rw [Nat.log2_two_pow]
      omega
    rw [hshift]
    rfl

theorem Extends.eq_div (h : Extends (.ofMantissaAndAccuracy m a) n d) : m = n / d := by
  rw [← h.mantissa]
  rcases a with _ | (_ | _ | _) <;> rfl

/-- Rounding a quotient rounds the exact one at the exponent where it fits. -/
theorem roundWithAccuracy_eq (h : Extends (.ofMantissaAndAccuracy m a) n d) (hd : 0 < d) :
    roundWithAccuracy Format.binary64 s m e a = settle s (roundDiv n (d * 2 ^ surplus m e)) (e + surplus m e) := by
  have hrounded := (h.shiftRight hd (surplus m e)).roundedMantissa (Nat.mul_pos hd (Nat.two_pow_pos _))
  have hm := h.eq_div
  -- rounding up leads at most to the power of two with one bit too many, so a second shift loses nothing
  have hfits : roundDiv n (d * 2 ^ surplus m e) ≤ 2 ^ 53 := by
    refine roundDiv_le (Nat.mul_pos hd (Nat.two_pow_pos _)) ?_
    have hlt : n < 2 ^ (m.log2 + 1) * d := (Nat.div_lt_iff_lt_mul hd).mp (hm ▸ Nat.lt_log2_self)
    have hpow : 2 ^ (m.log2 + 1) ≤ 2 ^ (53 + surplus m e) := by
      refine Nat.pow_le_pow_right (by decide) ?_
      unfold surplus
      omega
    calc n ≤ 2 ^ (m.log2 + 1) * d := Nat.le_of_lt hlt
      _ ≤ 2 ^ (53 + surplus m e) * d := Nat.mul_le_mul_right d hpow
      _ = 2 ^ 53 * (d * 2 ^ surplus m e) := by rw [Nat.pow_add]; ring
  have hfirst : shiftToTargetExponent Format.binary64 m e a =
      (ExtendedMantissa.ofMantissaAndAccuracy m a >>> surplus m e, e + surplus m e) := by
    unfold shiftToTargetExponent shiftToExponent
    rw [targetExponent_eq]
    rfl
  unfold roundWithAccuracy
  rw [hfirst]
  dsimp only
  rw [hrounded, shiftToTargetExponent_of_le hfits (by unfold surplus; omega)]
  generalize roundDiv n (d * 2 ^ surplus m e) = r
  by_cases hr : r < 2 ^ 53
  · rw [if_pos hr]
    rcases Nat.eq_zero_or_pos r with rfl | hpos
    · rfl
    · rw [settle_of_lt hpos hr]
      exact dif_neg hpos.ne'
  · rw [if_neg hr, settle_of_le (by omega)]
    rfl

/-! ## Finite results -/

theorem isFinite_settle (h : e ≤ 970 ∨ e = 971 ∧ m < 2 ^ 53) : (Float.Model.pack (settle s m e)).isFinite := by
  rcases settle_cases s m e with ⟨-, hsettle⟩ | ⟨hpos, hm, hsettle⟩ | ⟨hm, hsettle⟩
  · rw [hsettle]
    cases s <;> decide
  · rw [hsettle, isFinite_pack_iff]
    omega
  · rw [hsettle, isFinite_pack_iff]
    omega

/-- A quotient below the largest double and half a step more is rounded to a finite double. -/
theorem isFinite_roundWithAccuracy (h : Extends (.ofMantissaAndAccuracy m a) n d) (hd : 0 < d) (he : e ≤ 971)
    (hbound : 2 * n < (2 ^ 54 - 1) * (d * 2 ^ (971 - e).toNat)) :
    (Float.Model.pack (roundWithAccuracy Format.binary64 s m e a)).isFinite := by
  have hlog : m.log2 ≤ 52 + (971 - e).toNat := by
    by_cases hzero : m = 0
    · simp [hzero]
    · refine Nat.le_of_lt_succ ((Nat.log2_lt hzero).mpr ?_)
      rw [h.eq_div, Nat.div_lt_iff_lt_mul hd]
      have hpow : 2 ^ (52 + (971 - e).toNat).succ * d = 2 ^ 53 * (d * 2 ^ (971 - e).toNat) := by
        rw [Nat.succ_eq_add_one, Nat.add_right_comm, Nat.pow_add]
        ring
      rw [hpow]
      omega
  rw [roundWithAccuracy_eq h hd]
  apply isFinite_settle
  by_cases htop : e + surplus m e = 971
  · have hsurplus : surplus m e = (971 - e).toNat := by omega
    exact .inr ⟨htop, roundDiv_lt (Nat.mul_pos hd (Nat.two_pow_pos _)) (hsurplus ▸ hbound)⟩
  · unfold surplus at htop ⊢
    exact .inl (by omega)

theorem isFinite_round (he : e ≤ 971) (hbound : 2 * m < (2 ^ 54 - 1) * 2 ^ (971 - e).toNat) :
    (Float.Model.pack (UnpackedFloat.round Format.binary64 s m e)).isFinite := by
  unfold UnpackedFloat.round decreaseExponent
  dsimp only
  generalize (e - Format.binary64.targetExponent (totalExponent m e)).toNat = k
  refine isFinite_roundWithAccuracy (extends_exact _) (by decide) (by omega) ?_
  have hshift : (971 - (e - (k : Int))).toNat = (971 - e).toNat + k := by omega
  rw [hshift, Nat.pow_add, Nat.shiftLeft_eq, Nat.one_mul, ← Nat.mul_assoc, ← Nat.mul_assoc]
  exact Nat.mul_lt_mul_of_pos_right hbound (Nat.two_pow_pos k)

theorem isFinite_normalize {mantissa : Int} (he : e ≤ 971)
    (hbound : 2 * mantissa.natAbs < (2 ^ 54 - 1) * 2 ^ (971 - e).toNat) :
    (Float.Model.pack (UnpackedFloat.normalize Format.binary64 mantissa e s)).isFinite := by
  unfold UnpackedFloat.normalize
  split
  · exact isFinite_round he (by omega)
  · cases s <;> decide
  · exact isFinite_round he (by omega)

end Number

end RuleFlow
