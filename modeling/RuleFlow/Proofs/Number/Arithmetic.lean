import RuleFlow.Proofs.Number.Value

/-!
# Quotients and differences of doubles

A quotient of natural numbers is close to their fraction, and close enough to compare as the fraction does if it is a
proper one with a denominator of up to 26 bits. What is at most one is less than one once something is taken off it that
rounding cannot hide.
-/

namespace RuleFlow.Number

open Float.Model (UnpackedFloat Format totalExponent)
open Float.Model.UnpackedFloat (Sign)

variable {x y : Float} {m n a b c d : Nat} {e f : Int} {s : Sign}

/-! ## Quotients -/

theorem div_rounds {r : Sign} (hm : 0 < m) (hn : 0 < n) (e f : Int) :
    Rounds (s / r) (m * 2 ^ e / (n * 2 ^ f))
      (UnpackedFloat.div Format.binary64 (.finite s m e hm) (.finite r n f hn)) := by
  unfold UnpackedFloat.div UnpackedFloat.divCore
  dsimp only
  have htarget : Format.binary64.targetExponent (totalExponent m e - totalExponent n f) =
      max ((m.log2 : Int) + e - n.log2 - f - 53) (-1074) := by
    show max ((m.log2 : Int) + 1 + e - (n.log2 + 1 + f) - 53) (-1074) = _
    omega
  rw [htarget, Nat.shiftLeft_eq]
  generalize hleast : min (e - f) (max ((m.log2 : Int) + e - n.log2 - f - 53) (-1074)) = least
  generalize hshift : (e - f - least).toNat = k
  have hvalue : ((m * 2 ^ k : Nat) : ℚ) / n * 2 ^ least = m * 2 ^ e / (n * 2 ^ f) := by
    have hk : (k : Int) = e - f - least := by omega
    have hpow : (2 : ℚ) ^ k = 2 ^ (e - f - least) := by rw [← zpow_natCast, hk]
    push_cast
    rw [hpow, zpow_sub₀ (by norm_num), zpow_sub₀ (by norm_num)]
    field_simp
  rw [← hvalue]
  refine roundWithAccuracy_rounds (extends_fraction _ hn) hn ?_
  by_cases hsmall : least ≤ -1074
  · omega
  · -- the quotient has 53 bits then
    have hbits : 52 ≤ (m * 2 ^ k / n).log2 := by
      have hquotient : 2 ^ 52 ≤ m * 2 ^ k / n := by
        rw [Nat.le_div_iff_mul_le hn]
        calc 2 ^ 52 * n ≤ 2 ^ 52 * 2 ^ (n.log2 + 1) := Nat.mul_le_mul_left _ Nat.lt_log2_self.le
          _ = 2 ^ (52 + (n.log2 + 1)) := (Nat.pow_add 2 _ _).symm
          _ ≤ 2 ^ (m.log2 + k) := Nat.pow_le_pow_right (by decide) (by omega)
          _ = 2 ^ m.log2 * 2 ^ k := Nat.pow_add 2 _ _
          _ ≤ m * 2 ^ k := Nat.mul_le_mul_right _ (Nat.log2_self_le hm.ne')
      exact (Nat.le_log2 (Nat.one_le_iff_ne_zero.mp (le_trans (by decide) hquotient))).mpr hquotient
    omega

/-- A positive natural number of up to 53 bits is its own value. -/
theorem toFloat_value (hpos : 0 < n) (hn : n < 2 ^ 53) :
    ((n * 2 ^ (52 - n.log2) : Nat) : ℚ) * 2 ^ ((n.log2 : Int) - 52) = n := by
  have hlog : n.log2 ≤ 52 := Nat.le_of_lt_succ ((Nat.log2_lt hpos.ne').mpr hn)
  have hexponent : (n.log2 : Int) - 52 = -((52 - n.log2 : Nat) : Int) := by omega
  rw [hexponent, zpow_neg, zpow_natCast]
  push_cast
  field_simp

/-- The quotient of natural numbers is their fraction, rounded. -/
theorem fraction_rounds (ha : a < 2 ^ 53) (hpos : 0 < b) (hb : b < 2 ^ 53) :
    ∃ u, a.toFloat / b.toFloat = Float.ofModel (Float.Model.pack u) ∧ Rounds .positive (a / b) u := by
  refine ⟨UnpackedFloat.div Format.binary64 a.toFloat.toModel.unpack b.toFloat.toModel.unpack, rfl, ?_⟩
  rw [unpack_toFloat hpos hb]
  rcases Nat.eq_zero_or_pos a with rfl | hapos
  · exact ⟨0, 1, -1074, by decide, by simp, ⟨le_rfl, by simp, .inr rfl⟩, rfl⟩
  · rw [unpack_toFloat hapos ha, ← toFloat_value hapos ha, ← toFloat_value hpos hb]
    exact div_rounds _ _ _ _

theorem proper_fraction_near (hab : a ≤ b) (hpos : 0 < b) (hb : b < 2 ^ 53) :
    (a.toFloat / b.toFloat).isFinite ∧ |value (a.toFloat / b.toFloat).toModel.unpack - a / b| ≤ 2 ^ (-53 : Int) := by
  obtain ⟨u, hu, hrounds⟩ := fraction_rounds (a := a) (by omega) hpos hb
  have hle : (a : ℚ) / b ≤ 2 ^ (0 : Int) := by
    rw [zpow_zero, div_le_one (by positivity)]
    exact_mod_cast hab
  obtain ⟨hfinite, hnear⟩ := hrounds.near hle (by decide) (by decide)
  rw [hu]
  refine ⟨hfinite, ?_⟩
  simpa [Sign.apply] using hnear

section

variable (hab : a ≤ b) (hpos : 0 < b) (hb : b < 2 ^ 26) (hcd : c ≤ d) (hpos' : 0 < d) (hd : d < 2 ^ 26)

include hab hpos hb hcd hpos' hd

/-- Proper fractions are far enough apart for rounding to keep them so. -/
theorem fraction_lt_of_lt (h : (a : ℚ) / b < c / d) : a.toFloat / b.toFloat < c.toFloat / d.toFloat := by
  obtain ⟨hfinite, hnear⟩ := proper_fraction_near hab hpos (by omega)
  obtain ⟨hfinite', hnear'⟩ := proper_fraction_near hcd hpos' (by omega)
  rw [lt_iff_value hfinite hfinite']
  have hbq : (0 : ℚ) < b := by positivity
  have hdq : (0 : ℚ) < d := by positivity
  have hgap : 1 / ((b : ℚ) * d) ≤ c / d - a / b := by
    rw [div_lt_div_iff₀ hbq hdq] at h
    have hcross : (a : ℚ) * d + 1 ≤ c * b := by exact_mod_cast h
    rw [div_sub_div _ _ hdq.ne' hbq.ne', mul_comm (b : ℚ), div_le_div_iff_of_pos_right (mul_pos hdq hbq)]
    linarith
  have hsmall : (2 : ℚ) ^ (-52 : Int) < 1 / (b * d) := by
    have hproduct : b * d < 2 ^ 26 * 2 ^ 26 := Nat.mul_lt_mul'' hb hd
    rw [zpow_neg, ← one_div]
    exact one_div_lt_one_div_of_lt (mul_pos hbq hdq) (by exact_mod_cast hproduct)
  have hunit : (2 : ℚ) ^ (-52 : Int) = 2 ^ (-53 : Int) + 2 ^ (-53 : Int) := by norm_num
  linarith [(abs_le.mp hnear).2, (abs_le.mp hnear').1]

theorem fraction_lt_iff : a.toFloat / b.toFloat < c.toFloat / d.toFloat ↔ (a : ℚ) / b < c / d := by
  obtain ⟨hfinite, -⟩ := proper_fraction_near hab hpos (by omega)
  obtain ⟨hfinite', -⟩ := proper_fraction_near hcd hpos' (by omega)
  rcases lt_trichotomy ((a : ℚ) / b) (c / d) with h | h | h
  · exact iff_of_true (fraction_lt_of_lt hab hpos hb hcd hpos' hd h) h
  · -- equal fractions are rounded to one double
    obtain ⟨u, hu, hrounds⟩ := fraction_rounds (a := a) (by omega) hpos (by omega)
    obtain ⟨v, hv, hrounds'⟩ := fraction_rounds (a := c) (by omega) hpos' (by omega)
    rw [h] at hrounds
    rw [lt_iff_value hfinite hfinite', hu, hv, hrounds.unique hrounds']
    exact iff_of_false (lt_irrefl _) h.not_lt
  · refine iff_of_false (fun hlt => ?_) h.not_gt
    exact not_le_of_lt (fraction_lt_of_lt hcd hpos' hd hab hpos hb h) (le_of_lt hlt)

theorem fraction_le_iff : a.toFloat / b.toFloat ≤ c.toFloat / d.toFloat ↔ (a : ℚ) / b ≤ c / d := by
  obtain ⟨hfinite, -⟩ := proper_fraction_near hab hpos (by omega)
  obtain ⟨hfinite', -⟩ := proper_fraction_near hcd hpos' (by omega)
  rw [le_iff_value hfinite hfinite', ← not_lt, ← lt_iff_value hfinite' hfinite,
    fraction_lt_iff hcd hpos' hd hab hpos hb, not_lt]

end

/-! ## Differences -/

theorem value_one : value (1 : Float).toModel.unpack = 1 := by
  have hone : (1 : Float).toModel.unpack = .finite .positive (2 ^ 52) (-52) (by decide) := rfl
  rw [hone, value_positive]
  norm_num

theorem lt_one_of_place {u : UnpackedFloat} {p : Int × Int × Int} (hx : x.toModel.unpack = u) (hu : place u = some p)
    (hp : p.1 ≤ 0) : x < 1 := by
  refine lt_iff_place.mpr ⟨p, _, hx ▸ hu, place_one, ?_⟩
  have hsign : compare p.1 1 = .lt := compare_lt_iff_lt.mpr (by omega)
  simp [placeOrder, compareLex, compareOn, hsign]

theorem lt_one_of_negative {hm : 0 < m} (hbits : m < 2 ^ 53) (hleast : -1074 ≤ e) (hnormal : 2 ^ 52 ≤ m ∨ e = -1074) :
    Float.ofModel (Float.Model.pack (.finite .negative m e hm)) < 1 := by
  by_cases hmost : e ≤ 971
  · exact lt_one_of_place (unpack_pack ⟨hbits, hleast, hmost, hnormal⟩) rfl (by show (-1 : Int) ≤ 0; decide)
  · exact lt_one_of_place (unpack_pack_of_lt (by omega)) rfl (by decide)

theorem Rounds.lt_one_of_negative {t : ℚ} {u : UnpackedFloat} (h : Rounds .negative t u) :
    Float.ofModel (Float.Model.pack u) < 1 := by
  obtain ⟨m, e, rfl, hbits, hnormal, hfits, -⟩ := h.exists_settle
  have hleast := hfits.least
  rcases settle_cases .negative m e with ⟨-, hsettle⟩ | ⟨hpos, hlt, hsettle⟩ | ⟨-, hsettle⟩
  · rw [hsettle]
    exact lt_one_of_place (u := .zero .negative) rfl rfl (by decide)
  · rw [hsettle]
    exact Number.lt_one_of_negative hlt hleast hnormal
  · rw [hsettle]
    exact Number.lt_one_of_negative (by decide) (by omega) (.inl (by decide))

theorem Rounds.lt_one {t : ℚ} {u : UnpackedFloat} (h : Rounds .positive t u) (ht : t ≤ 63 / 64) :
    Float.ofModel (Float.Model.pack u) < 1 := by
  have hone : (1 : Float).isFinite := by decide
  have htop : t ≤ 2 ^ (0 : Int) := by
    rw [zpow_zero]
    linarith
  obtain ⟨hfinite, hnear⟩ := h.near htop (by decide) (by decide)
  simp only [Sign.apply, Int.cast_one, one_mul] at hnear
  refine (lt_iff_value (x := Float.ofModel (Float.Model.pack u)) hfinite hone).mpr ?_
  rw [value_one]
  show value (Float.Model.pack u).unpack < 1
  have hunit : (2 : ℚ) ^ (0 - 53 : Int) < 1 / 64 := by norm_num
  have hoff := (abs_le.mp hnear).2.trans_lt hunit
  linarith

theorem normalize_lt_one {mantissa : Int} (h : (mantissa : ℚ) * 2 ^ e ≤ 63 / 64) :
    Float.ofModel (Float.Model.pack (UnpackedFloat.normalize Format.binary64 mantissa e s)) < 1 := by
  unfold UnpackedFloat.normalize
  split
  · rename_i hcompare
    have hneg := compare_lt_iff_lt.mp hcompare
    exact (round_rounds (by omega) e).lt_one_of_negative
  · cases s <;> exact lt_one_of_place (u := .zero _) rfl rfl (by decide)
  · rename_i hcompare
    have hpos := compare_gt_iff_gt.mp hcompare
    have hcast : ((mantissa.toNat : Nat) : ℚ) = mantissa := by exact_mod_cast Int.toNat_of_nonneg hpos.le
    exact (round_rounds (by omega) e).lt_one (hcast ▸ h)

/-- The value of a mantissa that is written for a smaller exponent. -/
theorem value_shift (s : Sign) (m : Nat) (h : f ≤ e) :
    ((s.apply (m <<< (e - f).toNat : Nat) : Int) : ℚ) * 2 ^ f = s.apply m * 2 ^ e := by
  have hshift : e = f + (e - f).toNat := by omega
  rw [cast_apply, cast_apply s m, Nat.shiftLeft_eq]
  conv_rhs => rw [hshift, zpow_add₀ (by norm_num), zpow_natCast]
  push_cast
  ring

theorem unpack_of_value_pos (hy : y.isFinite) (h : 0 < value y.toModel.unpack) :
    ∃ n f hn, y.toModel.unpack = .finite .positive n f hn ∧ Canonical n f := by
  rcases unpack_cases_of_isFinite hy with ⟨s, hy⟩ | ⟨s, n, f, hn, hy, g⟩
  · rw [hy, value_zero] at h
    exact absurd h (lt_irrefl 0)
  · cases s with
    | positive => exact ⟨n, f, hn, hy, g⟩
    | negative =>
        have hpos : (0 : ℚ) < n * 2 ^ f := by positivity
        rw [hy, value_negative] at h
        linarith

/-- Taking off a part that shows leads to less than one. -/
theorem sub_lt_one (hx : x ≤ 1) (hy : y.isFinite) (hlow : 1 / 64 ≤ value y.toModel.unpack) : x - y < 1 := by
  obtain ⟨n, f, hn, hy, g⟩ := unpack_of_value_pos hy (lt_of_lt_of_le (by norm_num) hlow)
  rw [hy] at hlow
  obtain ⟨p, hp, hle⟩ := le_one_iff.mp hx
  show Float.ofModel (Float.Model.pack (UnpackedFloat.sub Format.binary64 x.toModel.unpack y.toModel.unpack)) < 1
  rw [hy]
  cases hunpack : x.toModel.unpack with
  | notANumber =>
      rw [hunpack] at hp
      cases hp
  | infinity s =>
      cases s with
      | negative =>
          show Float.ofModel (Float.Model.pack (.infinity .negative)) < 1
          exact lt_one_of_place (u := .infinity .negative) rfl rfl (by decide)
      | positive =>
          rw [hunpack] at hp
          cases hp
          exact absurd hle (by decide)
  | zero s => exact lt_one_of_negative g.bits g.least g.normal
  | finite s m e hm =>
      have hfinite : x.isFinite := by
        show x.toModel.unpack.isFinite
        rw [hunpack]
        rfl
      have hvalue := (le_iff_value hfinite (by decide)).mp hx
      rw [value_one, hunpack] at hvalue
      unfold UnpackedFloat.sub UnpackedFloat.decreaseExponent
      dsimp only
      refine normalize_lt_one ?_
      rw [Int.cast_sub, sub_mul, value_shift s m (min_le_left e f), value_shift .positive n (min_le_right e f)]
      rw [value_finite] at hvalue hlow
      linarith

end RuleFlow.Number
