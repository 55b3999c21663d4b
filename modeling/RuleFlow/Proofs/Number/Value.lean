import Mathlib.Algebra.Order.Field.Power
import Mathlib.Data.Rat.Cast.Order
import Mathlib.Tactic.FieldSimp
import Mathlib.Tactic.Linarith
import Mathlib.Tactic.Positivity
import RuleFlow.Proofs.Number.Natural

/-!
# The numbers that doubles stand for

Finite doubles compare as the rational numbers that they stand for (`value`). Rounding is a matter of these numbers,
too: what `t` is rounded to (`Rounds`) does not depend on how `t` is written, and is at most half a unit of its last
place away from it.
-/

namespace RuleFlow.Number

open Float.Model (UnpackedFloat Format totalExponent)
open Float.Model.UnpackedFloat (Sign Accuracy ExtendedMantissa roundWithAccuracy)

/-- The number that a finite double stands for. -/
def value : UnpackedFloat → ℚ
  | .finite s mantissa exponent _ => s.apply mantissa * 2 ^ exponent
  | _ => 0

variable {x y : Float} {m n d k : Nat} {e f : Int} {s : Sign} {t : ℚ}

theorem value_zero (s : Sign) : value (.zero s) = 0 := rfl

theorem value_finite {hm : 0 < m} : value (.finite s m e hm) = s.apply m * 2 ^ e := rfl

theorem value_negative {hm : 0 < m} : value (.finite .negative m e hm) = -(m * 2 ^ e) := by
  rw [value_finite, Sign.apply, Int.cast_neg, Int.cast_natCast, neg_mul]

theorem value_positive {hm : 0 < m} : value (.finite .positive m e hm) = m * 2 ^ e := by
  rw [value_finite, Sign.apply, Int.cast_natCast]

/-! ## The order of values -/

theorem mul_two_pow_lt_of_lt (h : Canonical m e) (g : Canonical n f) (hef : e < f) : (m : ℚ) * 2 ^ e < n * 2 ^ f := by
  have hleast := h.least
  have hn : (2 ^ 52 : ℚ) ≤ n := by exact_mod_cast g.normal.resolve_right (by omega)
  have hm : (m : ℚ) < 2 ^ 53 := by exact_mod_cast h.bits
  calc (m : ℚ) * 2 ^ e < 2 ^ 53 * 2 ^ e := mul_lt_mul_of_pos_right hm (by positivity)
    _ = 2 ^ 52 * 2 ^ (e + 1) := by rw [zpow_add_one₀ (by norm_num)]; ring
    _ ≤ n * 2 ^ f := mul_le_mul hn (zpow_le_zpow_right₀ (by norm_num) (by omega)) (by positivity) (by positivity)

theorem compare_mul_two_pow (h : Canonical m e) (g : Canonical n f) :
    compare ((m : ℚ) * 2 ^ e) (n * 2 ^ f) = (compare e f).then (compare m n) := by
  rcases lt_trichotomy e f with hef | rfl | hef
  · rw [compare_lt_iff_lt.mpr hef, compare_lt_iff_lt.mpr (mul_two_pow_lt_of_lt h g hef)]
    rfl
  · have hpos : (0 : ℚ) < 2 ^ e := by positivity
    rw [compare_eq_iff_eq.mpr rfl]
    rcases lt_trichotomy m n with hmn | rfl | hmn
    · rw [compare_lt_iff_lt.mpr hmn, compare_lt_iff_lt.mpr (mul_lt_mul_of_pos_right (by exact_mod_cast hmn) hpos)]
      rfl
    · rw [compare_eq_iff_eq.mpr rfl, compare_eq_iff_eq.mpr rfl]
      rfl
    · rw [compare_gt_iff_gt.mpr hmn, compare_gt_iff_gt.mpr (mul_lt_mul_of_pos_right (by exact_mod_cast hmn) hpos)]
      rfl
  · rw [compare_gt_iff_gt.mpr hef, compare_gt_iff_gt.mpr (mul_two_pow_lt_of_lt g h hef)]
    rfl

theorem compare_neg_neg (a b : ℚ) : compare (-a) (-b) = compare b a := by
  rcases lt_trichotomy a b with h | rfl | h
  · rw [compare_gt_iff_gt.mpr h, compare_gt_iff_gt.mpr (neg_lt_neg h)]
  · rw [compare_eq_iff_eq.mpr rfl, compare_eq_iff_eq.mpr rfl]
  · rw [compare_lt_iff_lt.mpr h, compare_lt_iff_lt.mpr (neg_lt_neg h)]

/-- The place of a finite double with its value. -/
inductive Stands : Int × Int × Int → ℚ → Prop
  | below {m : Nat} {e : Int} : 0 < m → Canonical m e → Stands (-1, -e, -m) (-(m * 2 ^ e))
  | zero : Stands (0, 0, 0) 0
  | above {m : Nat} {e : Int} : 0 < m → Canonical m e → Stands (1, e, m) (m * 2 ^ e)

theorem exists_stands (hx : x.isFinite) : ∃ p, place x.toModel.unpack = some p ∧ Stands p (value x.toModel.unpack) := by
  rcases unpack_cases_of_isFinite hx with ⟨s, hx⟩ | ⟨s, m, e, hm, hx, h⟩
  · rw [hx]
    exact ⟨_, rfl, .zero⟩
  · rw [hx]
    cases s with
    | negative =>
        refine ⟨_, rfl, ?_⟩
        rw [value_negative]
        exact .below hm h
    | positive =>
        refine ⟨_, rfl, ?_⟩
        rw [value_positive]
        exact .above hm h

/-- Places compare as the values do. -/
theorem Stands.placeOrder_eq {p q : Int × Int × Int} {v w : ℚ} (hp : Stands p v) (hq : Stands q w) :
    placeOrder p q = compare v w := by
  have hpos {m : Nat} (e : Int) (hm : 0 < m) : (0 : ℚ) < m * 2 ^ e := by positivity
  rcases hp with ⟨hm, h⟩ | _ | ⟨hm, h⟩ <;> rcases hq with ⟨hn, g⟩ | _ | ⟨hn, g⟩
  · rw [placeOrder_of_fst, compare_neg, compare_neg, compare_natCast, compare_neg_neg, ← Ordering.swap_then,
      ← compare_mul_two_pow h g, ← Std.OrientedOrd.eq_swap]
  · exact (compare_lt_iff_lt.mpr (neg_lt_zero.mpr (hpos _ hm))).symm
  · exact (compare_lt_iff_lt.mpr ((neg_lt_zero.mpr (hpos _ hm)).trans (hpos _ hn))).symm
  · exact (compare_gt_iff_gt.mpr (neg_lt_zero.mpr (hpos _ hn))).symm
  · exact (compare_eq_iff_eq.mpr rfl).symm
  · exact (compare_lt_iff_lt.mpr (hpos _ hn)).symm
  · exact (compare_gt_iff_gt.mpr ((neg_lt_zero.mpr (hpos _ hn)).trans (hpos _ hm))).symm
  · exact (compare_gt_iff_gt.mpr (hpos _ hm)).symm
  · rw [placeOrder_of_fst, compare_natCast, compare_mul_two_pow h g]

theorem lt_iff_value (hx : x.isFinite) (hy : y.isFinite) : x < y ↔ value x.toModel.unpack < value y.toModel.unpack := by
  obtain ⟨p, hp, hv⟩ := exists_stands hx
  obtain ⟨q, hq, hw⟩ := exists_stands hy
  simp [lt_iff_place, hp, hq, hv.placeOrder_eq hw, compare_lt_iff_lt]

theorem le_iff_value (hx : x.isFinite) (hy : y.isFinite) : x ≤ y ↔ value x.toModel.unpack ≤ value y.toModel.unpack := by
  obtain ⟨p, hp, hv⟩ := exists_stands hx
  obtain ⟨q, hq, hw⟩ := exists_stands hy
  simp [le_iff_place, hp, hq, hv.placeOrder_eq hw, Ordering.isLE_iff_ne_gt, compare_le_iff_le]

/-! ## Rounding -/

/-- The exponent with which a number is written with 53 bits, or the least one for a smaller number. -/
structure Fits (t : ℚ) (e : Int) : Prop where
  least : -1074 ≤ e
  high : t < 2 ^ (e + 53)
  low : 2 ^ (e + 52) ≤ t ∨ e = -1074

/-- What the number, with this sign, is rounded to, where no exponent is too large. -/
def Rounds (s : Sign) (t : ℚ) (u : UnpackedFloat) : Prop :=
  ∃ (n d : Nat) (e : Int), 0 < d ∧ t = n / d * 2 ^ e ∧ Fits t e ∧ u = settle s (roundDiv n d) e

theorem two_zpow_lt_iff {a b : Int} : (2 : ℚ) ^ a < 2 ^ b ↔ a < b := zpow_lt_zpow_iff_right₀ (by norm_num)

theorem two_zpow_le_iff {a b : Int} : (2 : ℚ) ^ a ≤ 2 ^ b ↔ a ≤ b := zpow_le_zpow_iff_right₀ (by norm_num)

theorem Fits.le_of_fits (h : Fits t e) (g : Fits t f) : f ≤ e := by
  have hleast := h.least
  rcases g.low with hlow | rfl
  · have hexponents := two_zpow_lt_iff.mp (hlow.trans_lt h.high)
    omega
  · exact hleast

theorem Fits.unique (h : Fits t e) (g : Fits t f) : e = f := le_antisymm (g.le_of_fits h) (h.le_of_fits g)

/-- A number is rounded in one way only. -/
theorem Rounds.unique {u v : UnpackedFloat} (hu : Rounds s t u) (hv : Rounds s t v) : u = v := by
  obtain ⟨n, d, e, hd, ht, hfits, rfl⟩ := hu
  obtain ⟨m, k, f, hk, ht', hfits', rfl⟩ := hv
  obtain rfl := hfits.unique hfits'
  have hquotient : (n : ℚ) / d = m / k := mul_right_cancel₀ (by positivity) (ht.symm.trans ht')
  rw [div_eq_div_iff (by positivity) (by positivity)] at hquotient
  rw [roundDiv_congr hd hk (by exact_mod_cast hquotient)]

theorem roundDiv_bounds (hd : 0 < d) (n : Nat) :
    2 * n ≤ 2 * (roundDiv n d * d) + d ∧ 2 * (roundDiv n d * d) ≤ 2 * n + d := by
  have hsplit := Nat.div_add_mod n d
  have hrest := Nat.mod_lt n hd
  rw [Nat.mul_comm] at hsplit
  have hnext : (n / d + 1) * d = n / d * d + d := Nat.succ_mul _ _
  unfold roundDiv
  dsimp only
  split_ifs <;> omega

theorem abs_roundDiv_sub_le (hd : 0 < d) (n : Nat) : |(roundDiv n d : ℚ) - n / d| ≤ 1 / 2 := by
  obtain ⟨hlow, hhigh⟩ := roundDiv_bounds hd n
  have hdq : (0 : ℚ) < d := by exact_mod_cast hd
  have hlowq : 2 * (n : ℚ) ≤ 2 * (roundDiv n d * d) + d := by exact_mod_cast hlow
  have hhighq : 2 * ((roundDiv n d : ℚ) * d) ≤ 2 * n + d := by exact_mod_cast hhigh
  have hquotient : (n : ℚ) / d * d = n := div_mul_cancel₀ _ hdq.ne'
  rw [abs_le]
  constructor <;> refine le_of_mul_le_mul_right ?_ hdq <;> linarith

/-- Packing keeps what a number is rounded to, unless it is too large. -/
theorem unpack_pack_settle (hnormal : 2 ^ 52 ≤ m ∨ e = -1074) (hleast : -1074 ≤ e) (hmost : e ≤ 970) :
    (Float.Model.pack (settle s m e)).unpack = settle s m e := by
  rcases settle_cases s m e with ⟨-, hsettle⟩ | ⟨hpos, hlt, hsettle⟩ | ⟨hge, hsettle⟩
  · rw [hsettle]
    cases s <;> rfl
  · rw [hsettle, unpack_pack ⟨hlt, hleast, by omega, hnormal⟩]
  · rw [hsettle, unpack_pack ⟨by decide, by omega, by omega, .inl (Nat.le_refl _)⟩]

theorem cast_apply (s : Sign) (m : Nat) : ((s.apply m : Int) : ℚ) = s.apply 1 * m := by
  cases s <;> simp [Sign.apply]

theorem value_settle (hm : m ≤ 2 ^ 53) : value (settle s m e) = s.apply 1 * (m * 2 ^ e) := by
  rcases settle_cases s m e with ⟨rfl, hsettle⟩ | ⟨hpos, hlt, hsettle⟩ | ⟨hge, hsettle⟩
  · simp [hsettle, value_zero]
  · rw [hsettle, value_finite, cast_apply, mul_assoc]
  · obtain rfl := Nat.le_antisymm hm hge
    rw [hsettle, value_finite, cast_apply, zpow_add_one₀ (by norm_num)]
    push_cast
    ring

/-- The mantissa that a number is rounded to has 53 bits unless the exponent is the least one, and is at most a half
off. -/
theorem Rounds.exists_settle {u : UnpackedFloat} (h : Rounds s t u) :
    ∃ m e, u = settle s m e ∧ m ≤ 2 ^ 53 ∧ (2 ^ 52 ≤ m ∨ e = -1074) ∧ Fits t e ∧ |m * 2 ^ e - t| ≤ 2 ^ (e - 1) := by
  obtain ⟨n, d, e, hd, rfl, hfits, rfl⟩ := h
  have hdq : (0 : ℚ) < d := by exact_mod_cast hd
  have hpos : (0 : ℚ) < 2 ^ e := by positivity
  refine ⟨_, e, rfl, ?_, ?_, hfits, ?_⟩
  · have hhigh := hfits.high
    rw [add_comm, zpow_add₀ (by norm_num), mul_lt_mul_iff_left₀ hpos, div_lt_iff₀ hdq] at hhigh
    exact roundDiv_le hd (by exact_mod_cast hhigh.le)
  · refine hfits.low.imp_left fun hlow => ?_
    rw [add_comm, zpow_add₀ (by norm_num), mul_le_mul_iff_left₀ hpos, le_div_iff₀ hdq] at hlow
    exact le_roundDiv hd (by exact_mod_cast hlow)
  · rw [← sub_mul, abs_mul, abs_of_pos hpos]
    calc |(roundDiv n d : ℚ) - n / d| * 2 ^ e
        ≤ 1 / 2 * 2 ^ e := mul_le_mul_of_nonneg_right (abs_roundDiv_sub_le hd n) hpos.le
      _ = 2 ^ (e - 1) := by rw [zpow_sub_one₀ (by norm_num)]; ring

/-- The double that a number is rounded to is half a unit of its last place away from the number, or less. -/
theorem Rounds.near {u : UnpackedFloat} {top : Int} (h : Rounds s t u) (htop : t ≤ 2 ^ top) (hleast : -1022 ≤ top)
    (hmost : top ≤ 1022) :
    (Float.Model.pack u).isFinite ∧ |value (Float.Model.pack u).unpack - s.apply 1 * t| ≤ 2 ^ (top - 53) := by
  obtain ⟨m, e, rfl, hbits, hnormal, hfits, hnear⟩ := h.exists_settle
  have he : e ≤ top - 52 := by
    rcases hfits.low with hlow | rfl
    · have hexponents := two_zpow_le_iff.mp (hlow.trans htop)
      omega
    · omega
  refine ⟨isFinite_settle (.inl (by omega)), ?_⟩
  have hsign : |((s.apply 1 : Int) : ℚ)| = 1 := by cases s <;> simp [Sign.apply]
  rw [unpack_pack_settle hnormal hfits.least (by omega), value_settle hbits, ← mul_sub, abs_mul, hsign, one_mul]
  exact hnear.trans (two_zpow_le_iff.mpr (by omega))

/-- The whole part of a quotient tells the exponent that fits, if it has enough bits. -/
theorem fits_of_eq_div (hd : 0 < d) (hm : m = n / d) (hleast : e ≤ max (m.log2 + e - 52) (-1074)) :
    Fits (n / d * 2 ^ e) (max (m.log2 + e - 52) (-1074)) := by
  have hdq : (0 : ℚ) < d := by exact_mod_cast hd
  have hpos : (0 : ℚ) < 2 ^ e := by positivity
  refine ⟨by omega, ?_, ?_⟩
  · have hlt : (n : ℚ) / d < 2 ^ ((m.log2 : Int) + 1) := by
      have hnat : n < 2 ^ (m.log2 + 1) * d := (Nat.div_lt_iff_lt_mul hd).mp (hm ▸ Nat.lt_log2_self)
      rw [div_lt_iff₀ hdq]
      exact_mod_cast hnat
    calc (n : ℚ) / d * 2 ^ e < 2 ^ ((m.log2 : Int) + 1) * 2 ^ e := mul_lt_mul_of_pos_right hlt hpos
      _ = 2 ^ ((m.log2 : Int) + 1 + e) := (zpow_add₀ (by norm_num) _ _).symm
      _ ≤ 2 ^ (max ((m.log2 : Int) + e - 52) (-1074) + 53) := two_zpow_le_iff.mpr (by omega)
  · by_cases hsmall : (m.log2 : Int) + e - 52 ≤ -1074
    · exact .inr (by omega)
    · have hmpos : m ≠ 0 := by
        rintro rfl
        simp only [Nat.log2_zero] at hleast hsmall
        omega
      have hle : (2 : ℚ) ^ (m.log2 : Int) ≤ n / d := by
        have hnat : 2 ^ m.log2 * d ≤ n := (Nat.le_div_iff_mul_le hd).mp (hm ▸ Nat.log2_self_le hmpos)
        rw [le_div_iff₀ hdq]
        exact_mod_cast hnat
      refine .inl ?_
      calc (2 : ℚ) ^ (max ((m.log2 : Int) + e - 52) (-1074) + 52) = 2 ^ (m.log2 + e : Int) := by congr 1; omega
        _ = 2 ^ (m.log2 : Int) * 2 ^ e := zpow_add₀ (by norm_num) _ _
        _ ≤ n / d * 2 ^ e := mul_le_mul_of_nonneg_right hle hpos.le

theorem roundWithAccuracy_rounds {a : Accuracy} (h : Extends (.ofMantissaAndAccuracy m a) n d) (hd : 0 < d)
    (hleast : e ≤ max (m.log2 + e - 52) (-1074)) :
    Rounds s (n / d * 2 ^ e) (roundWithAccuracy Format.binary64 s m e a) := by
  have hexponent : e + surplus m e = max (m.log2 + e - 52) (-1074) := by
    unfold surplus
    omega
  refine ⟨n, d * 2 ^ surplus m e, e + surplus m e, Nat.mul_pos hd (Nat.two_pow_pos _), ?_, ?_,
    roundWithAccuracy_eq h hd⟩
  · rw [zpow_add₀ (by norm_num), zpow_natCast]
    push_cast
    field_simp
  · rw [hexponent]
    exact fits_of_eq_div hd h.eq_div hleast

theorem round_rounds (hm : 0 < m) (e : Int) : Rounds s (m * 2 ^ e) (UnpackedFloat.round Format.binary64 s m e) := by
  unfold UnpackedFloat.round UnpackedFloat.decreaseExponent
  dsimp only
  rw [targetExponent_eq, Nat.shiftLeft_eq]
  generalize hshift : (e - max ((m.log2 : Int) + e - 52) (-1074)).toNat = k
  have hvalue : ((m * 2 ^ k : Nat) : ℚ) / (1 : Nat) * 2 ^ (e - k) = m * 2 ^ e := by
    rw [zpow_sub₀ (by norm_num), zpow_natCast]
    push_cast
    field_simp
  rw [← hvalue]
  refine roundWithAccuracy_rounds (extends_exact _) (by decide) ?_
  rw [log2_mul_two_pow hm.ne']
  push_cast
  omega

end RuleFlow.Number
