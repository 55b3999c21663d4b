import RuleFlow.Proofs.Number.Bounds

/-!
# Natural numbers as doubles

A natural number of up to 53 bits is a double, and any other but zero is rounded to one that is at least one.
-/

namespace RuleFlow.Number

open Float.Model (UnpackedFloat Format totalExponent)
open Float.Model.UnpackedFloat (Sign roundWithAccuracy)

variable {n m : Nat} {e : Int} {s : Sign}

theorem log2_mul_two_pow (hm : m ≠ 0) (j : Nat) : (m * 2 ^ j).log2 = m.log2 + j := by
  refine (Nat.log2_eq_iff (Nat.mul_ne_zero hm (Nat.two_pow_pos j).ne')).mpr ⟨?_, ?_⟩
  · rw [Nat.pow_add]
    exact Nat.mul_le_mul_right _ (Nat.log2_self_le hm)
  · rw [Nat.add_right_comm, Nat.pow_add]
    exact Nat.mul_lt_mul_of_pos_right Nat.lt_log2_self (Nat.two_pow_pos j)

/-- A mantissa of 53 bits with zeros behind it is kept. -/
theorem roundWithAccuracy_of_canonical (h : Canonical m e) (hnormal : 2 ^ 52 ≤ m) (j : Nat) :
    roundWithAccuracy Format.binary64 s (m * 2 ^ j) (e - j) .exact = .finite s m e (by omega) := by
  have hlog : m.log2 = 52 := (Nat.log2_eq_iff (by omega)).mpr ⟨hnormal, h.bits⟩
  have hleast := h.least
  have hsurplus : surplus (m * 2 ^ j) (e - j) = j := by
    rw [surplus, log2_mul_two_pow (by omega), hlog]
    push_cast
    omega
  rw [roundWithAccuracy_eq (extends_exact _) (by decide), hsurplus, Nat.one_mul, roundDiv_mul (Nat.two_pow_pos j),
    settle_of_lt (by omega) h.bits]
  congr 1
  omega

/-- The exponent of the double of a natural number is negative or zero. -/
theorem canonical_of_lt (hpos : 0 < n) (hn : n < 2 ^ 53) :
    Canonical (n * 2 ^ (52 - n.log2)) (n.log2 - 52) ∧ 2 ^ 52 ≤ n * 2 ^ (52 - n.log2) := by
  have hlog : n.log2 ≤ 52 := Nat.le_of_lt_succ ((Nat.log2_lt (by omega)).mpr hn)
  have hfull := log2_mul_two_pow (m := n) (by omega) (52 - n.log2)
  rw [Nat.add_sub_cancel' hlog, Nat.log2_eq_iff (Nat.mul_ne_zero (by omega) (Nat.two_pow_pos _).ne')] at hfull
  exact ⟨⟨hfull.2, by omega, by omega, .inl hfull.1⟩, hfull.1⟩

/-- Zeros behind the point are cut off or added until there are 53 bits. -/
theorem normalize_of_lt (hpos : 0 < n) (hn : n < 2 ^ 53) (j : Nat) :
    UnpackedFloat.normalize Format.binary64 (n * 2 ^ j : Nat) (-j) s =
      .finite .positive (n * 2 ^ (52 - n.log2)) (n.log2 - 52) (by have := (canonical_of_lt hpos hn).2; omega) := by
  obtain ⟨hcanonical, hnormal⟩ := canonical_of_lt hpos hn
  have hlog : n.log2 ≤ 52 := Nat.le_of_lt_succ ((Nat.log2_lt (by omega)).mpr hn)
  have hcompare : compare ((n * 2 ^ j : Nat) : Int) 0 = .gt :=
    Int.compare_eq_gt.mpr (Int.natCast_pos.mpr (Nat.mul_pos hpos (Nat.two_pow_pos j)))
  have hshift : (-(j : Int) - max (((n.log2 + j : Nat) : Int) + -j - 52) (-1074)).toNat = 52 - n.log2 - j := by omega
  have hmantissa : n * 2 ^ j * 2 ^ (52 - n.log2 - j) = n * 2 ^ (52 - n.log2) * 2 ^ (j - (52 - n.log2)) := by
    rw [Nat.mul_assoc, Nat.mul_assoc, ← Nat.pow_add, ← Nat.pow_add]
    congr 2
    omega
  have hexponent : -(j : Int) - (52 - n.log2 - j : Nat) = n.log2 - 52 - (j - (52 - n.log2) : Nat) := by omega
  unfold UnpackedFloat.normalize
  rw [hcompare]
  dsimp only
  unfold UnpackedFloat.round UnpackedFloat.decreaseExponent
  dsimp only
  rw [Int.toNat_natCast, targetExponent_eq, log2_mul_two_pow (by omega), hshift, Nat.shiftLeft_eq, hmantissa, hexponent]
  exact roundWithAccuracy_of_canonical hcanonical hnormal _

/-- A natural number of up to 53 bits is not rounded. -/
theorem toFloat_eq (hpos : 0 < n) (hn : n < 2 ^ 53) : n.toFloat = Float.ofModel (Float.Model.pack
    (.finite .positive (n * 2 ^ (52 - n.log2)) (n.log2 - 52) (by have := (canonical_of_lt hpos hn).2; omega))) := by
  obtain ⟨hcanonical, hnormal⟩ := canonical_of_lt hpos hn
  have hpack : (Float.Model.pack (.finite .positive (n * 2 ^ (52 - n.log2)) (n.log2 - 52) (by omega))).unpack = _ :=
    unpack_pack hcanonical
  have hword : n.toUInt64.toFloat.toModel.unpack =
      .finite .positive (n * 2 ^ (52 - n.log2)) (n.log2 - 52) (by omega) := by
    have hvalue : n.toUInt64.toNat = n := Nat.mod_eq_of_lt (by omega)
    have hnormalize := normalize_of_lt (s := .positive) hpos hn 0
    rw [Nat.pow_zero, Nat.mul_one] at hnormalize
    show (Float.Model.pack (UnpackedFloat.normalize Format.binary64 (n.toUInt64.toNat : Nat) 0 .positive)).unpack = _
    rw [hvalue]
    exact (congrArg (fun u => (Float.Model.pack u).unpack) hnormalize).trans hpack
  have hone : (1 : Float).toModel.unpack = .finite .positive (2 ^ 52) (-52) (by decide) := rfl
  have hround := roundWithAccuracy_of_canonical (s := .positive) hcanonical hnormal 52
  -- a numeral is read as the word times the power ten to the zero
  show Float.ofScientific n false 0 = _
  unfold Float.ofScientific
  rw [dif_pos ⟨hn, by decide⟩]
  show Float.ofModel (Float.Model.pack
    (UnpackedFloat.mul Format.binary64 n.toUInt64.toFloat.toModel.unpack (1 : Float).toModel.unpack)) = _
  rw [hword, hone]
  show Float.ofModel (Float.Model.pack (roundWithAccuracy Format.binary64 (.positive * .positive) _ _ .exact)) = _
  exact congrArg (fun u => Float.ofModel (Float.Model.pack u)) hround

theorem unpack_toFloat (hpos : 0 < n) (hn : n < 2 ^ 53) : n.toFloat.toModel.unpack =
    .finite .positive (n * 2 ^ (52 - n.log2)) (n.log2 - 52) (by have := (canonical_of_lt hpos hn).2; omega) := by
  obtain ⟨hcanonical, hnormal⟩ := canonical_of_lt hpos hn
  rw [toFloat_eq hpos hn]
  exact unpack_pack hcanonical

/-- The number of a double that is read as a natural number of up to 53 bits. -/
theorem ofFloat_toFloat (hpos : 0 < n) (hn : n < 2 ^ 53) :
    Binary.ofFloat n.toFloat = .finite false (n * 2 ^ (52 - n.log2)) (n.log2 - 52) := by
  rw [ofFloat_eq, unpack_toFloat hpos hn]
  rfl

/-! ## Counting -/

theorem isFinite_toFloat (hn : n < 2 ^ 53) : n.toFloat.isFinite := by
  by_cases hzero : n = 0
  · subst hzero
    decide
  · exact (isFinite_iff _).mpr ⟨_, _, _, ofFloat_toFloat (Nat.pos_of_ne_zero hzero) hn⟩

/-- Counting in doubles is exact up to 53 bits. -/
theorem toFloat_add_one (hn : n + 1 < 2 ^ 53) : n.toFloat + 1 = (n + 1).toFloat := by
  by_cases hzero : n = 0
  · subst hzero
    rfl
  · have hpos : 0 < n := Nat.pos_of_ne_zero hzero
    have hlog : n.log2 ≤ 52 := Nat.le_of_lt_succ ((Nat.log2_lt hzero).mpr (by omega))
    have hone : (1 : Float).toModel.unpack = .finite .positive (2 ^ 52) (-52) (by decide) := rfl
    show Float.ofModel
      (Float.Model.pack (UnpackedFloat.add Format.binary64 n.toFloat.toModel.unpack (1 : Float).toModel.unpack)) = _
    rw [unpack_toFloat hpos (by omega), hone, toFloat_eq (by omega) hn]
    unfold UnpackedFloat.add
    dsimp only
    -- the mantissas are added for the exponent of one, where 52 zeros follow each number
    have hleast : min ((n.log2 : Int) - 52) (-52) = -52 := by omega
    have hshift : ((n.log2 : Int) - 52 - -52).toNat = n.log2 := by omega
    have hsum : Sign.positive.apply (n * 2 ^ (52 - n.log2) * 2 ^ n.log2 : Nat) +
        Sign.positive.apply (2 ^ 52 * 2 ^ 0 : Nat) = ((n + 1) * 2 ^ 52 : Nat) := by
      rw [Nat.mul_assoc, ← Nat.pow_add, Nat.sub_add_cancel hlog]
      simp only [Sign.apply]
      omega
    rw [hleast]
    unfold UnpackedFloat.decreaseExponent
    dsimp only
    rw [hshift, Nat.shiftLeft_eq, Nat.shiftLeft_eq]
    exact congrArg (fun u => Float.ofModel (Float.Model.pack u)) (hsum ▸ normalize_of_lt (by omega) hn 52)

/-! ## Large numbers -/

theorem one_le_of_unpack {x : Float} {hm : 0 < m} (h : x.toModel.unpack = .finite .positive m e hm)
    (hnormal : 2 ^ 52 ≤ m)
    (he : -52 ≤ e) : 1 ≤ x := by
  refine one_le_iff.mpr ⟨(1, e, m), by rw [h]; rfl, isLE_placeOrder.mpr ?_⟩
  omega

theorem one_le_of_unpack_infinity {x : Float} (h : x.toModel.unpack = .infinity .positive) : 1 ≤ x :=
  one_le_iff.mpr ⟨(2, 0, 0), by rw [h]; rfl, by decide⟩

theorem unpack_pack_of_lt {hm : 0 < m} (he : 971 < e) : (Float.Model.pack (.finite s m e hm)).unpack = .infinity s := by
  have hoverflow : 2 ^ Format.binary64.exponentBits ≤
      (e + Format.binary64.exponentBias + Format.binary64.mantissaBitsWithoutImplicit).toNat + 1 := by
    show 2048 ≤ (e + 1023 + 52).toNat + 1
    omega
  have hpack : UnpackedFloat.pack Format.binary64 (.finite s m e hm) =
      UnpackedFloat.packedInfinity Format.binary64 s := by
    unfold UnpackedFloat.pack
    exact if_pos hoverflow
  show UnpackedFloat.unpack Format.binary64 (UnpackedFloat.pack Format.binary64 (.finite s m e hm)) = _
  rw [hpack]
  cases s <;> rfl

theorem one_le_pack {hm : 0 < m} (hnormal : 2 ^ 52 ≤ m) (hbits : m < 2 ^ 53) (he : -52 ≤ e) :
    1 ≤ Float.ofModel (Float.Model.pack (.finite .positive m e hm)) := by
  by_cases hmost : e ≤ 971
  · exact one_le_of_unpack (unpack_pack ⟨hbits, by omega, hmost, .inl hnormal⟩) hnormal he
  · exact one_le_of_unpack_infinity (unpack_pack_of_lt (by omega))

theorem one_le_pack_settle (hnormal : 2 ^ 52 ≤ m) (he : -52 ≤ e) :
    1 ≤ Float.ofModel (Float.Model.pack (settle .positive m e)) := by
  rcases Nat.lt_or_ge m (2 ^ 53) with hm | hm
  · rw [settle_of_lt (by omega) hm]
    exact one_le_pack hnormal hm he
  · rw [settle_of_le hm]
    exact one_le_pack (Nat.le_refl _) (by decide) (by omega)

theorem toFloat_of_le (hn : 2 ^ 53 ≤ n) :
    n.toFloat = Float.ofModel (Float.Model.pack (UnpackedFloat.ofScientific Format.binary64 n 0)) := by
  have hlarge : ¬ (n < 2 ^ 53 ∧ 0 ≤ 22) := fun h => absurd h.1 (by omega)
  have hdecimal : Float.ofScientific n false 0 = Float.ofModel (Float.Model.ofScientific n 0) := by
    unfold Float.ofScientific
    rw [dif_neg hlarge]
    rfl
  exact hdecimal

theorem ofScientific_zero (hn : n ≠ 0) : UnpackedFloat.ofScientific Format.binary64 n 0 =
    roundWithAccuracy Format.binary64 .positive (n * 2 ^ 53) (-53) .exact := by
  have hsmall : ¬ (0 : Int) < -(2 ^ Format.binary64.exponentBits + n.log2) := by
    show ¬ (0 : Int) < -(2048 + n.log2)
    omega
  have hmantissa : n <<< Format.binary64.mantissaBits * 10 ^ (0 : Int).toNat = n * 2 ^ 53 := by
    rw [Nat.shiftLeft_eq]
    exact Nat.mul_one _
  unfold UnpackedFloat.ofScientific
  rw [dif_neg hn, if_neg (by decide), if_neg hsmall, if_pos (by decide), ← hmantissa]
  rfl

/-- A positive natural number is at least one also when it is rounded. -/
theorem one_le_toFloat (hpos : 0 < n) : 1 ≤ n.toFloat := by
  rcases Nat.lt_or_ge n (2 ^ 53) with hn | hn
  · exact one_le_of_unpack (unpack_toFloat hpos hn) (canonical_of_lt hpos hn).2 (by omega)
  · have hsurplus : surplus (n * 2 ^ 53) (-53) = n.log2 + 1 := by
      have hlog : 53 ≤ n.log2 := (Nat.le_log2 (by omega)).mpr hn
      rw [surplus, log2_mul_two_pow (by omega)]
      omega
    rw [toFloat_of_le hn, ofScientific_zero (by omega), roundWithAccuracy_eq (extends_exact _) (by decide), hsurplus]
    refine one_le_pack_settle (le_roundDiv (Nat.mul_pos (by decide) (Nat.two_pow_pos _)) ?_) (by omega)
    have hself := Nat.mul_le_mul_right (2 ^ 53) (Nat.log2_self_le (n := n) (by omega))
    rw [Nat.pow_succ]
    omega

end RuleFlow.Number
