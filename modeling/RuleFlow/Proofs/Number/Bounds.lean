import RuleFlow.Proofs.Number.Order
import RuleFlow.Proofs.Number.Rounding

/-!
# Bounds that keep doubles finite

A finite double stays finite when a number of the unit interval is added to it and when it is divided by a number that
is at least one.
-/

namespace RuleFlow.Number

open Float.Model (UnpackedFloat Format totalExponent)
open Float.Model.UnpackedFloat (Sign)

variable {x y : Float}

/-! ## Kinds of doubles -/

theorem canonical_of_unpack {s : Sign} {m : Nat} {e : Int} {hm : 0 < m} (h : x.toModel.unpack = .finite s m e hm) :
    Canonical m e := by
  have hfloat := ofFloat_eq x
  rw [h, binaryOf_finite] at hfloat
  exact canonical_of_ofFloat hfloat

theorem unpack_cases_of_isFinite (h : x.isFinite) :
    (∃ s, x.toModel.unpack = .zero s) ∨ ∃ s m e hm, x.toModel.unpack = .finite s m e hm ∧ Canonical m e := by
  have hunpack : x.toModel.unpack.isFinite := h
  cases hx : x.toModel.unpack with
  | notANumber =>
      rw [hx] at hunpack
      cases hunpack
  | infinity s =>
      rw [hx] at hunpack
      cases hunpack
  | zero s => exact .inl ⟨s, rfl⟩
  | finite s m e hm => exact .inr ⟨s, m, e, hm, rfl, canonical_of_unpack hx⟩

theorem isLE_placeOrder {s e m t f n : Int} :
    (placeOrder (s, e, m) (t, f, n)).isLE ↔ s < t ∨ s = t ∧ (e < f ∨ e = f ∧ m ≤ n) := by
  simp only [placeOrder, compareLex, compareOn, compare, compareOfLessAndEq]
  grind [Ordering.then, Ordering.isLE]

theorem place_zero : place (0 : Float).toModel.unpack = some (0, 0, 0) := rfl

theorem place_one : place (1 : Float).toModel.unpack = some (1, -52, 2 ^ 52) := rfl

theorem zero_le_iff : 0 ≤ x ↔ ∃ p, place x.toModel.unpack = some p ∧ (placeOrder (0, 0, 0) p).isLE := by
  simp [le_iff_place, place_zero]

theorem le_one_iff : x ≤ 1 ↔ ∃ p, place x.toModel.unpack = some p ∧ (placeOrder p (1, -52, 2 ^ 52)).isLE := by
  simp [le_iff_place, place_one]

theorem one_le_iff : 1 ≤ x ↔ ∃ p, place x.toModel.unpack = some p ∧ (placeOrder (1, -52, 2 ^ 52) p).isLE := by
  simp [le_iff_place, place_one]

/-- A number of the unit interval is zero or has a mantissa below its unit. -/
theorem unpack_cases_of_unit (hzero : 0 ≤ y) (hone : y ≤ 1) :
    (∃ s, y.toModel.unpack = .zero s) ∨
      ∃ m e hm, y.toModel.unpack = .finite .positive m e hm ∧ Canonical m e ∧ e ≤ 0 ∧ m ≤ 2 ^ (-e).toNat := by
  obtain ⟨p, hp, hlow⟩ := zero_le_iff.mp hzero
  obtain ⟨q, hq, hhigh⟩ := le_one_iff.mp hone
  cases hp.symm.trans hq
  cases hy : y.toModel.unpack with
  | notANumber =>
      rw [hy] at hp
      cases hp
  | infinity s =>
      rw [hy] at hp
      cases s with
      | negative =>
          cases hp
          simp [isLE_placeOrder] at hlow
      | positive =>
          cases hp
          simp [isLE_placeOrder] at hhigh
  | zero s => exact .inl ⟨s, rfl⟩
  | finite s m e hm =>
      cases s with
      | negative =>
          rw [hy] at hp
          cases hp
          simp [isLE_placeOrder] at hlow
      | positive =>
          have hcanonical := canonical_of_unpack hy
          rw [hy] at hp
          cases hp
          rw [isLE_placeOrder] at hhigh
          refine .inr ⟨m, e, hm, rfl, hcanonical, by omega, ?_⟩
          rcases hhigh with hsign | ⟨-, hless | ⟨rfl, hunit⟩⟩
          · omega
          · have hpow : 2 ^ 53 ≤ 2 ^ (-e).toNat := Nat.pow_le_pow_right (by decide) (by omega)
            exact Nat.le_of_lt (Nat.lt_of_lt_of_le hcanonical.bits hpow)
          · exact_mod_cast hunit

/-- A number that is at least one is infinite or has a mantissa above its unit. -/
theorem unpack_cases_of_one_le (h : 1 ≤ y) :
    y.toModel.unpack = .infinity .positive ∨
      ∃ m e hm, y.toModel.unpack = .finite .positive m e hm ∧ Canonical m e ∧ -52 ≤ e ∧ 2 ^ 52 ≤ m := by
  obtain ⟨p, hp, hlow⟩ := one_le_iff.mp h
  cases hy : y.toModel.unpack with
  | notANumber =>
      rw [hy] at hp
      cases hp
  | infinity s =>
      cases s with
      | negative =>
          rw [hy] at hp
          cases hp
          simp [isLE_placeOrder] at hlow
      | positive => exact .inl rfl
  | zero s =>
      rw [hy] at hp
      cases hp
      simp [isLE_placeOrder] at hlow
  | finite s m e hm =>
      cases s with
      | negative =>
          rw [hy] at hp
          cases hp
          simp [isLE_placeOrder] at hlow
      | positive =>
          have hcanonical := canonical_of_unpack hy
          rw [hy] at hp
          cases hp
          rw [isLE_placeOrder] at hlow
          have hnormal := hcanonical.normal
          exact .inr ⟨m, e, hm, rfl, hcanonical, by omega, by omega⟩

/-! ## Sums and quotients -/

theorem isFinite_pack_of_canonical {s : Sign} {m : Nat} {e : Int} {hm : 0 < m} (h : Canonical m e) :
    (Float.Model.pack (.finite s m e hm)).isFinite := isFinite_pack_iff.mpr h.most

theorem isFinite_pack_zero (s : Sign) : (Float.Model.pack (.zero s)).isFinite := by
  cases s <;> decide

/-- Adding a number of the unit interval leads to no infinity. -/
theorem isFinite_add (hx : x.isFinite) (hzero : 0 ≤ y) (hone : y ≤ 1) : (x + y).isFinite := by
  show (Float.Model.pack (UnpackedFloat.add Format.binary64 x.toModel.unpack y.toModel.unpack)).isFinite
  rcases unpack_cases_of_isFinite hx with ⟨s, hx⟩ | ⟨s, m, e, hm, hx, hcanonical⟩ <;>
    rcases unpack_cases_of_unit hzero hone with ⟨t, hy⟩ | ⟨n, f, hn, hy, hunit, hf, hsmall⟩ <;>
    rw [hx, hy] <;> unfold UnpackedFloat.add
  · dsimp only
    split <;> exact isFinite_pack_zero _
  · exact isFinite_pack_of_canonical hunit
  · exact isFinite_pack_of_canonical hcanonical
  · dsimp only
    -- both mantissas are written for the smaller exponent, where the one of the unit interval is small beside the
    -- largest double
    have hmin : min e f ≤ e ∧ min e f ≤ f := by omega
    generalize min e f = least at hmin ⊢
    unfold UnpackedFloat.decreaseExponent
    dsimp only
    have hmost := hcanonical.most
    apply isFinite_normalize (by omega)
    have hbits := hcanonical.bits
    have hlarge : m <<< (e - least).toNat ≤ (2 ^ 53 - 1) * 2 ^ (971 - least).toNat := by
      rw [Nat.shiftLeft_eq]
      exact Nat.mul_le_mul (by omega) (Nat.pow_le_pow_right (by decide) (by omega))
    have hlittle : n <<< (f - least).toNat ≤ 2 ^ (-least).toNat := by
      have hshift : (-least).toNat = (-f).toNat + (f - least).toNat := by omega
      rw [Nat.shiftLeft_eq, hshift, Nat.pow_add]
      exact Nat.mul_le_mul_right _ hsmall
    have hgap : 2 ^ 2 * 2 ^ (-least).toNat ≤ 2 ^ (971 - least).toNat := by
      rw [← Nat.pow_add]
      exact Nat.pow_le_pow_right (by decide) (by omega)
    have hpos : 0 < 2 ^ (-least).toNat := Nat.two_pow_pos _
    generalize m <<< (e - least).toNat = large at hlarge ⊢
    generalize n <<< (f - least).toNat = little at hlittle ⊢
    cases s <;> simp only [Sign.apply] <;> omega

/-- Dividing by a number that is at least one leads to no infinity. -/
theorem isFinite_div (hx : x.isFinite) (hy : 1 ≤ y) : (x / y).isFinite := by
  show (Float.Model.pack (UnpackedFloat.div Format.binary64 x.toModel.unpack y.toModel.unpack)).isFinite
  rcases unpack_cases_of_isFinite hx with ⟨s, hx⟩ | ⟨s, m, e, hm, hx, hcanonical⟩ <;>
    rcases unpack_cases_of_one_le hy with hy | ⟨n, f, hn, hy, hunit, hf, hlarge⟩ <;>
    rw [hx, hy] <;> unfold UnpackedFloat.div
  · exact isFinite_pack_zero _
  · exact isFinite_pack_zero _
  · exact isFinite_pack_zero _
  · unfold UnpackedFloat.divCore
    dsimp only
    have htarget : min (e - f) (Format.binary64.targetExponent (totalExponent m e - totalExponent n f)) ≤ 971 := by
      have hlow : m.log2 ≤ 52 := Nat.le_of_lt_succ ((Nat.log2_lt (by omega)).mpr hcanonical.bits)
      have hhigh : 52 ≤ n.log2 := (Nat.le_log2 (by omega)).mpr hlarge
      have hmost := hcanonical.most
      refine Int.le_trans (Int.min_le_right _ _) ?_
      show max ((m.log2 : Int) + 1 + e - (n.log2 + 1 + f) - 53) (-1074) ≤ 971
      omega
    have hmin := Int.min_le_left (e - f) (Format.binary64.targetExponent (totalExponent m e - totalExponent n f))
    generalize min (e - f) (Format.binary64.targetExponent (totalExponent m e - totalExponent n f)) = least
      at htarget hmin ⊢
    refine isFinite_roundWithAccuracy (extends_fraction _ hn) hn htarget ?_
    have hbits := hcanonical.bits
    have hmost := hcanonical.most
    have hshift : m <<< (e - f - least).toNat ≤ (2 ^ 53 - 1) * (n * 2 ^ (971 - least).toNat) := by
      rw [Nat.shiftLeft_eq]
      refine Nat.mul_le_mul (by omega) ?_
      calc 2 ^ (e - f - least).toNat ≤ 2 ^ (52 + (971 - least).toNat) := Nat.pow_le_pow_right (by decide) (by omega)
        _ = 2 ^ 52 * 2 ^ (971 - least).toNat := Nat.pow_add 2 _ _
        _ ≤ n * 2 ^ (971 - least).toNat := Nat.mul_le_mul_right _ hlarge
    have hpos : 0 < n * 2 ^ (971 - least).toNat := Nat.mul_pos hn (Nat.two_pow_pos _)
    omega

end RuleFlow.Number
