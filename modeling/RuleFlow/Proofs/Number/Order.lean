import Mathlib.Data.Int.Order.Basic
import Std.Data.ExtTreeMap.Lemmas

/-!
# The order of doubles

A double other than NaN has a place in a linear order (`place`), and doubles compare as their places do. NaN has no
place and is neither below nor above anything.
-/

namespace RuleFlow.Number

open Float.Model (UnpackedFloat)

/-- Where a number stands: by sign and kind, then by exponent and mantissa, which count downwards below zero. -/
def place : UnpackedFloat → Option (Int × Int × Int)
  | .notANumber => none
  | .infinity .negative => some (-2, 0, 0)
  | .finite .negative mantissa exponent _ => some (-1, -exponent, -mantissa)
  | .zero _ => some (0, 0, 0)
  | .finite .positive mantissa exponent _ => some (1, exponent, mantissa)
  | .infinity .positive => some (2, 0, 0)

def placeOrder : Int × Int × Int → Int × Int × Int → Ordering :=
  compareLex (compareOn fun p => p.1) (compareLex (compareOn fun p => p.2.1) (compareOn fun p => p.2.2))

instance : Std.TransCmp placeOrder :=
  inferInstanceAs (Std.TransCmp (compareLex (compareOn fun p : Int × Int × Int => p.1)
    (compareLex (compareOn fun p => p.2.1) (compareOn fun p => p.2.2))))

theorem placeOrder_of_fst (s e f m n : Int) : placeOrder (s, e, m) (s, f, n) = (compare e f).then (compare m n) := by
  simp [placeOrder, compareLex, compareOn]

theorem compare_neg (a b : Int) : compare (-a) (-b) = (compare a b).swap := by
  rw [← Std.OrientedOrd.eq_swap]
  simp only [compare, compareOfLessAndEq]
  grind

theorem compare_natCast (m n : Nat) : compare (m : Int) (n : Int) = compare m n := by
  simp only [compare, compareOfLessAndEq]
  grind

theorem compare_eq_placeOrder (x y : UnpackedFloat) :
    x.compare y = (place x).bind fun p => (place y).map (placeOrder p) := by
  rcases x with (_ | _) | _ | (_ | _) | ⟨_ | _, m, e, hm⟩ <;>
    rcases y with (_ | _) | _ | (_ | _) | ⟨_ | _, n, f, hn⟩ <;>
    try rfl
  -- what is left are two finite numbers of the same sign
  · apply congrArg some
    rw [placeOrder_of_fst, compare_neg, compare_neg, compare_natCast, Ordering.swap_then]
  · apply congrArg some
    rw [placeOrder_of_fst, compare_natCast]

variable {x y z : Float}

theorem lt_iff_place : x < y ↔ ∃ p q, place x.toModel.unpack = some p ∧ place y.toModel.unpack = some q ∧
    placeOrder p q = .lt := by
  have hlt : x < y ↔ x.toModel.unpack.compare y.toModel.unpack = some .lt :=
    (decide_eq_true_iff (p := x.toModel < y.toModel)).trans beq_iff_eq
  rw [hlt, compare_eq_placeOrder]
  simp [Option.bind_eq_some_iff]

theorem le_iff_place : x ≤ y ↔ ∃ p q, place x.toModel.unpack = some p ∧ place y.toModel.unpack = some q ∧
    (placeOrder p q).isLE := by
  have hle : x ≤ y ↔ (x.toModel.unpack.compare y.toModel.unpack).any (·.isLE) :=
    decide_eq_true_iff (p := x.toModel ≤ y.toModel)
  rw [hle, compare_eq_placeOrder]
  cases place x.toModel.unpack <;> cases place y.toModel.unpack <;> simp

/-- What is below something is a number. -/
theorem isNaN_of_le (h : x ≤ y) : x.isNaN = false := by
  obtain ⟨p, -, hp, -⟩ := le_iff_place.mp h
  show x.toModel.unpack.isNaN = false
  cases hx : x.toModel.unpack with
  | notANumber =>
      rw [hx] at hp
      cases hp
  | infinity | zero | finite => rfl

theorem lt_trans (hxy : x < y) (hyz : y < z) : x < z := by
  obtain ⟨p, q, hp, hq, hpq⟩ := lt_iff_place.mp hxy
  obtain ⟨q', r, hq', hr, hqr⟩ := lt_iff_place.mp hyz
  cases hq.symm.trans hq'
  exact lt_iff_place.mpr ⟨p, r, hp, hr, Std.TransCmp.lt_trans hpq hqr⟩

theorem le_of_lt (hxy : x < y) : x ≤ y := by
  obtain ⟨p, q, hp, hq, hpq⟩ := lt_iff_place.mp hxy
  exact le_iff_place.mpr ⟨p, q, hp, hq, by rw [hpq]; rfl⟩

theorem not_le_of_lt (hxy : x < y) : ¬ y ≤ x := by
  intro hyx
  obtain ⟨p, q, hp, hq, hpq⟩ := lt_iff_place.mp hxy
  obtain ⟨q', p', hq', hp', hqp⟩ := le_iff_place.mp hyx
  cases hp.symm.trans hp'
  cases hq.symm.trans hq'
  simp [Std.OrientedCmp.gt_of_lt hpq] at hqp

end RuleFlow.Number
