import Mathlib.Tactic.Ring
import RuleFlow.Number.Binary

/-!
# The parts of a double

The kinds of doubles and the sign, mantissa and exponent of finite ones, as they are read off the bits. A finite double
is `Canonical`: its mantissa has 53 bits unless its exponent is the least one. A number in this form becomes the double
with the same parts.
-/

namespace RuleFlow.Number

open Float.Model (UnpackedFloat Format)
open Float.Model.UnpackedFloat (Sign unpackSign unpackExponent unpackMantissa packComponents
  unpackExponent_packComponents unpackMantissa_packComponents)

/-! ## Reading the bits -/

def isNegative : Sign → Bool
  | .negative => true
  | .positive => false

/-- What an unpacked double stands for. -/
def binaryOf : UnpackedFloat → Binary
  | .notANumber => .nan
  | .infinity s => .infinite (isNegative s)
  | .zero s => .finite (isNegative s) 0 (-1074)
  | .finite s mantissa exponent _ => .finite (isNegative s) mantissa exponent

theorem binaryOf_infinity (s : Sign) : binaryOf (.infinity s) = .infinite (isNegative s) := rfl

theorem binaryOf_zero (s : Sign) : binaryOf (.zero s) = .finite (isNegative s) 0 (-1074) := rfl

theorem binaryOf_finite (s : Sign) (m : Nat) (e : Int) (hm : 0 < m) :
    binaryOf (.finite s m e hm) = .finite (isNegative s) m e := rfl

/-- The mantissa and the exponent of a finite double. -/
structure Canonical (mantissa : Nat) (exponent : Int) : Prop where
  bits : mantissa < 2 ^ 53
  least : -1074 ≤ exponent
  most : exponent ≤ 971
  normal : 2 ^ 52 ≤ mantissa ∨ exponent = -1074

section Bits

variable (bits : BitVec Format.binary64.numBits)

theorem toNat_unpackExponent : (unpackExponent bits).toNat = (bits.toNat >>> 52) % 2048 := rfl

theorem toNat_unpackMantissa : (unpackMantissa bits).toNat = bits.toNat % Binary.hiddenBit := rfl

theorem isNegative_unpackSign : isNegative (.ofBitVec (unpackSign bits)) = (bits.toNat >>> 63 == 1) := by
  have hsign : (unpackSign bits).toNat = (bits.toNat >>> 63) % 2 := rfl
  have hsmall : bits.toNat >>> 63 < 2 := by
    rw [Nat.shiftRight_eq_div_pow]
    exact Nat.div_lt_of_lt_mul bits.isLt
  rw [Nat.mod_eq_of_lt hsmall] at hsign
  unfold Sign.ofBitVec
  split
  · rename_i hzero
    rw [hzero] at hsign
    simp [← hsign, isNegative]
  · rename_i hone
    have hne : bits.toNat >>> 63 ≠ 0 := fun h => hone (BitVec.eq_of_toNat_eq (hsign.trans h))
    have heq : bits.toNat >>> 63 = 1 := by omega
    simp [heq, isNegative]

theorem toNat_hiddenBit_append :
    (1#1 ++ unpackMantissa bits).toNat = bits.toNat % Binary.hiddenBit + Binary.hiddenBit := by
  have hlt : (unpackMantissa bits).toNat < 2 ^ 52 := (unpackMantissa bits).isLt
  rw [BitVec.toNat_append, ← Nat.shiftLeft_add_eq_or_of_lt hlt, toNat_unpackMantissa, Nat.add_comm]
  rfl

theorem unpackExponent_eq_iff {n : Nat} (hn : n < 2048) :
    unpackExponent bits = BitVec.ofNat 11 n ↔ bits.toNat >>> 52 % 2048 = n := by
  have hmod : (BitVec.ofNat 11 n).toNat = n := Nat.mod_eq_of_lt hn
  rw [← toNat_unpackExponent, ← BitVec.toNat_inj, hmod]

theorem unpackMantissa_eq_zero_iff : unpackMantissa bits = 0#52 ↔ bits.toNat % Binary.hiddenBit = 0 := by
  rw [← toNat_unpackMantissa, ← BitVec.toNat_inj, BitVec.toNat_ofNat, Nat.zero_mod]

end Bits

theorem ofFloat_eq (x : Float) : Binary.ofFloat x = binaryOf x.toModel.unpack := by
  have hbits : x.toBits.toNat = x.toModel.toBits.toBitVec.toNat := rfl
  unfold Binary.ofFloat Float.Model.unpack UnpackedFloat.unpack
  dsimp only
  rw [hbits]
  generalize x.toModel.toBits.toBitVec = bits
  have hspecial : @unpackExponent Format.binary64 bits = -1#11 ↔ _ := unpackExponent_eq_iff bits (n := 2047) (by decide)
  have hleast := unpackExponent_eq_iff bits (n := 0) (by decide)
  have hzero := unpackMantissa_eq_zero_iff bits
  by_cases hexponent : bits.toNat >>> 52 % 2048 = 2047
  · rw [if_pos hexponent, if_pos (hspecial.mpr hexponent)]
    by_cases hmantissa : bits.toNat % Binary.hiddenBit = 0
    · rw [if_pos hmantissa, if_pos (hzero.mpr hmantissa), binaryOf_infinity, isNegative_unpackSign]
    · rw [if_neg hmantissa, if_neg (mt hzero.mp hmantissa)]
      rfl
  · rw [if_neg hexponent, if_neg (mt hspecial.mp hexponent)]
    by_cases hsubnormal : bits.toNat >>> 52 % 2048 = 0
    · rw [if_pos hsubnormal, if_pos (hleast.mpr hsubnormal)]
      by_cases hmantissa : bits.toNat % Binary.hiddenBit = 0
      · rw [dif_pos (hzero.mpr hmantissa), hmantissa, binaryOf_zero, isNegative_unpackSign]
      · rw [dif_neg (mt hzero.mp hmantissa), binaryOf_finite, isNegative_unpackSign, toNat_unpackMantissa,
          hleast.mpr hsubnormal]
        rfl
    · rw [if_neg hsubnormal, if_neg (mt hleast.mp hsubnormal), binaryOf_finite, isNegative_unpackSign,
        toNat_hiddenBit_append,
        toNat_unpackExponent]
      rfl

/-- The finite doubles are those with a mantissa and an exponent. -/
theorem isFinite_iff (x : Float) : x.isFinite ↔ ∃ negative m e, Binary.ofFloat x = .finite negative m e := by
  have hunpack : x.isFinite = x.toModel.unpack.isFinite := rfl
  rw [hunpack, ofFloat_eq]
  cases x.toModel.unpack with
  | notANumber => exact iff_of_false Bool.false_ne_true (by rintro ⟨_, _, _, ⟨⟩⟩)
  | infinity s => exact iff_of_false Bool.false_ne_true (by rintro ⟨_, _, _, ⟨⟩⟩)
  | zero s => exact iff_of_true rfl ⟨_, _, _, rfl⟩
  | finite s m e hm => exact iff_of_true rfl ⟨_, _, _, rfl⟩

theorem canonical_of_ofFloat {x : Float} {negative : Bool} {m : Nat} {e : Int}
    (h : Binary.ofFloat x = .finite negative m e) : Canonical m e := by
  unfold Binary.ofFloat at h
  dsimp only at h
  have hfraction : x.toBits.toNat % Binary.hiddenBit < 2 ^ 52 := Nat.mod_lt _ (by decide)
  have hhidden : Binary.hiddenBit = 2 ^ 52 := rfl
  have hbiased : x.toBits.toNat >>> 52 % 2048 < 2048 := Nat.mod_lt _ (by decide)
  split at h
  · split at h <;> cases h
  · split at h
    · cases h
      exact ⟨by omega, by omega, by omega, .inr rfl⟩
    · cases h
      exact ⟨by omega, by omega, by omega, .inl (by omega)⟩

/-! ## Writing the bits -/

theorem isFinite_unpack_iff (bits : BitVec Format.binary64.numBits) :
    (UnpackedFloat.unpack Format.binary64 bits).isFinite ↔ unpackExponent bits ≠ -1#11 := by
  unfold UnpackedFloat.unpack
  dsimp only
  by_cases hspecial : unpackExponent bits = -1#11
  · rw [if_pos hspecial]
    refine iff_of_false ?_ (not_not_intro hspecial)
    split <;> exact Bool.false_ne_true
  · rw [if_neg hspecial]
    refine iff_of_true ?_ hspecial
    by_cases hsubnormal : unpackExponent bits = 0#11
    · rw [if_pos hsubnormal]
      by_cases hmantissa : unpackMantissa bits = 0#52
      · rw [dif_pos hmantissa]
        rfl
      · rw [dif_neg hmantissa]
        rfl
    · rw [if_neg hsubnormal]
      rfl

/-- A number is packed to a finite double exactly if its exponent is not too large. -/
theorem isFinite_pack_iff {s : Sign} {m : Nat} {e : Int} {hm : 0 < m} :
    (Float.Model.pack (.finite s m e hm)).isFinite ↔ e ≤ 971 := by
  have hisFinite := isFinite_unpack_iff (UnpackedFloat.pack Format.binary64 (.finite s m e hm))
  refine hisFinite.trans ?_
  have hoverflow : 2 ^ Format.binary64.exponentBits ≤
      (e + Format.binary64.exponentBias + Format.binary64.mantissaBitsWithoutImplicit).toNat + 1 ↔ ¬ e ≤ 971 := by
    show 2048 ≤ (e + 1023 + 52).toNat + 1 ↔ _
    omega
  unfold UnpackedFloat.pack
  dsimp only
  by_cases hmost : e ≤ 971
  · rw [if_neg (fun h => hoverflow.mp h hmost)]
    refine iff_of_true ?_ hmost
    split
    · rw [unpackExponent_packComponents]
      intro heq
      have hfield := congrArg BitVec.toNat heq
      change (e + 1023 + 52).toNat % 2048 = 2047 at hfield
      omega
    · rw [unpackExponent_packComponents]
      decide
  · rw [if_pos (hoverflow.mpr hmost), UnpackedFloat.packedInfinity, unpackExponent_packComponents]
    exact iff_of_false (fun h => h rfl) hmost

theorem unpackSign_packComponents (s : Sign) (exponent : BitVec 11) (mantissa : BitVec 52) :
    Sign.ofBitVec (unpackSign (packComponents Format.binary64 s exponent mantissa)) = s := by
  have hfield : unpackSign (packComponents Format.binary64 s exponent mantissa) = s.toBitVec := by
    show (s.toBitVec ++ exponent ++ mantissa).extractLsb' 63 1 = s.toBitVec
    rw [BitVec.extractLsb'_append_eq_of_le (by decide), BitVec.extractLsb'_append_eq_of_le (by decide)]
    cases s <;> rfl
  rw [hfield]
  cases s <;> rfl

theorem unpack_of_normal {bits : BitVec Format.binary64.numBits} (hspecial : unpackExponent bits ≠ -1#11)
    (hsubnormal : unpackExponent bits ≠ 0#11) :
    UnpackedFloat.unpack Format.binary64 bits = .finite (.ofBitVec (unpackSign bits)) (1#1 ++ unpackMantissa bits).toNat
      ((unpackExponent bits).toNat - 1075) (by rw [toNat_hiddenBit_append]; exact Nat.add_pos_right _ (by decide)) := by
  unfold UnpackedFloat.unpack
  dsimp only
  rw [if_neg hspecial, if_neg hsubnormal]
  rfl

theorem unpack_of_subnormal {bits : BitVec Format.binary64.numBits} (hsubnormal : unpackExponent bits = 0#11)
    (hmantissa : 0 < (unpackMantissa bits).toNat) :
    UnpackedFloat.unpack Format.binary64 bits =
      .finite (.ofBitVec (unpackSign bits)) (unpackMantissa bits).toNat (-1074) hmantissa := by
  have hzero : unpackMantissa bits ≠ 0#52 := by
    intro h
    rw [h] at hmantissa
    exact absurd hmantissa (by decide)
  unfold UnpackedFloat.unpack
  dsimp only
  rw [hsubnormal, if_neg (by decide), if_pos rfl, dif_neg hzero]
  rfl

theorem unpack_pack_of_normal {s : Sign} {m : Nat} {e : Int} {hm : 0 < m} (h : Canonical m e) (hnormal : 2 ^ 52 ≤ m) :
    (Float.Model.pack (.finite s m e hm)).unpack = .finite s m e hm := by
  obtain ⟨hbits, hleast, hmost, -⟩ := h
  have hlog : m.log2 = 52 := (Nat.log2_eq_iff (by omega)).mpr ⟨hnormal, hbits⟩
  have hbiased : (e + Format.binary64.exponentBias + Format.binary64.mantissaBitsWithoutImplicit).toNat =
      (e + 1075).toNat := by
    show (e + 1023 + 52).toNat = _
    omega
  have hpack : UnpackedFloat.pack Format.binary64 (.finite s m e hm) =
      packComponents Format.binary64 s (BitVec.ofNat 11 (e + 1075).toNat) (BitVec.ofNat 52 m) := by
    unfold UnpackedFloat.pack
    dsimp only
    rw [hbiased, hlog, if_neg (by show ¬ 2048 ≤ _; omega),
      if_pos (show 52 + 1 = Format.binary64.mantissaBits from rfl)]
  generalize hexponent : BitVec.ofNat 11 (e + 1075).toNat = exponent at hpack
  have hvalue : exponent.toNat = (e + 1075).toNat := hexponent ▸ Nat.mod_eq_of_lt (by omega)
  have hspecial : exponent ≠ -1#11 := by
    rintro rfl
    have hfield : (2047 : Nat) = (e + 1075).toNat := hvalue
    omega
  have hsubnormal : exponent ≠ 0#11 := by
    rintro rfl
    have hfield : 0 = (e + 1075).toNat := hvalue
    omega
  have hmantissa : (1#1 ++ BitVec.ofNat 52 m).toNat = m := by
    have hfraction : (BitVec.ofNat 52 m).toNat = m % 2 ^ 52 := rfl
    have hhidden : (1#1).toNat <<< 52 = 2 ^ 52 := rfl
    rw [BitVec.toNat_append, ← Nat.shiftLeft_add_eq_or_of_lt (BitVec.isLt _), hfraction, hhidden]
    omega
  show UnpackedFloat.unpack Format.binary64 (UnpackedFloat.pack Format.binary64 (.finite s m e hm)) = _
  rw [hpack, unpack_of_normal (by rwa [unpackExponent_packComponents]) (by rwa [unpackExponent_packComponents]),
    UnpackedFloat.finite.injEq, unpackExponent_packComponents, unpackMantissa_packComponents, unpackSign_packComponents]
  exact ⟨rfl, hmantissa, by omega⟩

theorem unpack_pack_of_subnormal {s : Sign} {m : Nat} {hm : 0 < m} (h : m < 2 ^ 52) :
    (Float.Model.pack (.finite s m (-1074) hm)).unpack = .finite s m (-1074) hm := by
  have hlog : m.log2 + 1 ≠ Format.binary64.mantissaBits := by
    have hlt : m.log2 < 52 := (Nat.log2_lt (by omega)).mpr h
    show m.log2 + 1 ≠ 53
    omega
  have hpack : UnpackedFloat.pack Format.binary64 (.finite s m (-1074) hm) =
      packComponents Format.binary64 s 0#11 (BitVec.ofNat 52 m) := by
    unfold UnpackedFloat.pack
    dsimp only
    rw [if_neg (by decide), if_neg hlog]
  have hmantissa : (BitVec.ofNat 52 m).toNat = m := Nat.mod_eq_of_lt h
  show UnpackedFloat.unpack Format.binary64 (UnpackedFloat.pack Format.binary64 (.finite s m (-1074) hm)) = _
  rw [hpack,
    unpack_of_subnormal (by rw [unpackExponent_packComponents]) (by rwa [unpackMantissa_packComponents, hmantissa]),
    UnpackedFloat.finite.injEq, unpackMantissa_packComponents, unpackSign_packComponents]
  exact ⟨rfl, hmantissa, rfl⟩

/-- The parts of a double are packed without loss. -/
theorem unpack_pack {s : Sign} {m : Nat} {e : Int} {hm : 0 < m} (h : Canonical m e) :
    (Float.Model.pack (.finite s m e hm)).unpack = .finite s m e hm := by
  rcases Nat.lt_or_ge m (2 ^ 52) with hsubnormal | hnormal
  · obtain rfl := h.normal.resolve_left (by omega)
    exact unpack_pack_of_subnormal hsubnormal
  · exact unpack_pack_of_normal h hnormal

end RuleFlow.Number
