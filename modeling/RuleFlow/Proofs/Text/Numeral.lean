import Mathlib.Data.List.Induction
import Mathlib.Data.List.TakeDrop
import Mathlib.Tactic.Ring
import RuleFlow.Json.Reader
import RuleFlow.Number.Reader

/-!
# Decimal numerals

A numeral has digits only and starts with a zero only if it is that of zero. Its length tells the magnitude of the
number, and reading its digits gives the number back.
-/

namespace RuleFlow.Text

open RuleFlow.Json (isDigit)
open RuleFlow.Number (digitValue isDigitOf ofDigits splitSign splitBase readInt?)

variable {n k : Nat}

/-! ## Digits -/

/-- The digit of a number below ten. -/
def digit (n : Nat) : UInt8 := (48 + n).toUInt8

theorem isDigit_digit (h : n < 10) : isDigit (digit n) := by
  have hall : ∀ n : Fin 10, isDigit (digit n) := by decide
  exact hall ⟨n, h⟩

theorem digitValue_digit (h : n < 10) : digitValue (digit n) = some n := by
  have hall : ∀ n : Fin 10, digitValue (digit n) = some n.val := by decide
  exact hall ⟨n, h⟩

theorem digit_ne_zero (h : n < 10) (hn : n ≠ 0) : digit n ≠ 48 := by
  have hall : ∀ n : Fin 10, n.val ≠ 0 → digit n ≠ 48 := by decide
  exact hall ⟨n, h⟩ hn

/-! ## Numerals -/

theorem ofNat_of_lt (h : n < 10) : ofNat n = [digit n] := by
  rw [ofNat, Nat.toDigits_of_lt_base h, List.map_singleton, Nat.toNat_digitChar_of_lt_ten h]
  rfl

theorem ofNat_of_le (h : 10 ≤ n) : ofNat n = ofNat (n / 10) ++ [digit (n % 10)] := by
  rw [ofNat, Nat.toDigits_of_base_le (by decide) h, List.map_append, List.map_singleton,
    Nat.toNat_digitChar_of_lt_ten (Nat.mod_lt _ (by decide))]
  rfl

theorem length_ofNat_le_iff (hk : 0 < k) : (ofNat n).length ≤ k ↔ n < 10 ^ k := by
  rw [ofNat, List.length_map, Nat.length_toDigits_le_iff (by decide) hk]

theorem ofNat_ne_nil (n : Nat) : ofNat n ≠ [] := by
  simp [ofNat, Nat.toDigits_ne_nil]

theorem isDigit_of_mem_ofNat {b : UInt8} (h : b ∈ ofNat n) : isDigit b := by
  induction n using Nat.strongRecOn with
  | ind n ih =>
      rcases Nat.lt_or_ge n 10 with hn | hn
      · rw [ofNat_of_lt hn, List.mem_singleton] at h
        exact h ▸ isDigit_digit hn
      · rw [ofNat_of_le hn, List.mem_append, List.mem_singleton] at h
        rcases h with h | rfl
        · exact ih (n / 10) (by omega) h
        · exact isDigit_digit (Nat.mod_lt _ (by decide))

theorem head?_ofNat (h : n ≠ 0) : (ofNat n).head? ≠ some 48 := by
  induction n using Nat.strongRecOn with
  | ind n ih =>
      rcases Nat.lt_or_ge n 10 with hn | hn
      · rw [ofNat_of_lt hn]
        simpa using digit_ne_zero hn h
      · have hrest := ih (n / 10) (by omega) (by omega)
        rw [ofNat_of_le hn]
        cases hdigits : ofNat (n / 10) with
        | nil => exact absurd hdigits (ofNat_ne_nil _)
        | cons b bs => simpa [hdigits] using hrest

theorem ofDigits_ofNat (n : Nat) : ofDigits 10 (ofNat n) = n := by
  induction n using Nat.strongRecOn with
  | ind n ih =>
      rcases Nat.lt_or_ge n 10 with hn | hn
      · simp [ofNat_of_lt hn, ofDigits, digitValue_digit hn]
      · have hrest := ih (n / 10) (by omega)
        rw [ofDigits] at hrest ⊢
        rw [ofNat_of_le hn, List.foldl_append, hrest]
        simp only [List.foldl_cons, List.foldl_nil, digitValue_digit (Nat.mod_lt n (by decide)), Option.getD_some]
        omega

theorem ofDigits_concat (t : Text) (b : UInt8) :
    ofDigits 10 (t ++ [b]) = ofDigits 10 t * 10 + (digitValue b).getD 0 := by
  simp [ofDigits]

theorem ofDigits_append (s t : Text) : ofDigits 10 (s ++ t) = ofDigits 10 s * 10 ^ t.length + ofDigits 10 t := by
  induction t using List.reverseRecOn with
  | nil => simp [ofDigits]
  | append_singleton t b ih =>
      rw [← List.append_assoc, ofDigits_concat, ofDigits_concat, ih, List.length_append, List.length_singleton,
        Nat.pow_succ]
      ring

theorem ofDigits_replicate_zero (k : Nat) : ofDigits 10 (List.replicate k 48) = 0 := by
  induction k with
  | zero => rfl
  | succ k ih =>
      rw [List.replicate_succ', ofDigits_append, ih]
      rfl

/-- A factor ten adds a zero. -/
theorem ofNat_mul_pow (hn : n ≠ 0) (k : Nat) : ofNat (n * 10 ^ k) = ofNat n ++ List.replicate k 48 := by
  induction k with
  | zero => simp
  | succ k ih =>
      have hpos : 0 < n * 10 ^ k := Nat.mul_pos (Nat.pos_of_ne_zero hn) (Nat.pow_pos (by decide))
      rw [Nat.pow_succ, ← Nat.mul_assoc, ofNat_of_le (Nat.le_mul_of_pos_left 10 hpos), Nat.mul_div_cancel _ (by decide),
        Nat.mul_mod_left, ih, List.replicate_succ', List.append_assoc]
      rfl

/-! ## Reading integers -/

theorem isDigitOf_ten (b : UInt8) : isDigitOf 10 b = isDigit b := by
  unfold isDigitOf digitValue isDigit
  split
  · rename_i hdigit
    simp only [Bool.and_eq_true, decide_eq_true_eq] at hdigit
    have hhigh : b.toNat ≤ 57 := hdigit.2
    simp [hdigit]
    omega
  · rename_i hother
    rw [Bool.not_eq_true] at hother
    rw [hother]
    split
    · rename_i hsmall
      simp only [Bool.and_eq_true, decide_eq_true_eq] at hsmall
      have hlow : 97 ≤ b.toNat := hsmall.1
      simp
      omega
    · split
      · rename_i hcapital
        simp only [Bool.and_eq_true, decide_eq_true_eq] at hcapital
        have hlow : 65 ≤ b.toNat := hcapital.1
        simp
        omega
      · rfl

theorem span_isDigitOf {ds rest : Text} (hds : ∀ b ∈ ds, isDigit b) (hrest : ∀ b ∈ rest.head?, ¬ isDigit b) :
    (ds ++ rest).span (isDigitOf 10) = (ds, rest) := by
  have hds : ∀ b ∈ ds, isDigitOf 10 b := fun b hb => isDigitOf_ten b ▸ hds b hb
  have hstop : rest.takeWhile (isDigitOf 10) = [] ∧ rest.dropWhile (isDigitOf 10) = rest := by
    cases rest with
    | nil => simp
    | cons b rest =>
        have hb : ¬ isDigitOf 10 b := isDigitOf_ten b ▸ hrest b rfl
        simp [hb]
  rw [List.span_eq_takeWhile_dropWhile, List.takeWhile_append_of_pos hds, List.dropWhile_append_of_pos hds, hstop.1,
    hstop.2, List.append_nil]

theorem span_isDigitOf_self {ds : Text} (hds : ∀ b ∈ ds, isDigit b) : ds.span (isDigitOf 10) = (ds, []) := by
  have hspan : (ds ++ []).span (isDigitOf 10) = (ds, []) := span_isDigitOf hds (by simp)
  rwa [List.append_nil] at hspan

theorem splitSign_ofNat (n : Nat) : splitSign (ofNat n) = (false, ofNat n) := by
  cases h : ofNat n with
  | nil => rfl
  | cons b bs =>
      have hb : isDigit b := isDigit_of_mem_ofNat (n := n) (by simp [h])
      unfold splitSign
      split
      · rename_i heq
        cases heq
        exact absurd hb (by decide)
      · rename_i heq
        cases heq
        exact absurd hb (by decide)
      · rfl

/-- The numeral of zero is read in base eight, any other in base ten. -/
theorem splitBase_ofNat (n : Nat) : ∃ base, splitBase (ofNat n) = (base, ofNat n) ∧
    (ofNat n).span (isDigitOf base) = (ofNat n, []) ∧ ofDigits base (ofNat n) = n := by
  by_cases hn : n = 0
  · subst hn
    exact ⟨8, rfl, rfl, rfl⟩
  · refine ⟨10, ?_, span_isDigitOf_self fun _ => isDigit_of_mem_ofNat, ofDigits_ofNat n⟩
    have hhead := head?_ofNat hn
    unfold splitBase
    split <;> simp_all

theorem readInt?_ofInt (n : Int) : readInt? (ofInt n) = some n := by
  have hunsigned : ∀ negative t m, splitSign t = (negative, ofNat m) →
      readInt? t = some (if negative then -(m : Int) else m) := by
    intro negative t m hsign
    obtain ⟨base, hbase, hspan, hvalue⟩ := splitBase_ofNat m
    have hne : (ofNat m).isEmpty = false := List.isEmpty_eq_false_iff.mpr (ofNat_ne_nil m)
    simp only [readInt?, hsign, hbase, hspan, hvalue, hne]
    rfl
  cases n with
  | ofNat n => exact hunsigned false _ n (splitSign_ofNat n)
  | negSucc n => exact hunsigned true _ (n + 1) rfl

end RuleFlow.Text
