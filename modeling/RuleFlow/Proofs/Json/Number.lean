import Mathlib.Data.List.TakeDrop
import RuleFlow.Number.Decimal
import RuleFlow.Proofs.Number.Binary
import RuleFlow.Proofs.Text.Numeral

/-!
# Number tokens

`Token` is the grammar of the numbers of JSON. The reader takes exactly a token from the front of a text, and the texts
of natural numbers, of integers and of finite doubles are tokens. The words for the other doubles are not (`Word`).
-/

namespace RuleFlow.Json

open RuleFlow.Text (ofNat)

variable {t : Text}

/-! ## The grammar -/

/-- At least one digit. -/
structure Digits (t : Text) : Prop where
  nonempty : t ≠ []
  digit : ∀ b ∈ t, isDigit b

/-- Digits that start with a zero only if there are no others. -/
structure Whole (t : Text) : Prop extends Digits t where
  zero : t.head? = some 48 → t = [48]

/-- Nothing, or a point and digits. -/
def Fraction (t : Text) : Prop := t = [] ∨ ∃ ds, t = 46 :: ds ∧ Digits ds

/-- Nothing, or the letter e, a sign and digits. -/
def Exponent (t : Text) : Prop := t = [] ∨ ∃ sign ds, t = 101 :: sign :: ds ∧ (sign = 43 ∨ sign = 45) ∧ Digits ds

/-- A number as the writers of this library spell it. -/
inductive Token : Text → Prop where
  | mk (negative : Bool) {whole fraction exponent : Text} (hwhole : Whole whole) (hfraction : Fraction fraction)
      (hexponent : Exponent exponent) : Token (Decimal.signed negative (whole ++ fraction ++ exponent))

/-- Nothing at the front of the text goes on with digits. -/
def EndsDigits (t : Text) : Prop := ∀ b ∈ t.head?, ¬ isDigit b

/-- Nothing at the front of the text goes on with a number. -/
def EndsNumber (t : Text) : Prop := ∀ b ∈ t.head?, ¬ isDigit b ∧ b ≠ 46 ∧ b ≠ 101 ∧ b ≠ 69

theorem EndsNumber.endsDigits (h : EndsNumber t) : EndsDigits t := fun b hb => (h b hb).1

theorem endsNumber_nil : EndsNumber [] := by simp [EndsNumber]

theorem endsNumber_cons {b : UInt8} (h : ¬ isDigit b ∧ b ≠ 46 ∧ b ≠ 101 ∧ b ≠ 69) : EndsNumber (b :: t) := by
  simpa [EndsNumber] using h

/-! ## Reading a token -/

variable {rest whole fraction exponent : Text}

theorem Digits.read (h : Digits t) (hrest : EndsDigits rest) : digits (t ++ rest) = some (t, rest) := by
  have htake : (t ++ rest).takeWhile isDigit = t := by
    rw [List.takeWhile_append_of_pos h.digit]
    cases rest with
    | nil => simp
    | cons b rest => simp [hrest b rfl]
  have hdrop : (t ++ rest).dropWhile isDigit = rest := by
    rw [List.dropWhile_append_of_pos h.digit]
    cases rest with
    | nil => simp
    | cons b rest => simp [hrest b rfl]
  rw [digits, List.span_eq_takeWhile_dropWhile, htake, hdrop]
  cases t with
  | nil => exact absurd rfl h.nonempty
  | cons b t => rfl

theorem Whole.read (h : Whole t) (hrest : EndsDigits rest) : integerPart (t ++ rest) = some (t, rest) := by
  by_cases hzero : t.head? = some 48
  · rw [h.zero hzero]
    rfl
  · cases t with
    | nil => exact absurd rfl h.nonempty
    | cons b t =>
        have hb : b ≠ 48 := by simpa using hzero
        rw [List.cons_append, integerPart.eq_2 _ (fun _ heq => hb (List.cons.inj heq).1), ← List.cons_append]
        exact h.toDigits.read hrest

theorem Fraction.read (h : Fraction t) (hrest : EndsDigits rest) (hpoint : rest.head? ≠ some 46) :
    fractionPart (t ++ rest) = some (t, rest) := by
  rcases h with rfl | ⟨ds, rfl, hds⟩
  · cases rest with
    | nil => rfl
    | cons b rest =>
        have hb : b ≠ 46 := by simpa using hpoint
        exact fractionPart.eq_2 _ (fun _ heq => hb (List.cons.inj heq).1)
  · rw [List.cons_append, fractionPart, hds.read hrest]
    rfl

theorem Exponent.read (h : Exponent t) (hrest : EndsNumber rest) : exponentPart (t ++ rest) = some (t, rest) := by
  rcases h with rfl | ⟨sign, ds, rfl, hsign, hds⟩
  · cases rest with
    | nil => rfl
    | cons b rest =>
        obtain ⟨-, -, hsmall, hcapital⟩ := hrest b rfl
        simp [exponentPart, hsmall, hcapital]
  · rcases hsign with rfl | rfl
    · simp [exponentPart, exponentSign, hds.read hrest.endsDigits]
    · simp [exponentPart, exponentSign, hds.read hrest.endsDigits]

theorem Exponent.endsDigits (h : Exponent t) (hrest : EndsNumber rest) : EndsDigits (t ++ rest) := by
  rcases h with rfl | ⟨sign, ds, rfl, -⟩
  · exact hrest.endsDigits
  · simp [EndsDigits, isDigit]

theorem Exponent.head?_ne_point (h : Exponent t) (hrest : EndsNumber rest) : (t ++ rest).head? ≠ some 46 := by
  rcases h with rfl | ⟨sign, ds, rfl, -⟩
  · intro hpoint
    exact (hrest 46 hpoint).2.1 rfl
  · simp

theorem Fraction.endsDigits (h : Fraction t) (hrest : EndsDigits rest) : EndsDigits (t ++ rest) := by
  rcases h with rfl | ⟨ds, rfl, -⟩
  · exact hrest
  · simp [EndsDigits, isDigit]

theorem unsignedToken_append (hwhole : Whole whole) (hfraction : Fraction fraction) (hexponent : Exponent exponent)
    (hrest : EndsNumber rest) :
    unsignedToken (whole ++ fraction ++ exponent ++ rest) = some (whole ++ fraction ++ exponent, rest) := by
  have htail := hexponent.endsDigits hrest
  rw [unsignedToken, List.append_assoc, List.append_assoc, hwhole.read (hfraction.endsDigits htail)]
  dsimp only [Option.bind_eq_bind, Option.bind_some]
  rw [hfraction.read htail (hexponent.head?_ne_point hrest)]
  dsimp only [Option.bind_some]
  rw [hexponent.read hrest]
  simp

theorem Token.read (h : Token t) (hrest : EndsNumber rest) : numberToken (t ++ rest) = some (t, rest) := by
  obtain @⟨negative, whole, fraction, exponent, hwhole, hfraction, hexponent⟩ := h
  have hunsigned := unsignedToken_append hwhole hfraction hexponent hrest
  cases negative with
  | true =>
      show numberToken (45 :: (whole ++ fraction ++ exponent ++ rest)) = _
      rw [numberToken, hunsigned]
      rfl
  | false =>
      show numberToken (whole ++ fraction ++ exponent ++ rest) = _
      cases whole with
      | nil => exact absurd rfl hwhole.nonempty
      | cons b whole =>
          have hb : b ≠ 45 := by
            rintro rfl
            exact absurd (hwhole.digit 45 (by simp)) (by decide)
          exact (numberToken.eq_2 _ (fun _ heq => hb (List.cons.inj heq).1)).trans hunsigned

/-- The first byte of a token is a minus sign or a digit. -/
theorem Token.head (h : Token t) : ∃ b bs, t = b :: bs ∧ (b = 45 ∨ isDigit b) := by
  obtain @⟨negative, whole, fraction, exponent, hwhole, -, -⟩ := h
  cases negative with
  | true => exact ⟨45, _, rfl, .inl rfl⟩
  | false =>
      cases whole with
      | nil => exact absurd rfl hwhole.nonempty
      | cons b bs => exact ⟨b, _, rfl, .inr (hwhole.digit b (by simp))⟩

/-! ## Numerals -/

theorem digits_ofNat (n : Nat) : Digits (ofNat n) := ⟨Text.ofNat_ne_nil n, fun _ => Text.isDigit_of_mem_ofNat⟩

theorem whole_ofNat (n : Nat) : Whole (ofNat n) where
  toDigits := digits_ofNat n
  zero h := by
    by_cases hn : n = 0
    · rw [hn]
      rfl
    · exact absurd h (Text.head?_ofNat hn)

theorem Whole.take_succ (h : Whole t) (k : Nat) : Whole (t.take (k + 1)) := by
  cases t with
  | nil => exact absurd rfl h.nonempty
  | cons b t =>
      refine ⟨⟨by simp, fun c hc => h.digit c (List.mem_of_mem_take hc)⟩, fun hzero => ?_⟩
      have hsingle := h.zero (by simpa using hzero)
      rw [hsingle, List.take_succ_cons, List.take_nil]

theorem whole_singleton {b : UInt8} (h : isDigit b) : Whole [b] where
  nonempty := by simp
  digit c hc := List.mem_singleton.mp hc ▸ h
  zero hzero := by simpa using hzero

theorem fraction_nil : Fraction [] := .inl rfl

theorem exponent_nil : Exponent [] := .inl rfl

theorem token_of_whole (negative : Bool) (hwhole : Whole t) : Token (Decimal.signed negative t) := by
  simpa using Token.mk negative hwhole fraction_nil exponent_nil

theorem token_ofNat (n : Nat) : Token (ofNat n) := token_of_whole false (whole_ofNat n)

theorem token_ofInt (n : Int) : Token (Text.ofInt n) := by
  cases n with
  | ofNat n => exact token_ofNat n
  | negSucc n => exact token_of_whole true (whole_ofNat (n + 1))

/-! ## Doubles -/

theorem fraction_of_digits (h : ∀ b ∈ t, isDigit b) : Fraction (Decimal.fraction t) := by
  cases t with
  | nil => exact .inl rfl
  | cons b t => exact .inr ⟨b :: t, rfl, by simp, h⟩

theorem mem_of_mem_stripZeros {b : UInt8} (h : b ∈ Decimal.stripZeros t) : b ∈ t := by
  rw [Decimal.stripZeros, List.mem_reverse] at h
  exact List.mem_reverse.mp ((List.dropWhile_sublist _).mem h)

theorem isDigit_of_mem_padLeft {width n : Nat} {b : UInt8} (h : b ∈ Decimal.padLeft width (ofNat n)) : isDigit b := by
  rcases List.mem_append.mp h with h | h
  · rw [List.eq_of_mem_replicate h]
    decide
  · exact Text.isDigit_of_mem_ofNat h

theorem exponent_exponent (e : Int) : Exponent (Decimal.exponent e) := by
  refine .inr ⟨_, _, rfl, ?_, ?_, fun _ => isDigit_of_mem_padLeft⟩
  · split
    · exact .inr rfl
    · exact .inl rfl
  · simp [Decimal.padLeft, Text.ofNat_ne_nil]

/-- The digits before the point. -/
theorem whole_withPlaces (places n : Nat) :
    Whole ((Decimal.padLeft (places + 1) (ofNat n)).take
      ((Decimal.padLeft (places + 1) (ofNat n)).length - places)) := by
  by_cases hshort : (ofNat n).length ≤ places + 1
  · -- the numeral is padded to a single digit before the point
    have hlength : (Decimal.padLeft (places + 1) (ofNat n)).length = places + 1 := by
      simp [Decimal.padLeft]
      omega
    have hdigit : ∀ b ∈ Decimal.padLeft (places + 1) (ofNat n), isDigit b := fun _ => isDigit_of_mem_padLeft
    rw [hlength, Nat.add_sub_cancel_left]
    cases hdigits : Decimal.padLeft (places + 1) (ofNat n) with
    | nil => simp [hdigits] at hlength
    | cons b bs =>
        rw [hdigits] at hdigit
        exact whole_singleton (hdigit b (by simp))
  · have hpad : Decimal.padLeft (places + 1) (ofNat n) = ofNat n := by
      simp [Decimal.padLeft, Nat.sub_eq_zero_of_le (Nat.le_of_not_le hshort)]
    obtain ⟨k, hk⟩ : ∃ k, (ofNat n).length - places = k + 1 := ⟨(ofNat n).length - places - 1, by omega⟩
    rw [hpad, hk]
    exact (whole_ofNat n).take_succ k

theorem token_withPlaces (negative : Bool) (places n : Nat) :
    Token (Decimal.signed negative (Decimal.withPlaces places n)) := by
  unfold Decimal.withPlaces
  split
  · exact token_of_whole negative (whole_ofNat n)
  · rename_i hplaces
    have hfraction : Fraction (46 :: (Decimal.padLeft (places + 1) (ofNat n)).drop
        ((Decimal.padLeft (places + 1) (ofNat n)).length - places)) := by
      refine .inr ⟨_, rfl, ?_, fun b hb => isDigit_of_mem_padLeft (List.mem_of_mem_drop hb)⟩
      have hlength : places + 1 ≤ (Decimal.padLeft (places + 1) (ofNat n)).length := by
        simp [Decimal.padLeft]
        omega
      intro hnil
      have := List.drop_eq_nil_iff.mp hnil
      omega
    simpa using Token.mk negative (whole_withPlaces places n) hfraction exponent_nil

theorem token_place (negative : Bool) (count n : Nat) (e : Int) :
    Token (Decimal.signed negative (Decimal.place count (ofNat n) e)) := by
  have hdigit : ∀ b ∈ ofNat n, isDigit b := (digits_ofNat n).digit
  -- what follows the point is a fraction, wherever the point is put
  have hfraction : ∀ k, Fraction (Decimal.fraction (Decimal.stripZeros ((ofNat n).drop k))) := fun k =>
    fraction_of_digits fun b hb => hdigit b (List.mem_of_mem_drop (mem_of_mem_stripZeros hb))
  unfold Decimal.place
  split
  · split
    · have hzeros : Fraction (Decimal.fraction (Decimal.stripZeros (List.replicate (e.natAbs - 1) 48 ++ ofNat n))) := by
        refine fraction_of_digits fun b hb => ?_
        rcases List.mem_append.mp (mem_of_mem_stripZeros hb) with hb | hb
        · rw [List.eq_of_mem_replicate hb]
          decide
        · exact hdigit b hb
      simpa using Token.mk negative (whole_singleton (b := 48) (by decide)) hzeros exponent_nil
    · simpa using Token.mk negative ((whole_ofNat n).take_succ e.toNat) (hfraction _) exponent_nil
  · exact Token.mk negative ((whole_ofNat n).take_succ 0) (hfraction 1) (exponent_exponent e)

/-! ## Words -/

/-- The words for doubles that are not finite. -/
def Word (t : Text) : Prop := t = Text.ofString "nan" ∨ t = Text.ofString "inf" ∨ t = Text.ofString "-inf"

instance : DecidablePred Word := fun _ => inferInstanceAs (Decidable (_ ∨ _ ∨ _))

theorem Token.not_word (h : Token t) : ¬ Word t := by
  intro hword
  have hread : numberToken (t ++ []) = some (t, []) := h.read endsNumber_nil
  rcases hword with rfl | rfl | rfl <;> cases hread

theorem word_signed (negative : Bool) : Word (Decimal.signed negative "inf") := by
  cases negative with
  | true => exact .inr (.inr rfl)
  | false => exact .inr (.inl rfl)

/-- A double with a fixed number of places is a token if it is finite, else a word. -/
theorem fixed_cases (places : Nat) (x : Float) :
    x.isFinite ∧ Token (Decimal.fixed places x) ∨ ¬ x.isFinite ∧ Word (Decimal.fixed places x) := by
  unfold Decimal.fixed
  rw [Number.isFinite_iff]
  cases Binary.ofFloat x with
  | nan => exact .inr ⟨by simp, .inl rfl⟩
  | infinite negative => exact .inr ⟨by simp, word_signed negative⟩
  | finite negative m e => exact .inl ⟨⟨negative, m, e, rfl⟩, token_withPlaces negative places _⟩

/-- A double with a number of significant digits is a token if it is finite, else a word. -/
theorem significant_cases (count : Nat) (x : Float) :
    x.isFinite ∧ Token (Decimal.significant count x) ∨ ¬ x.isFinite ∧ Word (Decimal.significant count x) := by
  unfold Decimal.significant
  rw [Number.isFinite_iff]
  cases Binary.ofFloat x with
  | nan => exact .inr ⟨by simp, .inl rfl⟩
  | infinite negative => exact .inr ⟨by simp, word_signed negative⟩
  | finite negative m e =>
      refine .inl ⟨⟨negative, m, e, rfl⟩, ?_⟩
      dsimp only
      split
      · exact token_of_whole negative (whole_singleton (by decide))
      · exact token_place negative count _ _

theorem token_fixed {places : Nat} {x : Float} (h : x.isFinite) : Token (Decimal.fixed places x) := by
  rcases fixed_cases places x with ⟨-, htoken⟩ | ⟨hinfinite, -⟩
  · exact htoken
  · exact absurd h hinfinite

theorem token_significant {count : Nat} {x : Float} (h : x.isFinite) : Token (Decimal.significant count x) := by
  rcases significant_cases count x with ⟨-, htoken⟩ | ⟨hinfinite, -⟩
  · exact htoken
  · exact absurd h hinfinite

theorem word_fixed_iff {places : Nat} {x : Float} : Word (Decimal.fixed places x) ↔ ¬ x.isFinite := by
  rcases fixed_cases places x with ⟨hfinite, htoken⟩ | ⟨hinfinite, hword⟩
  · exact iff_of_false htoken.not_word (not_not_intro hfinite)
  · exact iff_of_true hword hinfinite

theorem word_significant_iff {count : Nat} {x : Float} : Word (Decimal.significant count x) ↔ ¬ x.isFinite := by
  rcases significant_cases count x with ⟨hfinite, htoken⟩ | ⟨hinfinite, hword⟩
  · exact iff_of_false htoken.not_word (not_not_intro hfinite)
  · exact iff_of_true hword hinfinite

end RuleFlow.Json
