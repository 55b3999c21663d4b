import Std.Data.ExtTreeMap.Basic
import Std.Data.ExtTreeMap.Lemmas

/-!
# Texts

A text is a list of bytes. Nothing here looks at an encoding: blanks and letter case are those of ASCII, lengths
count bytes, and texts are ordered byte by byte. `Text.Map` is a finite map that lists its keys in that order.
-/

namespace RuleFlow

/-- A sequence of bytes. -/
abbrev Text := List UInt8

namespace Text

/-- The UTF-8 bytes of a string. -/
def ofString (s : String) : Text := s.toList.flatMap String.utf8EncodeChar

instance : Coe String Text := ⟨ofString⟩

@[simp] theorem ofString_inj {s t : String} : ofString s = ofString t ↔ s = t := by
  constructor
  · intro h
    rw [← String.toByteArray_inj, ← String.utf8Encode_toList, ← String.utf8Encode_toList]
    exact congrArg List.toByteArray h
  · exact congrArg ofString

/-! ## Blanks and letter case -/

/-- Space, tab, line feed, vertical tab, form feed or carriage return. -/
def isBlankByte (b : UInt8) : Bool := b == 32 || (9 ≤ b && b ≤ 13)

/-- Drops the blanks at both ends. -/
def trim (t : Text) : Text := ((t.dropWhile isBlankByte).reverse.dropWhile isBlankByte).reverse

/-- Nothing is left of a blank text once it is trimmed. -/
def isBlank (t : Text) : Bool := t.all isBlankByte

theorem isBlank_cons {b : UInt8} {t : Text} : isBlank (b :: t) ↔ isBlankByte b ∧ isBlank t := by
  simp [isBlank]

theorem dropWhile_eq_nil_iff {t : Text} : t.dropWhile isBlankByte = [] ↔ isBlank t := by
  induction t with
  | nil => simp [isBlank]
  | cons b rest ih => by_cases hb : isBlankByte b <;> simp [isBlank_cons, hb, ih]

theorem isBlank_dropWhile {t : Text} : isBlank (t.dropWhile isBlankByte) ↔ isBlank t := by
  induction t with
  | nil => rfl
  | cons b rest ih => by_cases hb : isBlankByte b <;> simp [isBlank_cons, hb, ih]

theorem trim_eq_nil_iff {t : Text} : trim t = [] ↔ isBlank t := by
  rw [trim, List.reverse_eq_nil_iff, dropWhile_eq_nil_iff, isBlank, List.all_reverse, ← isBlank, isBlank_dropWhile]

/-- The small letter of an ASCII capital, any other byte itself. -/
def lowerByte (b : UInt8) : UInt8 := if 65 ≤ b && b ≤ 90 then b + 32 else b

def lower (t : Text) : Text := t.map lowerByte

/-! ## Occurrences -/

/-- `needle` is a contiguous part of the text. -/
def occursIn (needle : Text) : Text → Bool
  | [] => needle.isEmpty
  | b :: rest => needle.isPrefixOf (b :: rest) || occursIn needle rest

theorem occursIn_iff {needle t : Text} : occursIn needle t ↔ needle <:+: t := by
  induction t with
  | nil => simp [occursIn]
  | cons b rest ih => simp [occursIn, List.infix_cons_iff, ih]

/-- `needle` occurs in the text once letter case is set aside. -/
def containsInsensitive (haystack needle : Text) : Bool := occursIn (lower needle) (lower haystack)

/-! ## Zero bytes -/

/-- The text up to its first zero byte: what a system reads of a path, a match of a pattern, and a reader of a message.
-/
def untilZero (t : Text) : Text := t.takeWhile (· != 0)

/-! ## Lists of items -/

/-- The trimmed, non-blank pieces between the separators, in order. -/
def splitList (separator : UInt8) (t : Text) : List Text :=
  ((t.splitOn separator).map trim).filter (· != [])

/-- The texts one after the other, with `delimiter` between each two. -/
def join (delimiter : Text) (ts : List Text) : Text := delimiter.intercalate ts

/-- The separator of lists written on one line. -/
def comma : UInt8 := 44

/-! ## Decimal numerals -/

/-- The decimal numeral of a number. -/
def ofNat (n : Nat) : Text := (Nat.toDigits 10 n).map fun c => c.toNat.toUInt8

/-- A numeral with a minus sign in front of a negative number. -/
def ofInt : Int → Text
  | .ofNat n => ofNat n
  | .negSucc n => 45 :: ofNat (n + 1)

def ofBool (b : Bool) : Text := if b then "true" else "false"

/-! ## Order -/

/-- Byte by byte, a proper beginning first. -/
def order (a b : Text) : Ordering := List.compareLex (compareOn UInt8.toNat) a b

instance : Std.TransCmp order := inferInstanceAs (Std.TransCmp (List.compareLex (compareOn UInt8.toNat)))

instance : Std.LawfulEqCmp (compareOn UInt8.toNat) where
  eq_of_compare h := UInt8.toNat_inj.1 (Std.LawfulEqCmp.eq_of_compare h)

instance : Std.LawfulEqCmp order := inferInstanceAs (Std.LawfulEqCmp (List.compareLex (compareOn UInt8.toNat)))

/-- A finite map that lists its keys in byte order. -/
abbrev Map (α : Type) := Std.ExtTreeMap Text α order

/-- The texts of a list in byte order, each once. -/
def sortUnique (ts : List Text) : List Text :=
  (ts.foldl (fun m t => m.insert t ()) (∅ : Map Unit)).keys

end Text

end RuleFlow
