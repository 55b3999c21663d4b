import RuleFlow.Json.Reader

/-!
# Strings are read as they were written

The reader takes an escaped text apart into one piece for each byte, and the pieces stand for these bytes again. This
holds of any bytes, whether or not they are UTF-8.
-/

namespace RuleFlow.Json

/-! ## Pieces -/

/-- The bytes that are spelled by a backslash and a letter or sign. -/
def lettered : List UInt8 := [34, 92, 10, 13, 9, 8, 12]

/-- The piece that a byte is spelled as. -/
def pieceOf (b : UInt8) : Piece := if b < 32 ∧ b ∉ lettered then .unit b.toNat else .byte b

/-- A property of the bytes below some number can be checked for each of these numbers. -/
@[elab_as_elim]
theorem forall_lt_of_fin {n : Nat} {p : UInt8 → Prop} {b : UInt8} (hb : b.toNat < n)
    (h : ∀ k : Fin n, p (UInt8.ofNat k)) :
    p b := by
  have hself := h ⟨b.toNat, hb⟩
  rwa [UInt8.ofNat_toNat] at hself

theorem hexUnit_hexDigit {b : UInt8} (h : b < 32) :
    hexUnit 48 48 (hexDigit (b / 16)) (hexDigit (b % 16)) = some b.toNat := by
  have hb : b.toNat < 32 := h
  refine forall_lt_of_fin hb ?_
  decide

theorem escapeByte_of_notMem {b : UInt8} (h : b ∉ lettered) :
    escapeByte b = if b < 32 then "\\u00" ++ [hexDigit (b / 16), hexDigit (b % 16)] else [b] := by
  simp [lettered] at h
  simp [escapeByte, h]

theorem pieces_escapeByte (b : UInt8) (rest : Text) :
    pieces (escapeByte b ++ rest) = (pieces rest).map fun (ps, rest) => (pieceOf b :: ps, rest) := by
  -- seven bytes have an escape of their own, the others below 32 are spelled by their number
  by_cases hletter : b ∈ lettered
  · simp only [lettered, List.mem_cons, List.not_mem_nil, or_false] at hletter
    rcases hletter with rfl | rfl | rfl | rfl | rfl | rfl | rfl <;> rfl
  · rw [escapeByte_of_notMem hletter, pieceOf]
    by_cases hb : b < 32
    · rw [if_pos hb, if_pos ⟨hb, hletter⟩]
      show pieces (92 :: 117 :: 48 :: 48 :: hexDigit (b / 16) :: hexDigit (b % 16) :: rest) = _
      rw [pieces, hexUnit_hexDigit hb]
    · rw [if_neg hb, if_neg (fun h => hb h.1)]
      simp [lettered] at hletter
      rw [List.singleton_append, pieces.eq_5 b rest hletter.1 (fun _ _ _ _ _ h => absurd h hletter.2.1)
        (fun _ _ h => absurd h hletter.2.1)]
      simp [hletter, hb]

theorem pieces_escape (t rest : Text) : pieces (escape t ++ 34 :: rest) = some (t.map pieceOf, rest) := by
  induction t with
  | nil => exact pieces.eq_2 rest
  | cons b t ih =>
      rw [escape, List.flatMap_cons, List.append_assoc, pieces_escapeByte, ← escape, ih]
      rfl

/-! ## Control bytes -/

theorem all_le_escapeByte (b : UInt8) : (escapeByte b).all (32 ≤ ·) := by
  by_cases hb : b < 32
  · have hlow : b.toNat < 32 := hb
    refine forall_lt_of_fin hlow ?_
    decide
  · by_cases hletter : b ∈ lettered
    · simp only [lettered, List.mem_cons, List.not_mem_nil, or_false] at hletter
      rcases hletter with rfl | rfl | rfl | rfl | rfl | rfl | rfl <;> rfl
    · rw [escapeByte_of_notMem hletter, if_neg hb]
      simpa using hb

theorem le_of_mem_escapeByte {b c : UInt8} (h : c ∈ escapeByte b) : 32 ≤ c := by
  simpa using List.all_eq_true.mp (all_le_escapeByte b) c h

theorem le_of_mem_quote {t : Text} {c : UInt8} (h : c ∈ quote t) : 32 ≤ c := by
  simp only [quote, escape, List.mem_cons, List.mem_append, List.mem_flatMap, List.not_mem_nil, or_false] at h
  rcases h with rfl | ⟨b, -, hc⟩ | rfl
  · decide
  · exact le_of_mem_escapeByte hc
  · decide

/-! ## Bytes -/

theorem bytesOfPieces_map_pieceOf (t : Text) : bytesOfPieces none (t.map pieceOf) = t := by
  induction t with
  | nil => rfl
  | cons b t ih =>
      rw [List.map_cons, pieceOf]
      split
      · rename_i h
        have hb : b.toNat < 32 := h.1
        have hsurrogate : isHighSurrogate b.toNat = false := by simp [isHighSurrogate]; omega
        have hencode : encodeCodePoint b.toNat = [b] := by simp [encodeCodePoint, show b.toNat < 128 by omega]
        simp [bytesOfPieces, hsurrogate, hencode, ih]
      · simp [bytesOfPieces, ih]

/-- A text between quotes is read back, whatever follows it. -/
theorem stringTail_escape (t rest : Text) : stringTail (escape t ++ 34 :: rest) = some (t, rest) := by
  simp only [stringTail, pieces_escape, Option.map_some, bytesOfPieces_map_pieceOf]

end RuleFlow.Json
