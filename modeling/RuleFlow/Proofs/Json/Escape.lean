import RuleFlow.Proofs.Json.Access
import RuleFlow.Proofs.Json.Value

/-!
# Escaped texts

Whatever bytes a text has, its escaped form has no control byte, no quote that could end the string and no backslash
that could take the closing quote with it. It can be read back at once or part by part (`escape_invertible`), and so can
a list of texts.
-/

namespace RuleFlow.Json

variable {s t : Text}

/-! ## Backslashes and what they escape -/

/-- Whether a backslash waits for the byte that it escapes once `b` is read as well. -/
def waitsAfter (waiting : Bool) (b : UInt8) : Bool := !waiting && b == 92

/-- A backslash at the end of the text waits for the byte that it escapes. -/
def Waits (t : Text) : Prop := t.foldl waitsAfter false

instance : DecidablePred Waits := fun t => inferInstanceAs (Decidable (t.foldl waitsAfter false = true))

/-- Every quote is escaped, and no backslash is left without a byte that it escapes. -/
structure Paired (t : Text) : Prop where
  quote : ∀ before after, t = before ++ 34 :: after → Waits before
  last : ¬ Waits t

theorem waits_append (hs : ¬ Waits s) : Waits (s ++ t) ↔ Waits t := by
  have hs : s.foldl waitsAfter false = false := by simpa [Waits] using hs
  rw [Waits, List.foldl_append, hs, Waits]

theorem paired_nil : Paired [] where
  quote before after h := by simp at h
  last := by decide

theorem Paired.append (hs : Paired s) (ht : Paired t) : Paired (s ++ t) where
  quote before after h := by
    -- the quote stands in `t`, or it is the first byte of `t`, or it stands in `s`
    rcases List.append_eq_append_iff.mp h with ⟨front, rfl, rfl⟩ | ⟨back, rfl, hback⟩
    · exact (waits_append hs.last).mpr (ht.quote front after rfl)
    · cases back with
      | nil => exact absurd (ht.quote [] after hback.symm) (by decide)
      | cons b back =>
          obtain ⟨rfl, -⟩ := List.cons.inj hback
          exact hs.quote before back rfl
  last := fun h => ht.last ((waits_append hs.last).mp h)

theorem paired_singleton {b : UInt8} (hquote : b ≠ 34) (hbackslash : b ≠ 92) : Paired [b] where
  quote before after h := by
    cases before with
    | nil => exact absurd (List.cons.inj h).1 hquote
    | cons c before => simp at h
  last := by simp [Waits, waitsAfter, hbackslash]

theorem paired_backslash (b : UInt8) : Paired [92, b] where
  quote before after h := by
    match before with
    | [] => exact absurd (List.cons.inj h).1 (by decide)
    | [c] =>
        obtain ⟨rfl, -⟩ := List.cons.inj h
        decide
    | c :: d :: before => simp at h
  last := by simp [Waits, waitsAfter]

/-! ## Escaped bytes -/

theorem paired_hexDigit {n : UInt8} (h : n < 16) : Paired [hexDigit n] := by
  have hn : n.toNat < 16 := h
  have hother : hexDigit n ≠ 34 ∧ hexDigit n ≠ 92 := by
    refine forall_lt_of_fin hn ?_
    decide
  exact paired_singleton hother.1 hother.2

theorem paired_escapeByte (b : UInt8) : Paired (escapeByte b) := by
  by_cases hletter : b ∈ lettered
  · simp only [lettered, List.mem_cons, List.not_mem_nil, or_false] at hletter
    rcases hletter with rfl | rfl | rfl | rfl | rfl | rfl | rfl <;> exact paired_backslash _
  · rw [escapeByte_of_notMem hletter]
    split
    · have hb : b.toNat < 256 := b.toNat_lt
      have hzero : Paired [48] := paired_singleton (by decide) (by decide)
      have hhigh : Paired [hexDigit (b / 16)] := paired_hexDigit (by simp [UInt8.lt_iff_toNat_lt]; omega)
      have hlow : Paired [hexDigit (b % 16)] := paired_hexDigit (by simp [UInt8.lt_iff_toNat_lt]; omega)
      exact (((paired_backslash 117).append hzero).append hzero).append (hhigh.append hlow)
    · simp only [lettered, List.mem_cons, not_or] at hletter
      exact paired_singleton hletter.1 hletter.2.1

theorem paired_escape (t : Text) : Paired (escape t) := by
  induction t with
  | nil => exact paired_nil
  | cons b t ih => exact (paired_escapeByte b).append ih

theorem le_of_mem_escape {b : UInt8} (h : b ∈ escape t) : 32 ≤ b := by
  obtain ⟨c, -, hb⟩ := List.mem_flatMap.mp h
  exact le_of_mem_escapeByte hb

theorem escape_append (s t : Text) : escape (s ++ t) = escape s ++ escape t := List.flatMap_append

theorem escape_injective : Function.Injective escape := by
  intro s t h
  have hread : stringTail (escape s ++ [34]) = stringTail (escape t ++ [34]) := by rw [h]
  rw [stringTail_escape, stringTail_escape] at hread
  exact congrArg Prod.fst (Option.some.inj hread)

/-! ## Lists of texts -/

theorem renderItems_eq (vs : List Json) : renderItems vs = Text.join [Text.comma] (vs.map render) := by
  induction vs with
  | nil => rfl
  | cons v vs ih =>
      cases vs with
      | nil => simp [renderItems, Text.join]
      | cons w vs =>
          rw [Text.join, List.map_cons] at ih
          rw [renderItems, ih, Text.join, List.map_cons, List.map_cons, List.intercalate_cons_cons]
          simp [Text.comma]

theorem render_strings (ts : List Text) :
    (strings ts).render = 91 :: (Text.join [Text.comma] (ts.map quote) ++ [93]) := by
  rw [strings, render, renderItems_eq, List.map_map]
  rfl

/-- An escaped text has no byte below 32, no quote that is not escaped and no backslash at its end that waits for
another byte, and between quotes it is read back, whatever follows. So no two texts have the same escaped form. The
parts of a text are escaped by themselves, and quoted texts with commas between them, in brackets, are read back as the
list of the texts. -/
theorem escape_invertible :
    (∀ t, (∀ b ∈ escape t, 32 ≤ b) ∧
      (∀ before after, escape t = before ++ 34 :: after → Waits before) ∧ ¬ Waits (escape t) ∧
      ∀ rest, stringTail (escape t ++ 34 :: rest) = some (t, rest)) ∧
    Function.Injective escape ∧
    (∀ s t, escape (s ++ t) = escape s ++ escape t) ∧
    ∀ ts, (strings ts).render = 91 :: (Text.join [Text.comma] (ts.map quote) ++ [93]) ∧
      (parse (strings ts).render).bind texts? = some ts := by
  refine ⟨fun t => ⟨fun b => le_of_mem_escape, (paired_escape t).quote, (paired_escape t).last, stringTail_escape t⟩,
    escape_injective,
    escape_append, fun ts => ⟨render_strings ts, ?_⟩⟩
  rw [parse_render (by simp), Option.bind_some, texts?_strings]

/-- A quote, a backslash, a zero byte and a byte that is no character by itself. -/
theorem escape_invertible_odd_bytes :
    let t : Text := [34, 92, 0, 255]
    escape t = [92] ++ 34 :: [92, 92, 92, 117, 48, 48, 48, 48, 255] ∧ Waits [92] ∧
      stringTail (escape t ++ [34]) = some (t, []) := by
  intro t
  have hescape : escape t = [92] ++ 34 :: [92, 92, 92, 117, 48, 48, 48, 48, 255] := by decide
  obtain ⟨-, hquote, -, hread⟩ := escape_invertible.1 t
  exact ⟨hescape, hquote _ _ hescape, hread []⟩

end RuleFlow.Json
