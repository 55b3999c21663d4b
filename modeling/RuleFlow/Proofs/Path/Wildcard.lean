import Mathlib.Data.List.Forall2
import RuleFlow.Path.Wildcard
import RuleFlow.Proofs.Path.Names

/-!
# Names that a wildcard matches

A pattern without brackets and backslashes matches the names that fall into pieces, one for each byte of the pattern
(`Spells`). The matcher gets there with ends of the pattern: one of them leads through the name byte by byte (`Leads`).
-/

namespace RuleFlow.Wildcard

variable {pattern name rest : Text} {b c : UInt8}

/-! ## Names in pieces -/

/-- The piece of a name that a byte of a pattern stands for: a star for any text, a question mark for one byte and any
other byte for itself. -/
inductive StandsFor : UInt8 → Text → Prop
  | star (piece : Text) : StandsFor 42 piece
  | question (b : UInt8) : StandsFor 63 [b]
  | byte {c : UInt8} : c ≠ 42 → c ≠ 63 → StandsFor c [c]

/-- The name falls into pieces, one for each byte of the pattern. -/
def Spells (pattern name : Text) : Prop := ∃ pieces, List.Forall₂ StandsFor pattern pieces ∧ pieces.flatten = name

theorem spells_nil : Spells [] name ↔ name = [] := by
  constructor
  · rintro ⟨pieces, hpieces, rfl⟩
    cases hpieces
    rfl
  · rintro rfl
    exact ⟨[], .nil, rfl⟩

theorem spells_cons :
    Spells (c :: pattern) name ↔
      ∃ piece rest, StandsFor c piece ∧ Spells pattern rest ∧ piece ++ rest = name := by
  constructor
  · rintro ⟨pieces, hpieces, rfl⟩
    cases hpieces with
    | cons hpiece hrest => exact ⟨_, _, hpiece, ⟨_, hrest, rfl⟩, rfl⟩
  · rintro ⟨piece, rest, hpiece, ⟨pieces, hpieces, rfl⟩, rfl⟩
    exact ⟨piece :: pieces, .cons hpiece hpieces, rfl⟩

theorem spells_star_nil : Spells (42 :: pattern) [] ↔ Spells pattern [] := by
  rw [spells_cons]
  constructor
  · rintro ⟨piece, rest, -, hrest, heq⟩
    rwa [(List.append_eq_nil_iff.mp heq).2] at hrest
  · intro h
    exact ⟨[], [], .star [], h, rfl⟩

/-- A star takes a first byte or leaves off. -/
theorem spells_star_cons :
    Spells (42 :: pattern) (b :: name) ↔ Spells pattern (b :: name) ∨ Spells (42 :: pattern) name := by
  constructor
  · intro h
    obtain ⟨piece, rest, -, hrest, heq⟩ := spells_cons.mp h
    cases piece with
    | nil => exact .inl (heq ▸ hrest)
    | cons b' piece =>
        obtain ⟨-, htail⟩ := List.cons_eq_cons.mp heq
        exact .inr (spells_cons.mpr ⟨piece, rest, .star piece, hrest, htail⟩)
  · rintro (h | h)
    · exact spells_cons.mpr ⟨[], _, .star [], h, rfl⟩
    · obtain ⟨piece, rest, -, hrest, rfl⟩ := spells_cons.mp h
      exact spells_cons.mpr ⟨b :: piece, rest, .star _, hrest, rfl⟩

theorem spells_question : Spells (63 :: pattern) name ↔ ∃ b rest, Spells pattern rest ∧ name = b :: rest := by
  rw [spells_cons]
  constructor
  · rintro ⟨piece, rest, hpiece, hrest, rfl⟩
    cases hpiece with
    | question b => exact ⟨b, rest, hrest, rfl⟩
    | byte _ h => exact absurd rfl h
  · rintro ⟨b, rest, hrest, rfl⟩
    exact ⟨[b], rest, .question b, hrest, rfl⟩

theorem spells_byte (hstar : c ≠ 42) (hquestion : c ≠ 63) :
    Spells (c :: pattern) name ↔ ∃ rest, Spells pattern rest ∧ name = c :: rest := by
  rw [spells_cons]
  constructor
  · rintro ⟨piece, rest, hpiece, hrest, rfl⟩
    cases hpiece with
    | star => exact absurd rfl hstar
    | question => exact absurd rfl hquestion
    | byte => exact ⟨rest, hrest, rfl⟩
  · rintro ⟨rest, hrest, rfl⟩
    exact ⟨[c], rest, .byte hstar hquestion, hrest, rfl⟩

/-- Without stars and question marks a pattern spells itself. -/
theorem spells_self_iff (hstar : 42 ∉ pattern) (hquestion : 63 ∉ pattern) : Spells pattern name ↔ name = pattern := by
  induction pattern generalizing name with
  | nil => exact spells_nil
  | cons c pattern ih =>
      obtain ⟨hc, hstar⟩ := not_or.mp (List.mem_cons.not.mp hstar)
      obtain ⟨hc', hquestion⟩ := not_or.mp (List.mem_cons.not.mp hquestion)
      rw [spells_byte (Ne.symm hc) (Ne.symm hc')]
      simp only [ih hstar hquestion, exists_eq_left]

/-- A star in front of a text that spells itself spells the names with this end. -/
theorem spells_star_iff (hstar : 42 ∉ pattern) (hquestion : 63 ∉ pattern) :
    Spells (42 :: pattern) name ↔ pattern <:+ name := by
  rw [spells_cons]
  constructor
  · rintro ⟨piece, rest, -, hrest, rfl⟩
    exact ⟨piece, by rw [(spells_self_iff hstar hquestion).mp hrest]⟩
  · rintro ⟨piece, rfl⟩
    exact ⟨piece, pattern, .star piece, (spells_self_iff hstar hquestion).mpr rfl, rfl⟩

/-! ## Ends of the pattern -/

/-- The end of a pattern leads through the name to the end of all. -/
def Leads (e : Text) : Text → Prop
  | [] => e = []
  | b :: name => ∃ next ∈ advance b e, Leads next name

theorem anyMatches_iff {ends : List Text} : anyMatches ends name ↔ ∃ e ∈ ends, Leads e name := by
  induction name generalizing ends with
  | nil => simp [anyMatches, Leads]
  | cons b name ih =>
      rw [anyMatches, ih]
      simp only [List.mem_eraseDups, List.mem_flatMap, Leads]
      constructor
      · rintro ⟨next, ⟨e, he, hnext⟩, hleads⟩
        exact ⟨e, he, next, hnext, hleads⟩
      · rintro ⟨e, he, next, hnext, hleads⟩
        exact ⟨next, ⟨e, he, hnext⟩, hleads⟩

theorem reach_star (rest : Text) : reach (42 :: rest) = (42 :: rest) :: reach rest := rfl

theorem reach_of_ne (h : c ≠ 42) : reach (c :: rest) = [c :: rest] := by
  rw [reach]
  rintro t ⟨⟩
  exact h rfl

theorem advance_byte (hstar : c ≠ 42) (hquestion : c ≠ 63) (hbracket : c ≠ 91) (hbackslash : c ≠ 92) :
    advance b (c :: rest) = if c = b then reach rest else [] := by
  rw [advance]
  · exact hstar
  · exact hquestion
  · exact hbackslash
  · exact hbracket

theorem not_leads_nil : ¬ Leads [] (b :: name) := by
  simp [Leads, advance]

theorem leads_star : Leads (42 :: rest) (b :: name) ↔ ∃ e ∈ reach (42 :: rest), Leads e name := by
  simp only [Leads, advance]

theorem leads_question : Leads (63 :: rest) (b :: name) ↔ ∃ e ∈ reach rest, Leads e name := by
  simp only [Leads, advance]

theorem leads_byte (hstar : c ≠ 42) (hquestion : c ≠ 63) (hbracket : c ≠ 91) (hbackslash : c ≠ 92) :
    Leads (c :: rest) (b :: name) ↔ c = b ∧ ∃ e ∈ reach rest, Leads e name := by
  rw [Leads, advance_byte hstar hquestion hbracket hbackslash]
  by_cases h : c = b <;> simp [h]

/-- At the end of the name only stars may be left. -/
theorem exists_leads_nil_iff : (∃ e ∈ reach pattern, Leads e []) ↔ Spells pattern [] := by
  induction pattern with
  | nil => simp [reach, Leads, spells_nil]
  | cons c rest ih =>
      by_cases hstar : c = 42
      · subst hstar
        rw [spells_star_nil, ← ih]
        simp [reach, Leads]
      · have hspells : ¬ Spells (c :: rest) [] := by
          rw [spells_cons]
          rintro ⟨piece, _, hpiece, -, heq⟩
          obtain ⟨rfl, -⟩ := List.append_eq_nil_iff.mp heq
          cases hpiece
          exact hstar rfl
        simp [reach_of_ne hstar, Leads, hspells]

/-- Some end that is reached at the start leads through the names that the pattern spells. -/
theorem exists_leads_iff (hbracket : 91 ∉ pattern) (hbackslash : 92 ∉ pattern) :
    (∃ e ∈ reach pattern, Leads e name) ↔ Spells pattern name := by
  induction name generalizing pattern with
  | nil => exact exists_leads_nil_iff
  | cons b name ih =>
      -- a star stays in front while the name goes on, so that for one name there is an induction on the stars
      induction pattern with
      | nil => simp [reach, not_leads_nil, spells_nil]
      | cons c rest ihrest =>
          have hbracket' := List.not_mem_of_not_mem_cons hbracket
          have hbackslash' := List.not_mem_of_not_mem_cons hbackslash
          by_cases hstar : c = 42
          · subst hstar
            rw [reach_star]
            simp only [List.mem_cons, exists_eq_or_imp]
            rw [leads_star, ih hbracket hbackslash, ihrest hbracket' hbackslash', spells_star_cons, or_comm]
          rw [reach_of_ne hstar]
          simp only [List.mem_singleton, exists_eq_left]
          by_cases hquestion : c = 63
          · subst hquestion
            rw [leads_question, ih hbracket' hbackslash', spells_question]
            simp
          · rw [leads_byte hstar hquestion (List.ne_of_not_mem_cons hbracket).symm
              (List.ne_of_not_mem_cons hbackslash).symm,
              ih hbracket' hbackslash', spells_byte hstar hquestion]
            simp [eq_comm, and_comm]

theorem isMatch_iff (hbracket : 91 ∉ pattern) (hbackslash : 92 ∉ pattern) :
    isMatch pattern name ↔ Spells pattern name := by
  rw [isMatch, anyMatches_iff, exists_leads_iff hbracket hbackslash]

theorem isFileName_iff : isFileName pattern ↔ 46 ∈ pattern ∧ 42 ∉ pattern := by
  simp [isFileName]

/-! ## Names that fit -/

/-- A name fits a pattern with a point and without a star if it is the pattern, and any other pattern if it falls into
pieces for the bytes of the pattern. So a star in front of a text without wildcards is fitted by the names with this
end, and a pattern without wildcards by itself alone. -/
theorem fits_iff_spells (hname : 0 ∉ name) (hpattern : 0 ∉ pattern) (hbracket : 91 ∉ pattern)
    (hbackslash : 92 ∉ pattern) :
    (fits name pattern ↔ if 46 ∈ pattern ∧ 42 ∉ pattern then name = pattern else Spells pattern name) ∧
      (∀ suffix, pattern = 42 :: suffix → 42 ∉ suffix → 63 ∉ suffix → (fits name pattern ↔ suffix <:+ name)) ∧
      (42 ∉ pattern → 63 ∉ pattern → (fits name pattern ↔ name = pattern)) := by
  have hfits : fits name pattern ↔ if 46 ∈ pattern ∧ 42 ∉ pattern then name = pattern else Spells pattern name := by
    by_cases hfile : isFileName pattern
    · rw [fits, if_pos hfile, if_pos (isFileName_iff.mp hfile), beq_iff_eq]
    · rw [fits, if_neg hfile, if_neg (isFileName_iff.not.mp hfile), Text.untilZero_eq hname, Text.untilZero_eq hpattern,
        isMatch_iff hbracket hbackslash]
  refine ⟨hfits, ?_, ?_⟩
  · rintro suffix rfl hstar hquestion
    rw [hfits, if_neg (by simp), spells_star_iff hstar hquestion]
  · intro hstar hquestion
    rw [hfits]
    split
    · rfl
    · exact spells_self_iff hstar hquestion

/-- The first star has to go past a byte that the pattern could go on with. -/
theorem fits_past_first_byte :
    let name : Text := "aabbxbyc"
    let pattern : Text := "a*b?*c"
    (0 ∉ name ∧ 0 ∉ pattern ∧ 91 ∉ pattern ∧ 92 ∉ pattern) ∧ fits name pattern := by
  intro name pattern
  have hplain : 0 ∉ name ∧ 0 ∉ pattern ∧ 91 ∉ pattern ∧ 92 ∉ pattern := by decide
  obtain ⟨hname, hpattern, hbracket, hbackslash⟩ := hplain
  refine ⟨⟨hname, hpattern, hbracket, hbackslash⟩, (fits_iff_spells hname hpattern hbracket hbackslash).1.mpr ?_⟩
  rw [if_neg (by decide)]
  have hpieces : List.Forall₂ StandsFor [97, 42, 98, 63, 42, 99] [[97], [97, 98], [98], [120], [98, 121], [99]] :=
    .cons (.byte (by decide) (by decide)) <| .cons (.star _) <| .cons (.byte (by decide) (by decide)) <|
      .cons (.question _) <| .cons (.star _) <| .cons (.byte (by decide) (by decide)) .nil
  exact ⟨_, hpieces, rfl⟩

end RuleFlow.Wildcard
