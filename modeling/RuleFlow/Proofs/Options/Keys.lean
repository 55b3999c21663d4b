import RuleFlow.Proofs.Keyed
import RuleFlow.Proofs.Options.Config
import RuleFlow.Proofs.Text.Trim

/-!
# Spellings of keys

A key may be written in capitals or small letters, with hyphens for underscores and with blanks around it, and four
names stand for others. Normalising gives all spellings of a name one form, the name itself or the one that it stands
for (`normalizeKey_spellings`), so that a configuration is read the same however its keys are spelled
(`ofDocument_respelled`).
-/

namespace RuleFlow.Config

open RuleFlow.Document (Reader)
open Text (isBlank isBlankByte trim IsTrimmed)

variable {b c : UInt8} {t t' key name written : Text}

/-! ## Spellings and normal forms -/

/-- The same byte, the same letter in the other case, or a hyphen and an underscore. -/
inductive SameByte : UInt8 → UInt8 → Prop
  | self (b : UInt8) : SameByte b b
  | small {b : UInt8} : 65 ≤ b → b ≤ 90 → SameByte b (b + 32)
  | capital {b : UInt8} : 65 ≤ b → b ≤ 90 → SameByte (b + 32) b
  | underscore : SameByte 45 95
  | hyphen : SameByte 95 45

/-- The texts differ at most in the case of letters, in hyphens for underscores and in the blanks around them. -/
inductive SameSpelling : Text → Text → Prop
  | padded {before core after before' core' after' : Text} : isBlank before → isBlank after → isBlank before' →
      isBlank after' →
      List.Forall₂ SameByte core core' → SameSpelling (before ++ core ++ after) (before' ++ core' ++ after')

/-- What may be written for a name: the name itself, or a second name of it. -/
def StandsFor (written name : Text) : Prop := written = name ∨ (written, name) ∈ aliases

/-- Trimmed, without capitals and hyphens. -/
structure IsPlain (t : Text) : Prop where
  trimmed : IsTrimmed t
  no_capital : ∀ b ∈ t, ¬ (65 ≤ b ∧ b ≤ 90)
  no_hyphen : 45 ∉ t

def secondNames : List Text := ["output", "output_directory", "format", "traces_file"]

/-- Plain, and no second name of a key. -/
structure IsNormal (t : Text) : Prop extends IsPlain t where
  no_second : t ∉ secondNames

/-! ## Bytes -/

/-- The small letter of a capital, an underscore for a hyphen, and any other byte itself. -/
def plainByte (b : UInt8) : UInt8 := underscoreByte (Text.lowerByte b)

theorem plainByte_of_capital (hlow : 65 ≤ b) (hhigh : b ≤ 90) : plainByte b = b + 32 := by
  have hne : b + 32 ≠ 45 := by grind
  simp [plainByte, underscoreByte, Text.lowerByte, hlow, hhigh, hne]

theorem plainByte_eq_self (hcapital : ¬ (65 ≤ b ∧ b ≤ 90)) (hhyphen : b ≠ 45) : plainByte b = b := by
  simp [plainByte, underscoreByte, Text.lowerByte, hcapital, hhyphen]

theorem plainByte_cases (b : UInt8) :
    (65 ≤ b ∧ b ≤ 90) ∧ plainByte b = b + 32 ∨ b = 45 ∧ plainByte b = 95 ∨
      ¬ (65 ≤ b ∧ b ≤ 90) ∧ b ≠ 45 ∧ plainByte b = b := by
  by_cases hcapital : 65 ≤ b ∧ b ≤ 90
  · exact .inl ⟨hcapital, plainByte_of_capital hcapital.1 hcapital.2⟩
  · by_cases hhyphen : b = 45
    · subst hhyphen
      exact .inr (.inl ⟨rfl, rfl⟩)
    · exact .inr (.inr ⟨hcapital, hhyphen, plainByte_eq_self hcapital hhyphen⟩)

theorem not_capital_plainByte (b : UInt8) : ¬ (65 ≤ plainByte b ∧ plainByte b ≤ 90) := by
  rcases plainByte_cases b with ⟨_, h⟩ | ⟨_, h⟩ | ⟨_, _, h⟩ <;> rw [h] <;> grind

theorem plainByte_ne_hyphen (b : UInt8) : plainByte b ≠ 45 := by
  rcases plainByte_cases b with ⟨_, h⟩ | ⟨_, h⟩ | ⟨_, _, h⟩ <;> rw [h] <;> grind

theorem isBlankByte_plainByte (b : UInt8) : isBlankByte (plainByte b) = isBlankByte b := by
  rcases plainByte_cases b with ⟨_, h⟩ | ⟨rfl, _⟩ | ⟨_, _, h⟩
  · rw [h]
    grind [isBlankByte]
  · rfl
  · rw [h]

theorem SameByte.plainByte_eq (h : SameByte b c) : plainByte b = plainByte c := by
  have hsmall {b : UInt8} (hlow : 65 ≤ b) (hhigh : b ≤ 90) : plainByte (b + 32) = plainByte b := by
    rw [plainByte_of_capital hlow hhigh]
    exact plainByte_eq_self (by grind) (by grind)
  cases h with
  | self => rfl
  | small hlow hhigh => exact (hsmall hlow hhigh).symm
  | capital hlow hhigh => exact hsmall hlow hhigh
  | underscore => rfl
  | hyphen => rfl

theorem sameByte_of_plainByte_eq (h : plainByte b = plainByte c) : SameByte b c := by
  rcases plainByte_cases b with ⟨hb, hplain⟩ | ⟨rfl, hplain⟩ | ⟨-, -, hplain⟩ <;>
    rcases plainByte_cases c with ⟨hc, hplain'⟩ | ⟨rfl, hplain'⟩ | ⟨-, -, hplain'⟩ <;>
      have hsame := hplain.symm.trans (h.trans hplain')
  · obtain rfl : b = c := by simpa using hsame
    exact .self b
  -- no capital has an underscore for its small letter
  · grind
  · exact hsame ▸ .small hb.1 hb.2
  · grind
  · exact .self 45
  · exact hsame ▸ .underscore
  · exact hsame ▸ .capital hc.1 hc.2
  · exact hsame ▸ .hyphen
  · exact hsame ▸ .self b

theorem sameByte_iff : SameByte b c ↔ plainByte b = plainByte c := ⟨SameByte.plainByte_eq, sameByte_of_plainByte_eq⟩

theorem forall₂_sameByte_iff : List.Forall₂ SameByte t t' ↔ t.map plainByte = t'.map plainByte := by
  rw [← List.forall₂_eq_eq_eq, List.forall₂_map_left_iff, List.forall₂_map_right_iff]
  exact ⟨List.Forall₂.imp fun _ _ => sameByte_iff.mp, List.Forall₂.imp fun _ _ => sameByte_iff.mpr⟩

/-! ## Plain keys -/

/-- The key as it is looked up among the second names. -/
def plain (key : Text) : Text := (Text.lower (trim key)).map underscoreByte

theorem plain_eq_map_trim (key : Text) : plain key = (trim key).map plainByte := by
  rw [plain, Text.lower, List.map_map]
  rfl

theorem plain_eq_trim_map (key : Text) : plain key = trim (key.map plainByte) := by
  rw [Text.trim_map isBlankByte_plainByte, plain_eq_map_trim]

theorem isPlain_plain (key : Text) : IsPlain (plain key) where
  trimmed := by
    rw [plain_eq_trim_map]
    exact Text.isTrimmed_trim _
  no_capital b hb := by
    rw [plain_eq_map_trim] at hb
    obtain ⟨c, -, rfl⟩ := List.mem_map.mp hb
    exact not_capital_plainByte c
  no_hyphen h := by
    rw [plain_eq_map_trim] at h
    obtain ⟨c, -, hc⟩ := List.mem_map.mp h
    exact plainByte_ne_hyphen c hc

theorem IsPlain.plain_eq_self (h : IsPlain t) : plain t = t := by
  have hbyte : ∀ b ∈ t, plainByte b = b := fun b hb =>
    plainByte_eq_self (h.no_capital b hb) fun hhyphen => h.no_hyphen (hhyphen ▸ hb)
  rw [plain_eq_trim_map, List.map_congr_left hbyte, List.map_id', Text.trim_eq_self h.trimmed]

theorem isPlain_iff : IsPlain t ↔ plain t = t := ⟨IsPlain.plain_eq_self, fun h => h ▸ isPlain_plain t⟩

instance (t : Text) : Decidable (IsPlain t) := decidable_of_iff _ isPlain_iff.symm

/-- Bytes are made plain one by one, so that the blanks around a key may be left out first or at the end. -/
theorem sameSpelling_iff : SameSpelling t t' ↔ plain t = plain t' := by
  constructor
  · intro h
    cases h with
    | padded hbefore hafter hbefore' hafter' hbytes =>
        have hblank {t : Text} (h : isBlank t) : isBlank (t.map plainByte) :=
          (Text.isBlank_map isBlankByte_plainByte).mpr h
        simp only [plain_eq_trim_map, List.map_append]
        rw [Text.trim_surrounded (hblank hbefore) (hblank hafter),
          Text.trim_surrounded (hblank hbefore') (hblank hafter'),
          forall₂_sameByte_iff.mp hbytes]
  · intro h
    obtain ⟨before, after, hbefore, hafter, hsplit⟩ := Text.exists_padding t
    obtain ⟨before', after', hbefore', hafter', hsplit'⟩ := Text.exists_padding t'
    have hbytes : List.Forall₂ SameByte (trim t) (trim t') := by
      rwa [forall₂_sameByte_iff, ← plain_eq_map_trim, ← plain_eq_map_trim]
    rw [hsplit, hsplit']
    exact .padded hbefore hafter hbefore' hafter' hbytes

instance (t t' : Text) : Decidable (SameSpelling t t') := decidable_of_iff _ sameSpelling_iff.symm

theorem sameSpelling_plain (key : Text) : SameSpelling (plain key) key :=
  sameSpelling_iff.mpr (isPlain_plain key).plain_eq_self

/-! ## Normal forms -/

theorem normalizeKey_eq (key : Text) : normalizeKey key = (aliases.lookup (plain key)).getD (plain key) := rfl

theorem SameSpelling.normalizeKey_eq (h : SameSpelling t t') : normalizeKey t = normalizeKey t' := by
  rw [Config.normalizeKey_eq, Config.normalizeKey_eq, sameSpelling_iff.mp h]

theorem lookup_aliases_eq_some_iff : aliases.lookup written = some name ↔ (written, name) ∈ aliases :=
  lookup_eq_some_iff_mem (by decide)

theorem lookup_aliases_eq_none_iff : aliases.lookup written = none ↔ written ∉ secondNames := by
  simp [List.lookup_eq_none_iff, aliases, secondNames]

theorem isNormal_iff : IsNormal t ↔ IsPlain t ∧ aliases.lookup t = none := by
  rw [lookup_aliases_eq_none_iff]
  exact ⟨fun h => ⟨h.toIsPlain, h.no_second⟩, fun h => ⟨h.1, h.2⟩⟩

instance (t : Text) : Decidable (IsNormal t) := decidable_of_iff _ isNormal_iff.symm

/-- Second names are looked up as they are, and what they stand for is not looked up again. -/
theorem isPlain_and_isNormal_of_mem_aliases : ∀ entry ∈ aliases, IsPlain entry.1 ∧ IsNormal entry.2 := by decide

/-- Exactly the spellings of a name and of its second names have it as their normal form. -/
theorem normalizeKey_eq_iff :
    normalizeKey key = name ↔
      IsNormal name ∧ ∃ written, StandsFor written name ∧ SameSpelling written key := by
  constructor
  · rintro rfl
    rw [normalizeKey_eq]
    cases hlookup : aliases.lookup (plain key) with
    | none => exact ⟨isNormal_iff.mpr ⟨isPlain_plain key, hlookup⟩, plain key, .inl rfl, sameSpelling_plain key⟩
    | some name =>
        have hmem := lookup_aliases_eq_some_iff.mp hlookup
        exact ⟨(isPlain_and_isNormal_of_mem_aliases _ hmem).2, plain key, .inr hmem, sameSpelling_plain key⟩
  · rintro ⟨hnormal, written, hstands, hspelling⟩
    rw [← hspelling.normalizeKey_eq, normalizeKey_eq]
    rcases hstands with rfl | hmem
    · rw [hnormal.plain_eq_self, (isNormal_iff.mp hnormal).2]
      rfl
    · rw [(isPlain_and_isNormal_of_mem_aliases _ hmem).1.plain_eq_self, lookup_aliases_eq_some_iff.mpr hmem]
      rfl

theorem IsNormal.normalizeKey_eq_self (h : IsNormal name) : normalizeKey name = name :=
  normalizeKey_eq_iff.mpr ⟨h, name, .inl rfl, sameSpelling_iff.mpr rfl⟩

/-- The normal form of a key is its own normal form, and it stays the same for every other spelling of the key. It is
trimmed, has neither capitals nor hyphens, and is no second name. The keys that have a given normal form are exactly the
spellings of it and of its second names. -/
theorem normalizeKey_spellings (key : Text) :
    normalizeKey (normalizeKey key) = normalizeKey key ∧
    (∀ key', SameSpelling key key' → normalizeKey key' = normalizeKey key) ∧
    IsNormal (normalizeKey key) ∧
    ∀ name, normalizeKey key = name ↔ IsNormal name ∧ ∃ written, StandsFor written name ∧ SameSpelling written key := by
  have hnormal : IsNormal (normalizeKey key) := (normalizeKey_eq_iff.mp rfl).1
  exact ⟨hnormal.normalizeKey_eq_self, fun _ h => h.normalizeKey_eq.symm, hnormal, fun _ => normalizeKey_eq_iff⟩

/-- A second name in two spellings, which differ in every way that is left open. -/
theorem normalizeKey_spellings_output :
    SameSpelling "Output-Directory" "\toutput_DIRECTORY " ∧
      normalizeKey "\toutput_DIRECTORY " = normalizeKey "Output-Directory" ∧
      normalizeKey "Output-Directory" = "out" := by
  have hspelling : SameSpelling "Output-Directory" "\toutput_DIRECTORY " := by decide +kernel
  exact ⟨hspelling, (normalizeKey_spellings "Output-Directory").2.1 _ hspelling, by decide +kernel⟩

/-! ## Configurations -/

theorem Key.isNormal_name (key : Key) : IsNormal key.name := by cases key <;> decide

/-- What may be written for a key. -/
theorem Key.ofText?_eq_some_iff_spelled {key : Key} :
    Key.ofText? t = some key ↔ ∃ written, StandsFor written key.name ∧ SameSpelling written t := by
  rw [Key.ofText?_eq_some_iff, normalizeKey_eq_iff, and_iff_right key.isNormal_name]

theorem SameSpelling.ofText?_eq (h : SameSpelling t t') : Key.ofText? t = Key.ofText? t' := by
  rw [Key.ofText?, Key.ofText?, h.normalizeKey_eq]

theorem applyEntry_respelled (reader : Reader) (o : Options) (h : SameSpelling t t') (value : Document) :
    SameOutcome (applyEntry reader o (t, value)) (applyEntry reader o (t', value)) := by
  unfold applyEntry
  rw [h.ofText?_eq]
  cases Key.ofText? t' with
  | none => exact .error _ _
  | some key => exact .refl _

/-- Other spellings of its keys leave a configuration as it is read. -/
theorem ofDocument_respelled (reader : Reader) {entries entries' : List (Text × Document)}
    (h : List.Forall₂ (fun entry entry' => SameSpelling entry.1 entry'.1 ∧ entry.2 = entry'.2) entries entries') :
    SameOutcome (ofDocument reader (.mapping entries)) (ofDocument reader (.mapping entries')) := by
  refine SameOutcome.foldlM_forall₂ h ?_ ({} : Options)
  rintro ⟨t, value⟩ - ⟨t', value'⟩ o ⟨hspelling, rfl⟩
  exact applyEntry_respelled reader o hspelling value

end RuleFlow.Config
