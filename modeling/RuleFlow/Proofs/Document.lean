import RuleFlow.Document
import RuleFlow.Proofs.Json.Value
import RuleFlow.Proofs.Keyed

/-!
# Documents are read as they were written

A document has a JSON form, with each of its texts as a string, and is loaded from that form again. What stands under
the keys of a mapping does not depend on the order of its entries.
-/

namespace RuleFlow.Document

variable {d value : Document} {entries : List (Text × Document)} {key : Text}

/-! ## JSON -/

mutual
/-- The JSON value that writes the document. -/
def toJson : Document → Json
  | null => .null
  | scalar t => .string t
  | sequence items => .array (toItems items)
  | mapping entries => .object (toMembers entries)

def toItems : List Document → List Json
  | [] => []
  | d :: rest => toJson d :: toItems rest

def toMembers : List (Text × Document) → List (Text × Json)
  | [] => []
  | (k, d) :: rest => (k, toJson d) :: toMembers rest
end

mutual
theorem ofJson_toJson : (d : Document) → ofJson d.toJson = d
  | null => rfl
  | scalar _ => rfl
  | sequence items => by rw [toJson, ofJson, ofItems_toItems items]
  | mapping entries => by rw [toJson, ofJson, ofMembers_toMembers entries]

theorem ofItems_toItems : (items : List Document) → ofItems (toItems items) = items
  | [] => rfl
  | d :: rest => by rw [toItems, ofItems, ofJson_toJson d, ofItems_toItems rest]

theorem ofMembers_toMembers : (entries : List (Text × Document)) → ofMembers (toMembers entries) = entries
  | [] => rfl
  | (k, d) :: rest => by rw [toMembers, ofMembers, ofJson_toJson d, ofMembers_toMembers rest]
end

mutual
theorem numbers_toJson : (d : Document) → d.toJson.numbers = []
  | null => rfl
  | scalar _ => rfl
  | sequence items => by rw [toJson, Json.numbers, numbersOfItems_toItems items]
  | mapping entries => by rw [toJson, Json.numbers, numbersOfMembers_toMembers entries]

theorem numbersOfItems_toItems : (items : List Document) → Json.numbersOfItems (toItems items) = []
  | [] => rfl
  | d :: rest => by rw [toItems, Json.numbersOfItems, numbers_toJson d, numbersOfItems_toItems rest, List.nil_append]

theorem numbersOfMembers_toMembers : (entries : List (Text × Document)) → Json.numbersOfMembers (toMembers entries) = []
  | [] => rfl
  | (_, d) :: rest => by
      rw [toMembers, Json.numbersOfMembers, numbers_toJson d, numbersOfMembers_toMembers rest, List.nil_append]
end

theorem loadJson_render_toJson (d : Document) : loadJson d.toJson.render = .ok d := by
  have hparse : Json.parse d.toJson.render = some d.toJson :=
    Json.parse_render (by simp [Json.AllNumbers, numbers_toJson])
  obtain ⟨b, t, htext, hb, -⟩ := Json.render_head (j := d.toJson) (by simp [Json.Spelled, numbers_toJson])
  have hblank : (Json.skipBlanks d.toJson.render).isEmpty = false := by
    rw [htext, Json.skipBlanks_cons hb, List.isEmpty_cons]
  rw [loadJson, hblank, if_neg Bool.false_ne_true, hparse]
  exact congrArg Except.ok d.ofJson_toJson

/-! ## Entries -/

/-- A mapping of these entries, in any order. -/
def HasEntries (d : Document) (entries : List (Text × Document)) : Prop :=
  ∃ given, d = mapping given ∧ given.Perm entries

theorem HasEntries.isMapping (h : d.HasEntries entries) : ∃ given, d = mapping given := by
  obtain ⟨given, hd, -⟩ := h
  exact ⟨given, hd⟩

/-- Where no key comes twice, each entry is found under its key. -/
theorem HasEntries.get?_eq (h : d.HasEntries entries) (hkeys : (entries.map Prod.fst).Nodup)
    (hmem : (key, value) ∈ entries) :
    d.get? key = some value := by
  obtain ⟨given, rfl, hperm⟩ := h
  have hgiven : (given.map Prod.fst).Nodup := (hperm.map Prod.fst).nodup_iff.mpr hkeys
  exact (lookup_eq_some_iff_mem hgiven).mpr (hperm.mem_iff.mpr hmem)

theorem HasEntries.given?_eq (h : d.HasEntries entries) (hkeys : (entries.map Prod.fst).Nodup)
    (hmem : (key, value) ∈ entries)
    (hnull : value ≠ null) : d.given? key = some value := by
  rw [Document.given?, h.get?_eq hkeys hmem]
  cases value with
  | null => exact absurd rfl hnull
  | scalar | sequence | mapping => rfl

end RuleFlow.Document
