import RuleFlow.Parser.Data
import RuleFlow.Proofs.Json.Access
import RuleFlow.Proofs.Json.Value

/-!
# Findings as JSON

Findings whose numbers are finite are an object that is read back, with a member for each name. The members are in byte
order of the names as they are, not as they are escaped, and each one shows its finding (`Shows`): a number by some
numeral, all else unchanged.
-/

namespace RuleFlow.Parser

open Json (AllNumbers Token)

/-- What stands for a finding in JSON. -/
inductive Shows : Value → Json → Prop
  | text (t : Text) : Shows (.text t) (.string t)
  | number {x : Float} {token : Text} : Token token → Shows (.number x) (.number token)
  | flag (b : Bool) : Shows (.flag b) (.bool b)
  | texts (ts : List Text) : Shows (.texts ts) (.array (ts.map .string))

namespace Data

variable {data : Data} {value : Value}

/-- All numbers among the findings are finite. -/
def Finite (data : Data) : Prop := ∀ (name : Text) (x : Float), data[name]? = some (.number x) → x.isFinite

theorem finite_empty : (∅ : Data).Finite := by
  simp [Finite]

theorem Finite.insert (h : data.Finite) (name : Text) (hvalue : ∀ x, value = .number x → x.isFinite) :
    Finite (data.insert name value) := by
  intro other x hx
  rw [Std.ExtTreeMap.getElem?_insert] at hx
  split at hx
  · exact hvalue x (Option.some.inj hx)
  · exact h other x hx

theorem allNumbers_toJson {p : Text → Prop} : data.toJson.AllNumbers p ↔
    ∀ (name : Text) (x : Float), data[name]? = some (.number x) → p (renderNumber x) := by
  simp only [toJson, Json.allNumbers_object_map]
  constructor
  · intro h name x hx
    simpa [Value.toJson] using h (name, .number x) (Std.ExtTreeMap.mem_toList_iff_getElem?_eq_some.mpr hx)
  · rintro h ⟨name, value⟩ hmem
    cases value with
    | number x => simpa [Value.toJson] using h name x (Std.ExtTreeMap.mem_toList_iff_getElem?_eq_some.mp hmem)
    | text t => simp [Value.toJson]
    | flag b => simp [Value.toJson]
    | texts ts => simp [Value.toJson]

theorem parse_toJson (h : data.Finite) : Json.parse data.toJson.render = some data.toJson :=
  Json.parse_render (allNumbers_toJson.mpr fun name x hx => Json.token_significant (h name x hx))

theorem member?_toJson (data : Data) (name : Text) : data.toJson.member? name = data[name]?.map Value.toJson :=
  lookup_toList_map data Value.toJson name

theorem Finite.shows (h : data.Finite) {name : Text} (hvalue : data[name]? = some value) :
    Shows value value.toJson := by
  cases value with
  | text t => exact .text t
  | number x => exact .number (Json.token_significant (h name x hvalue))
  | flag b => exact .flag b
  | texts ts => exact .texts ts

/-- Findings with finite numbers are written as an object. It has the names of the findings, in byte order and each
once, and shows under each name what was found. -/
theorem parse_toJson_shows (h : data.Finite) :
    ∃ members, Json.parse data.toJson.render = some (.object members) ∧
      (members.map Prod.fst).Pairwise (fun a b => Text.order a b = .lt) ∧
      (∀ name, name ∈ members.map Prod.fst ↔ name ∈ data) ∧
      ∀ name, Option.Rel Shows data[name]? ((Json.object members).member? name) := by
  obtain ⟨members, hmembers, hkeys⟩ : ∃ members, data.toJson = .object members ∧ members.map Prod.fst = data.keys := by
    refine ⟨_, rfl, ?_⟩
    rw [List.map_map, ← Std.ExtTreeMap.map_fst_toList_eq_keys]
    rfl
  rw [parse_toJson h, hmembers]
  refine ⟨members, rfl, ?_, ?_, ?_⟩
  · rw [hkeys]
    exact Std.ExtTreeMap.ordered_keys
  · intro name
    rw [hkeys, Std.ExtTreeMap.mem_keys]
  · intro name
    rw [← hmembers, member?_toJson]
    cases hvalue : data[name]? with
    | none => exact .none
    | some value => exact .some (h.shows hvalue)

theorem parse_toJson_shows_odd_texts :
    let data : Data := ((∅ : Data).insert "\"" (.texts ["", "a\"b"])).insert confidenceName (.number 0.5)
    ∃ members, Json.parse data.toJson.render = some (.object members) ∧
      (∀ name, name ∈ members.map Prod.fst ↔ name ∈ data) ∧
      Option.Rel Shows data[Text.ofString "\""]? ((Json.object members).member? "\"") := by
  intro data
  have htexts : ∀ x, Value.texts ["", "a\"b"] = .number x → x.isFinite := by simp
  have hnumber : ∀ x, Value.number 0.5 = .number x → x.isFinite := by
    rintro _ ⟨⟩
    decide +kernel
  obtain ⟨members, hparse, -, hnames, hshows⟩ :=
    parse_toJson_shows ((finite_empty.insert "\"" htexts).insert confidenceName hnumber)
  exact ⟨members, hparse, hnames, hshows "\""⟩

end Data

end RuleFlow.Parser
