import RuleFlow.Proofs.Keyed
import RuleFlow.Proofs.Number.Significant

/-!
# Looking into documents

A reader of a document looks up members by name and takes the value of a kind out of each. It depends on neither the
order of members nor the spelling of strings and numbers.
-/

namespace RuleFlow

/-- The items of a map are looked up as in the map. -/
theorem lookup_toList_map {α β : Type} (m : Text.Map α) (f : α → β) (name : Text) :
    (m.toList.map fun (key, a) => (key, f a)).lookup name = m[name]?.map f := by
  have hkeys : ((m.toList.map fun (key, a) => (key, f a)).map Prod.fst).Nodup := by
    have hnodup := Std.ExtTreeMap.nodup_keys (t := m)
    rw [← Std.ExtTreeMap.map_fst_toList_eq_keys] at hnodup
    rwa [List.map_map]
  ext b
  rw [lookup_eq_some_iff_mem hkeys]
  simp [Std.ExtTreeMap.mem_toList_iff_getElem?_eq_some]

theorem mapM_map_of_read {α β γ : Type} {write : α → β} {read : β → Option γ} {seen : α → γ}
    (h : ∀ a, read (write a) = some (seen a)) (as : List α) : (as.map write).mapM read = some (as.map seen) := by
  induction as with
  | nil => rfl
  | cons a as ih => simp [h, ih]

namespace Json

def member? (name : Text) : Json → Option Json
  | object members => members.lookup name
  | _ => none

def items? : Json → Option (List Json)
  | array items => some items
  | _ => none

def text? : Json → Option Text
  | string t => some t
  | _ => none

def flag? : Json → Option Bool
  | bool b => some b
  | _ => none

def int? : Json → Option Int
  | number token => Number.readInt? token
  | _ => none

/-- The number that a token stands for. -/
def number? : Json → Option ℚ
  | number token =>
    let (negative, unsigned) := Number.splitSign token
    (Number.readScaled? unsigned).map fun s => if negative then -s.value else s.value
  | _ => none

/-- A text that may be missing. -/
def textOrNull? : Json → Option (Option Text)
  | null => some none
  | string t => some (some t)
  | _ => none

/-- The texts that an array of strings stands for. -/
def texts? (j : Json) : Option (List Text) := j.items?.bind (·.mapM text?)

theorem mapM_text?_map_string (ts : List Text) : (ts.map string).mapM text? = some ts := by
  have htext : ∀ t : Text, (string t).text? = some t := fun _ => rfl
  simpa using mapM_map_of_read htext ts

theorem texts?_strings (ts : List Text) : (strings ts).texts? = some ts := mapM_text?_map_string ts

theorem textOrNull?_ofOption (t : Option Text) : (ofOption t).textOrNull? = some t := by
  cases t <;> rfl

theorem int?_int (n : Int) : (int n).int? = some n := Text.readInt?_ofInt n

theorem number?_significant {count n : Nat} (hcount : 0 < count) (hn : n < 2 ^ 53) :
    (number (Decimal.significant count n.toFloat)).number? = some (Decimal.roundedTo count n : ℚ) := by
  obtain ⟨s, hs, hvalue⟩ := Decimal.readScaled?_significant hcount hn
  -- what is read as a decimal has no sign
  have hsign : Number.splitSign (Decimal.significant count n.toFloat) =
      (false, Decimal.significant count n.toFloat) := by
    generalize Decimal.significant count n.toFloat = t at hs
    unfold Number.splitSign
    split
    · cases hs
    · cases hs
    · rfl
  simp [number?, hsign, hs, hvalue]

end Json

end RuleFlow
