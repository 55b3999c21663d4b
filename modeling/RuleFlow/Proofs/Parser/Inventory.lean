import RuleFlow.Parser.Inventory
import RuleFlow.Proofs.Parser.Data

/-!
# What the inventory parser shows

The parser counts in doubles, which is exact below `2 ^ 53`. Its JSON text then shows the numbers of bytes and lines
with six significant digits, so the numbers themselves are shown exactly if only zeros follow their first six digits.
-/

namespace RuleFlow.Parser.Inventory

open RuleFlow.Text (ofNat)
open Decimal (roundedTo)

variable {technology file content : Text}

/-! ## Counting -/

/-- The number of line feeds, and one more for bytes after the last of them. -/
def lineCount (content : Text) : Nat := content.count 10 + if content ≠ [] ∧ content.getLast? ≠ some 10 then 1 else 0

theorem lineCount_le_length (content : Text) : lineCount content ≤ content.length := by
  rcases List.eq_nil_or_concat content with rfl | ⟨front, b, rfl⟩
  · simp [lineCount]
  · have hfront : front.count 10 ≤ front.length := List.count_le_length
    by_cases hb : b = 10
    · simp [lineCount, hb, hfront]
    · simp [lineCount, hb, hfront]

/-- The counts are those of the bytes that are read. -/
structure Counts.Exact (c : Counts) (read : Text) : Prop where
  size : c.size = read.length.toFloat
  ended : c.ended = (read.count 10).toFloat
  atLineStart : c.atLineStart = read.getLast?.all (· == 10)

theorem Counts.exact_init : Counts.Exact {} [] where
  size := rfl
  ended := rfl
  atLineStart := rfl

theorem Counts.Exact.next {c : Counts} {read : Text} (h : c.Exact read) (hlength : read.length + 1 < 2 ^ 53)
    (b : UInt8) :
    (c.next b).Exact (read ++ [b]) where
  size := by
    rw [List.length_append, List.length_singleton, ← Number.toFloat_add_one hlength, ← h.size]
    rfl
  ended := by
    have hcount : read.count 10 + 1 < 2 ^ 53 := Nat.lt_of_le_of_lt (Nat.succ_le_succ List.count_le_length) hlength
    rw [List.count_append, List.count_singleton]
    unfold Counts.next
    dsimp only
    split
    · rw [h.ended, Number.toFloat_add_one hcount]
    · exact h.ended
  atLineStart := by simp [Counts.next]

theorem Counts.Exact.foldl {c : Counts} {read : Text} (h : c.Exact read) (hlength : (read ++ content).length < 2 ^ 53) :
    (content.foldl Counts.next c).Exact (read ++ content) := by
  -- a byte moves from what is left to what is read, and the bound is on both together
  induction content generalizing c read with
  | nil => simpa using h
  | cons b content ih =>
      rw [List.append_cons] at hlength ⊢
      refine ih (h.next ?_ b) hlength
      simp only [List.length_append, List.length_singleton] at hlength
      omega

theorem exact_count (hlength : content.length < 2 ^ 53) : (count content).Exact content :=
  Counts.exact_init.foldl hlength

theorem lines_count (hlength : content.length < 2 ^ 53) : (count content).lines = (lineCount content).toFloat := by
  have h := exact_count hlength
  have hlines := lineCount_le_length content
  have hopen : (count content).atLineStart = false ↔ content ≠ [] ∧ content.getLast? ≠ some 10 := by
    rw [h.atLineStart]
    rcases List.eq_nil_or_concat content with rfl | ⟨front, b, rfl⟩ <;> simp
  unfold lineCount at hlines ⊢
  unfold Counts.lines
  cases hstart : (count content).atLineStart with
  | true =>
      rw [if_neg (hopen.not.mp (by simp [hstart])), if_pos rfl, h.ended, Nat.add_zero]
  | false =>
      rw [if_pos (hopen.mp hstart)] at hlines ⊢
      rw [if_neg Bool.false_ne_true, h.ended, Number.toFloat_add_one (by omega)]

/-! ## Findings -/

variable (technology file content)

theorem size_findings :
    (findings technology file content)[Text.ofString "size_bytes"]? = some (.number (count content).size) := by
  unfold findings
  dsimp only
  split
  · simp only [Std.ExtTreeMap.getElem?_insert]
    rfl
  · simp only [Std.ExtTreeMap.getElem?_insert]
    rfl

theorem lines_findings :
    (findings technology file content)[Text.ofString "line_count"]? = some (.number (count content).lines) := by
  unfold findings
  dsimp only
  split
  · simp only [Std.ExtTreeMap.getElem?_insert]
    rfl
  · simp only [Std.ExtTreeMap.getElem?_insert]
    rfl

theorem finite_findings (hlength : content.length < 2 ^ 53) : (findings technology file content).Finite := by
  have hlines : (count content).lines.isFinite :=
    lines_count hlength ▸ Number.isFinite_toFloat (Nat.lt_of_le_of_lt (lineCount_le_length content) hlength)
  have hsize : (count content).size.isFinite := (exact_count hlength).size ▸ Number.isFinite_toFloat hlength
  have hconfidence : (if (count content).isEmpty then emptyConfidence else confidence).isFinite := by
    split
    · decide +kernel
    · decide +kernel
  have htext : ∀ t x, Value.text t = .number x → x.isFinite := by simp
  have hflag : ∀ b x, Value.flag b = .number x → x.isFinite := by simp
  have hnumber : ∀ y : Float, y.isFinite → ∀ x, Value.number y = .number x → x.isFinite := by
    rintro y hy x ⟨⟩
    exact hy
  have hnames :=
    (Data.finite_empty.insert "file_name" (htext (Path.fileName file))).insert "extension" (htext (Path.extension file))
  have hcounts := ((hnames.insert "line_count" (hnumber _ hlines)).insert "size_bytes" (hnumber _ hsize)).insert "empty"
    (hflag (count content).isEmpty)
  have hfacts := hcounts.insert confidenceName (hnumber _ hconfidence)
  unfold findings
  dsimp only
  split
  · exact hfacts
  · exact hfacts.insert "technology" (htext technology)

/-! ## The numbers of the text -/

/-- The number that a JSON text has under a name. -/
def shown? (name text : Text) : Option ℚ := do
  let j ← Json.parse text
  let v ← j.member? name
  v.number?

variable {technology file content}

theorem shown?_toJson {data : Data} {name : Text} {n : Nat} (hdata : data.Finite)
    (hname : data[name]? = some (.number n.toFloat))
    (hn : n < 2 ^ 53) : shown? name data.toJson.render = some (roundedTo 6 n : ℚ) := by
  unfold shown?
  rw [Data.parse_toJson hdata, Option.bind_eq_bind, Option.bind_some, Data.member?_toJson, hname, Option.map_some,
    Option.bind_some]
  exact Json.number?_significant (by decide) hn

theorem shown?_size (hlength : content.length < 2 ^ 53) :
    shown? "size_bytes" (findings technology file content).toJson.render = some (roundedTo 6 content.length : ℚ) :=
  shown?_toJson (finite_findings technology file content hlength)
    ((exact_count hlength).size ▸ size_findings technology file content) hlength

theorem shown?_lines (hlength : content.length < 2 ^ 53) :
    shown? "line_count" (findings technology file content).toJson.render = some (roundedTo 6 (lineCount content) : ℚ) :=
  shown?_toJson (finite_findings technology file content hlength)
    (lines_count hlength ▸ lines_findings technology file content)
      (Nat.lt_of_le_of_lt (lineCount_le_length content) hlength)

/-- A file that can be opened is shown with its numbers of bytes and lines rounded to six significant digits. So a
number is shown as it is exactly if only zeros follow its first six digits. -/
theorem shown?_attempt {read? : Text → Option Text} (hread : read? file = some content)
    (hlength : content.length < 2 ^ 53) :
    ∃ data, attempt read? technology file = .found data ∧
      let size := content.length
      let lines := lineCount content
      let text := data.toJson.render
      shown? "size_bytes" text = some (roundedTo 6 size : ℚ) ∧
      shown? "line_count" text = some (roundedTo 6 lines : ℚ) ∧
      (shown? "size_bytes" text = some (size : ℚ) ↔ 10 ^ ((ofNat size).length - 6) ∣ size) ∧
      (shown? "line_count" text = some (lines : ℚ) ↔ 10 ^ ((ofNat lines).length - 6) ∣ lines) := by
  refine ⟨findings technology file content, by rw [attempt, hread], ?_⟩
  intro size lines text
  have hsize : shown? "size_bytes" text = _ := shown?_size hlength
  have hlines : shown? "line_count" text = _ := shown?_lines hlength
  refine ⟨hsize, hlines, ?_, ?_⟩
  · rw [hsize, Option.some_inj, Nat.cast_inj]
    exact Decimal.roundedTo_eq_iff 6 size
  · rw [hlines, Option.some_inj, Nat.cast_inj]
    exact Decimal.roundedTo_eq_iff 6 lines

theorem shown?_attempt_open_line : ∃ data, attempt (fun _ => some "a\nb") "java" "a" = .found data ∧
    shown? "size_bytes" data.toJson.render = some 3 ∧ shown? "line_count" data.toJson.render = some 2 := by
  obtain ⟨data, hdata, hsize, hlines, -⟩ := @shown?_attempt "java" "a" "a\nb" (fun _ => some "a\nb") rfl (by decide)
  exact ⟨data, hdata, hsize, hlines⟩

/-- The last byte of a file of 1000001 bytes is not shown. -/
theorem shown?_size_of_large_file :
    let content : Text := List.replicate 1000001 97
    ∃ data, attempt (fun _ => some content) "java" "a" = .found data ∧
      content.length = 1000001 ∧ shown? "size_bytes" data.toJson.render = some 1000000 := by
  intro content
  have hlength : content.length = 1000001 := List.length_replicate
  have hrounded : roundedTo 6 1000001 = 1000000 := by decide
  refine ⟨findings "java" "a" content, rfl, hlength, ?_⟩
  rw [shown?_size (by omega), hlength, hrounded]
  rfl

end RuleFlow.Parser.Inventory
