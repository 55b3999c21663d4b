import RuleFlow.Log
import RuleFlow.Proofs.Calendar
import RuleFlow.Proofs.Json.Value

/-!
# Lines of a log

The message of an entry is written as it is, and its fields as the members of an object, all of them strings. No byte
below 32 comes out of a string, so that an entry with a message of one line is one line of the log, and the fields are
read back from the object (`write_line`).
-/

namespace RuleFlow.Log

variable {fields : List (Text × Text)} {stamp : Text}

/-! ## Fields -/

/-- The text of a member. -/
def renderField (field : Text × Text) : Text := Json.quote field.1 ++ ": " ++ Json.quote field.2

theorem renderFields_eq (fields : List (Text × Text)) :
    renderFields fields = 123 :: (Text.join ", " (fields.map renderField) ++ [125]) := rfl

theorem feed_notMem_renderFields (fields : List (Text × Text)) : 10 ∉ renderFields fields := by
  have hquote : ∀ t, 10 ∉ Json.quote t := fun t h => absurd (Json.le_of_mem_quote h) (by decide)
  have hjoin : 10 ∉ Text.join ", " (fields.map renderField) := by
    refine Table.join_of_append (p := (10 ∉ ·)) (by simp) (fun s t hs ht => ?_) (by decide) ?_
    · simp [hs, ht]
    · rw [List.forall_mem_map]
      intro field _
      simp [renderField, hquote, show (10 : UInt8) ∉ Text.ofString ": " by decide]
  simp [renderFields_eq, hjoin]

theorem two_le_length_renderField (field : Text × Text) : 2 ≤ (renderField field).length := by
  simp [renderField, Json.quote]
  omega

theorem members_fields {fuel : Nat} (hne : fields ≠ [])
    (hfuel : (Text.join ", " (fields.map renderField)).length < fuel)
    (rest : Text) :
    Json.members fuel (Text.join ", " (fields.map renderField) ++ 125 :: rest) =
      some (fields.map fun (k, v) => (k, .string v), rest) := by
  -- one byte of a member pays for reading it, another one for reading its value
  induction fields generalizing fuel with
  | nil => exact absurd rfl hne
  | cons field fields ih =>
      obtain ⟨k, v⟩ := field
      have hlength := two_le_length_renderField (k, v)
      have hfield : ∀ t, renderField (k, v) ++ t = Json.quote k ++ ": " ++ (Json.quote v ++ t) := by simp [renderField]
      cases fields with
      | nil =>
          have hjoin : Text.join ", " (List.map renderField [(k, v)]) = renderField (k, v) := by simp [Text.join]
          rw [hjoin] at hfuel ⊢
          obtain ⟨fuel, rfl⟩ : ∃ n, fuel = n + 2 := ⟨fuel - 2, by omega⟩
          rw [hfield]
          exact Json.members_last (Json.value_quote v (125 :: rest)) k
      | cons next fields =>
          have hjoin : Text.join ", " (((k, v) :: next :: fields).map renderField) =
              renderField (k, v) ++ 44 :: 32 :: Text.join ", " ((next :: fields).map renderField) := by
            simp [Text.join, List.intercalate_cons_cons, show Text.ofString ", " = [44, 32] by decide]
          rw [hjoin] at hfuel ⊢
          rw [List.length_append, List.length_cons, List.length_cons] at hfuel
          obtain ⟨fuel, rfl⟩ : ∃ n, fuel = n + 2 := ⟨fuel - 2, by omega⟩
          rw [List.append_assoc, hfield, List.cons_append, Json.members_more (Json.value_quote v _) k, List.cons_append,
            Json.members_blank, ih (by simp) (by omega)]
          rfl

theorem parse_renderFields (fields : List (Text × Text)) :
    Json.parse (renderFields fields) = some (.object (fields.map fun (k, v) => (k, .string v))) := by
  cases hfields : fields with
  | nil => rfl
  | cons field others =>
      rw [← hfields]
      obtain ⟨t, ht⟩ : ∃ t, Text.join ", " (fields.map renderField) = 34 :: t := by
        rw [hfields]
        cases others <;> exact ⟨_, rfl⟩
      have hlength : (Text.join ", " (fields.map renderField)).length < (renderFields fields).length := by
        rw [renderFields_eq, List.length_cons, List.length_append]
        omega
      have hmembers := members_fields (by simp [hfields]) hlength []
      have hvalue : Json.value ((renderFields fields).length + 1) (renderFields fields) =
          some (.object (fields.map fun (k, v) => (k, .string v)), []) := by
        rw [ht] at hmembers
        nth_rewrite 2 [renderFields_eq]
        rw [ht, List.cons_append, Json.value_object, ← List.cons_append, hmembers]
        rfl
      rw [Json.parse, hvalue]
      rfl

/-! ## Lines -/

/-- What stands in a line in front of the fields. -/
def front (stamp : Text) (level : Level) (message : Text) : Text :=
  "[" ++ stamp ++ "] level=" ++ level.name ++ " message=\"" ++ message ++ "\" fields="

theorem Entry.line_eq (stamp : Text) (e : Entry) :
    e.line stamp = front stamp e.level e.message ++ renderFields e.fields ++ [10] := rfl

theorem feed_notMem_front {message : Text} (hstamp : 10 ∉ stamp) (hmessage : 10 ∉ message) (level : Level) :
    10 ∉ front stamp level message := by
  have hsigns : (10 : UInt8) ∉ Text.ofString "[" ∧ (10 : UInt8) ∉ Text.ofString "] level=" ∧
      (10 : UInt8) ∉ Text.ofString " message=\"" ∧ (10 : UInt8) ∉ Text.ofString "\" fields=" := by decide
  have hname : 10 ∉ level.name := by cases level <;> decide
  simp [front, hsigns, hname, hstamp, hmessage]

theorem isWhole_write (threshold : Level) (stamp : Text) (e : Entry) : Text.IsWhole (write threshold stamp e) := by
  unfold write
  split
  · exact .inr ⟨_, (e.line_eq stamp).symm⟩
  · exact .inl rfl

/-- The lines of a log are those of its entries. -/
theorem lines_writeAll_append (threshold : Level) (stamp : Text) (es es' : List Entry) :
    Text.lines (writeAll threshold stamp (es ++ es')) =
      Text.lines (writeAll threshold stamp es) ++ Text.lines (writeAll threshold stamp es') := by
  rw [writeAll, List.flatMap_append]
  exact Text.lines_append (Text.isWhole_flatMap (isWhole_write threshold stamp) es) _

theorem lines_write {threshold : Level} {e : Entry} (hadmits : threshold.admits e.level)
    (hline : 10 ∉ front stamp e.level e.message ++ renderFields e.fields) :
    Text.lines (write threshold stamp e) = [front stamp e.level e.message ++ renderFields e.fields] := by
  have hwrite : write threshold stamp e = Text.ofLines [front stamp e.level e.message ++ renderFields e.fields] := by
    rw [write, if_pos hadmits, e.line_eq]
    simp [Text.ofLines]
  rw [hwrite]
  exact Text.lines_ofLines (by simpa using hline)

/-- A log writes nothing of an entry that is less severe than its level. Else it writes one line with one line feed, at
its end: what stands in front of the fields, whatever they are, and an object that is read back as the fields, in order
and each as often as it is given. The line stands by itself between those of other entries. -/
theorem write_line (hstamp : Instant.IsStamp stamp) (threshold : Level) (e : Entry) (hmessage : 10 ∉ e.message) :
    (threshold.rank < e.level.rank → write threshold stamp e = []) ∧
      (e.level.rank ≤ threshold.rank → ∃ object,
        write threshold stamp e = front stamp e.level e.message ++ object ++ [10] ∧
        10 ∉ front stamp e.level e.message ++ object ∧
        Json.parse object = some (.object (e.fields.map fun (k, v) => (k, .string v))) ∧
        ∀ before after, Text.lines (writeAll threshold stamp (before ++ e :: after)) =
          Text.lines (writeAll threshold stamp before) ++
            (front stamp e.level e.message ++ object) :: Text.lines (writeAll threshold stamp after)) := by
  constructor
  · intro hdisabled
    rw [write, if_neg]
    simpa [Level.admits] using hdisabled
  · intro henabled
    have hadmits : threshold.admits e.level := by simpa [Level.admits] using henabled
    have hline : 10 ∉ front stamp e.level e.message ++ renderFields e.fields := by
      rw [List.mem_append, not_or]
      exact ⟨feed_notMem_front hstamp.plain.isCell.oneLine hmessage e.level, feed_notMem_renderFields e.fields⟩
    refine ⟨renderFields e.fields, ?_, hline, parse_renderFields e.fields, fun before after => ?_⟩
    · rw [write, if_pos hadmits, e.line_eq]
    · have hsingle : writeAll threshold stamp [e] = write threshold stamp e := by simp [writeAll]
      rw [← List.singleton_append, lines_writeAll_append, lines_writeAll_append, hsingle, lines_write hadmits hline]
      rfl

/-- A field tries to close the line and to begin another one, and another field has the same name. -/
def forged : Entry where
  level := .warn
  message := "trace.read"
  fields := [("path", "a\"\x7d\n[now] level=error"), ("path", [0, 255, 92])]

theorem write_line_forged :
    let stamp := Instant.offsetStamp 1793000000
    Instant.IsStamp stamp ∧ 10 ∉ forged.message ∧ ∃ object,
      write .info stamp forged = front stamp .warn "trace.read" ++ object ++ [10] ∧
      10 ∉ front stamp .warn "trace.read" ++ object ∧
      Json.parse object = some (.object (forged.fields.map fun (k, v) => (k, .string v))) := by
  have hstamp : Instant.IsStamp (Instant.offsetStamp 1793000000) := Instant.isStamp_offsetStamp _
  have hmessage : 10 ∉ forged.message := by decide
  obtain ⟨object, hwrite, hline, hparse, -⟩ := (write_line hstamp .info forged hmessage).2 (by decide)
  exact ⟨hstamp, hmessage, object, hwrite, hline, hparse⟩

end RuleFlow.Log
