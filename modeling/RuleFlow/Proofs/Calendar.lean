import RuleFlow.Calendar
import RuleFlow.Proofs.Report.Table

/-!
# Stamps

A stamp has digits, signs and letters only, so that it stays in its cell and in its line. The clock of a log may be
ahead of UTC or behind it (`IsStamp`).
-/

namespace RuleFlow

open Table (Plain)

theorem Decimal.plain_padLeft {t : Text} (h : Plain t) (width : Nat) : Plain (padLeft width t) :=
  .append (fun b hb => by rw [List.eq_of_mem_replicate hb]; decide) h

theorem plain_twoDigits (n : Int) : Plain (twoDigits n) := Decimal.plain_padLeft (Table.plain_ofInt n) 2

namespace Instant

theorem plain_clock (t : Instant) : Plain t.clock := by
  have hsigns : Plain "-" ∧ Plain "T" ∧ Plain ":" := by decide
  simp [clock, Table.plain_append, Table.plain_ofInt, plain_twoDigits, hsigns]

theorem plain_stamp (t : Instant) : Plain t.stamp := t.plain_clock.append (by decide)

/-- What a clock shows, and by how many hours and minutes it differs from UTC. -/
def IsStamp (t : Text) : Prop :=
  ∃ (shown : Instant) (sign : UInt8) (difference : Text), t = shown.clock ++ sign :: difference ∧
    (sign = 43 ∨ sign = 45) ∧ difference.all Json.isDigit

theorem isStamp_offsetStamp (t : Instant) : IsStamp t.offsetStamp :=
  ⟨t, 43, "0000", rfl, .inl rfl, by decide⟩

theorem IsStamp.plain {t : Text} (h : IsStamp t) : Plain t := by
  obtain ⟨shown, sign, difference, rfl, hsign, hdifference⟩ := h
  have hdigits : Plain difference := Table.plain_of_digits (List.all_eq_true.mp hdifference)
  have hfront : Plain [sign] := by rcases hsign with rfl | rfl <;> decide
  exact shown.plain_clock.append (hfront.append hdigits)

end Instant

end RuleFlow
