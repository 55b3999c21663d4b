import RuleFlow.Proofs.Run.Phase

/-!
# Pairs that end after their deadline

A pair comes to an end with one of its attempts (`exists_attempts_eq`), at its deadline or before or after it. When its
turn comes after the deadline, it is still taken as it ended, if it ended meanwhile (`Collected.Late`). These are
exactly the pairs whose result is not the one that they have when they run alone, and a pair that does not overrun its
deadline has one result among whatever other pairs (`outcome_independent_iff`).
-/

namespace RuleFlow

/-- The attempt fails and says why. -/
def Parser.Outcome.IsExplained (o : Parser.Outcome) : Prop := ∃ message, o = .failed (.explained message)

namespace Run

open RuleFlow.Parser (Outcome)

variable {p : Pair} {c : Collected} {machine : Machine} {retries earlier elapsed patience e : Nat}

/-! ## Attempts -/

/-- How a pair ends whose last attempt, the one of the given number, has this outcome. -/
def endingOf (attempts : Nat) : Outcome → Ending
  | .found data => .found data attempts
  | .failed (.explained message) => .failed (Text.untilZero message) attempts
  | .failed .unexplained => .unexplained attempts
  | .hung => .timedOut attempts

/-- The course of a pair whose last attempt, the one of the given number, has this outcome, at a time unless it
hangs. -/
def courseOf (attempts time : Nat) (o : Outcome) : Course where
  ending := endingOf attempts o
  ended? :=
    match o with
    | .hung => none
    | _ => some time

@[simp] theorem attempts_endingOf (attempts : Nat) (o : Outcome) : (endingOf attempts o).attempts = attempts := by
  cases o with
  | found data => rfl
  | failed failure => cases failure <;> rfl
  | hung => rfl

theorem ended?_courseOf_eq_some_iff {attempts time : Nat} {o : Outcome} :
    (courseOf attempts time o).ended? = some e ↔ o ≠ .hung ∧ time = e := by
  cases o <;> simp [courseOf]

/-- The last attempt is one that does not fail with an explanation, that no retry is left after, or that ends with the
deadline over. -/
theorem attempts_last (h : ¬ (p.parser.outcome p.file earlier).IsExplained ∨ retries = 0 ∨
      p.descriptor.limit ≤ elapsed + p.parser.duration p.file earlier) :
    (p.attempts retries earlier elapsed).1 =
      courseOf (earlier + 1) (elapsed + p.parser.duration p.file earlier) (p.parser.outcome p.file earlier) := by
  rw [Pair.attempts.eq_def]
  cases houtcome : p.parser.outcome p.file earlier with
  | found data => rfl
  | hung => rfl
  | failed failure =>
      cases failure with
      | unexplained => rfl
      | explained message =>
          have hexplained : (Outcome.failed (.explained message)).IsExplained := ⟨message, rfl⟩
          rw [houtcome] at h
          cases retries with
          | zero => rfl
          | succ retries =>
              have hlimit : p.descriptor.limit ≤ elapsed + p.parser.duration p.file earlier := by
                simpa [hexplained] using h
              simp only [hlimit, if_true]
              rfl

/-- A failure with an explanation before the deadline uses up one retry. -/
theorem attempts_next (h : (p.parser.outcome p.file earlier).IsExplained)
    (hlimit : elapsed + p.parser.duration p.file earlier < p.descriptor.limit) :
    (p.attempts (retries + 1) earlier elapsed).1 =
      (p.attempts retries (earlier + 1) (elapsed + p.parser.duration p.file earlier)).1 := by
  obtain ⟨message, hmessage⟩ := h
  rw [Pair.attempts, hmessage]
  simp only [Nat.not_le_of_lt hlimit, if_false]

/-- Some attempt is the last one. -/
theorem exists_attempts_eq (p : Pair) (retries earlier elapsed : Nat) :
    ∃ k ≤ retries, ∃ time, (p.attempts retries earlier elapsed).1 =
      courseOf (earlier + k + 1) time (p.parser.outcome p.file (earlier + k)) := by
  induction retries generalizing earlier elapsed with
  | zero => exact ⟨0, Nat.le_refl 0, _, attempts_last (.inr (.inl rfl))⟩
  | succ retries ih =>
      by_cases h : (p.parser.outcome p.file earlier).IsExplained ∧
          elapsed + p.parser.duration p.file earlier < p.descriptor.limit
      · obtain ⟨k, hk, time, heq⟩ := ih (earlier + 1) (elapsed + p.parser.duration p.file earlier)
        refine ⟨k + 1, Nat.succ_le_succ hk, time, ?_⟩
        rw [attempts_next h.1 h.2, heq, Nat.add_right_comm earlier 1 k, Nat.add_assoc earlier k 1]
      · rw [not_and_or, Nat.not_lt] at h
        exact ⟨0, Nat.zero_le _, _, attempts_last (h.imp_right .inr)⟩

/-- A pair whose attempts end is not given up by itself. -/
theorem run_ne_timedOut (h : p.run.1.ended? = some e) (n : Nat) : p.run.1.ending ≠ .timedOut n := by
  unfold Pair.run at h ⊢
  cases hretries : p.descriptor.maxRetries with
  | ofNat retries =>
      rw [hretries] at h
      obtain ⟨k, -, time, heq⟩ := exists_attempts_eq p retries 0 0
      dsimp only at h ⊢
      rw [heq, ended?_courseOf_eq_some_iff] at h
      rw [heq]
      cases houtcome : p.parser.outcome p.file (0 + k) with
      | found data => simp [courseOf, endingOf]
      | failed failure => cases failure <;> simp [courseOf, endingOf]
      | hung => exact absurd houtcome h.1
  | negSucc _ => simp

/-! ## Endings -/

theorem ending_of_le (h : p.run.1.ended? = some e) (hle : e ≤ patience) : p.ending patience = p.run.1.ending := by
  simp [Pair.ending, h, hle]

theorem ending_of_lt (h : p.run.1.ended? = some e) (hlt : patience < e) :
    p.ending patience = .timedOut (max 1 p.run.1.ending.attempts) := by
  simp [Pair.ending, h, hlt]

theorem ending_of_none (h : p.run.1.ended? = none) :
    p.ending patience = .timedOut (max 1 p.run.1.ending.attempts) := by
  simp [Pair.ending, h]

theorem errorType_outcome :
    (p.outcome machine patience).errorType = some timeoutError ↔ ∃ n, p.ending patience = .timedOut n := by
  have hne : executionError ≠ timeoutError := by decide
  unfold Pair.outcome
  cases p.ending patience <;> simp [Pair.result, failedResult, hne]

/-! ## Results -/

/-- The last attempt ends, but after the deadline. -/
def Pair.Overruns (p : Pair) : Prop := ∃ e, p.run.1.ended? = some e ∧ p.descriptor.limit < e

/-- The last attempt ends after the deadline and before the pair is given up. -/
def Collected.Late (c : Collected) : Prop :=
  ∃ e, c.pair.run.1.ended? = some e ∧ c.pair.descriptor.limit < e ∧ e ≤ c.patience

theorem Collected.Late.overruns (h : c.Late) : c.pair.Overruns := by
  obtain ⟨e, hended, hlt, -⟩ := h
  exact ⟨e, hended, hlt⟩

/-- What is taken late is no timeout, as it would be at the deadline. -/
theorem outcome_ne_of_late (machine : Machine) (h : c.Late) :
    c.pair.outcome machine c.patience ≠ c.pair.outcome machine c.pair.descriptor.limit := by
  obtain ⟨e, hended, hover, htaken⟩ := h
  intro heq
  have hlimit : (c.pair.outcome machine c.pair.descriptor.limit).errorType = some timeoutError :=
    errorType_outcome.mpr ⟨_, ending_of_lt hended hover⟩
  rw [← heq, errorType_outcome, ending_of_le hended htaken] at hlimit
  obtain ⟨n, hn⟩ := hlimit
  exact run_ne_timedOut hended n hn

/-- A pair that is given more time than its deadline has the same result as at its deadline, unless it ends in that
time. -/
theorem outcome_eq_iff (machine : Machine) (hle : c.pair.descriptor.limit ≤ c.patience) :
    c.pair.outcome machine c.patience = c.pair.outcome machine c.pair.descriptor.limit ↔ ¬ c.Late := by
  refine ⟨fun heq hlate => outcome_ne_of_late machine hlate heq, fun hlate => ?_⟩
  unfold Pair.outcome
  congr 1
  cases hended : c.pair.run.1.ended? with
  | none => rw [ending_of_none hended, ending_of_none hended]
  | some e =>
      by_cases hpunctual : e ≤ c.pair.descriptor.limit
      · rw [ending_of_le hended hpunctual, ending_of_le hended (hpunctual.trans hle)]
      · have hover : c.pair.descriptor.limit < e := by omega
        have hgiven : c.patience < e := Nat.lt_of_not_le fun htaken => hlate ⟨e, hended, hover, htaken⟩
        rw [ending_of_lt hended hover, ending_of_lt hended hgiven]

/-! ## Other pairs -/

/-- The pair at a place of the queue is collected in this place. -/
theorem pair_of_getElem? {workers : Nat} (hworkers : 0 < workers) {before after : List Pair}
    (h : (schedule workers (before ++ p :: after))[before.length]? = some c) : c.pair = p := by
  have hmap := congrArg (·[before.length]?) (map_pair_schedule hworkers (before ++ p :: after))
  simpa [h] using hmap

/-- A pair that finds something after a time, and has so much time. -/
def busyPair (p : Pair) (time : Nat) : Pair where
  descriptor := { p.descriptor with timeout := time, maxRetries := 0 }
  file := p.file
  parser := { outcome := fun _ _ => .found ∅, duration := fun _ _ => time }

theorem ended?_busyPair (p : Pair) (time : Nat) : (busyPair p time).run.1.ended? = some time := by
  simp [Pair.run, busyPair, Pair.attempts]

theorem le_limit_busyPair (p : Pair) (time : Nat) : time ≤ (busyPair p time).descriptor.limit := by
  simp only [busyPair, Parser.Descriptor.limit]
  omega

/-- Of two pairs that run at once, the second one is not looked at while the first one is busy. -/
theorem schedule_pair {first : Pair} (hended : first.run.1.ended? = some e) (hle : e ≤ first.descriptor.limit) :
    schedule 2 [first, p] = [⟨first, first.descriptor.limit⟩, ⟨p, max e p.descriptor.limit⟩] := by
  simp [schedule, Queue.collect, Queue.fill, Running.done, Running.patience, hended, hle]

/-- A pair has one result among all others, for any number of pairs that run at once, exactly if it does not end after
its deadline. -/
theorem outcome_independent_iff (machine : Machine) (p : Pair) :
    (∀ workers before after c, 0 < workers → (schedule workers (before ++ p :: after))[before.length]? = some c →
      p.outcome machine c.patience = p.outcome machine p.descriptor.limit) ↔ ¬ p.Overruns := by
  constructor
  · rintro h ⟨e, hended, hover⟩
    have htwo : (schedule 2 ([busyPair p e] ++ p :: []))[1]? = some ⟨p, max e p.descriptor.limit⟩ := by
      rw [List.singleton_append, schedule_pair (ended?_busyPair p e) (le_limit_busyPair p e)]
      rfl
    have hsame := h 2 [busyPair p e] [] _ (by omega) htwo
    exact outcome_ne_of_late machine ⟨e, hended, hover, Nat.le_max_left _ _⟩ hsame
  · intro h workers before after c hworkers hc
    obtain rfl := pair_of_getElem? hworkers hc
    have hlimit := limit_le_of_mem_schedule (List.mem_of_getElem? hc)
    exact (outcome_eq_iff machine hlimit).mpr fun hlate => h hlate.overruns

end Run

end RuleFlow
