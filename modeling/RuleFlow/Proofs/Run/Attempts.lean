import Mathlib.Order.Bounds.Defs
import RuleFlow.Proofs.Run.Pairs

/-!
# The attempts of a pair

A pair is tried again as long as its attempts fail with an explanation, retries are left and the deadline has not
passed. The first attempt that ends otherwise, or else the last one that is allowed, settles the result of the pair
(`Settles`), and nothing that the parser would do later matters.
-/

namespace RuleFlow

namespace Parser

variable {data : Data} {score : Float}

theorem Data.confidence_of_number (h : data[confidenceName]? = some (.number score)) : data.confidence = score := by
  simp [Data.confidence, h]

theorem Data.confidence_of_no_number (h : ∀ score, data[confidenceName]? ≠ some (.number score)) :
    data.confidence = 0.5 := by
  unfold Data.confidence
  split
  · rename_i score hscore
    exact absurd hscore (h score)
  · rfl

end Parser

/-- Nanoseconds that the first `n` attempts on a file take. -/
def Parser.elapsed (parser : Parser) (file : Text) (n : Nat) : Nat := ((List.range n).map (parser.duration file)).sum

theorem Parser.elapsed_succ (parser : Parser) (file : Text) (n : Nat) :
    parser.elapsed file (n + 1) = parser.elapsed file n + parser.duration file n := by
  simp [Parser.elapsed, List.range_succ]

namespace Run

open RuleFlow.Parser (Descriptor Registry FilesByKind Outcome)

/-- The attempt that follows `k` others is the last one: the others fail with an explanation, and it does not, or no
retry is left. -/
structure Settles (outcome : Nat → Outcome) (retries k : Nat) : Prop where
  le : k ≤ retries
  earlier : ∀ i < k, (outcome i).IsExplained
  last : k = retries ∨ ¬ (outcome k).IsExplained

/-- The deadline does not pass between the attempts up to the one that follows `k` others, and unless this one hangs, it
ends before the pair is given up. -/
structure InTime (parser : Parser) (t : Task) (patience k : Nat) : Prop where
  between : ∀ i < k, parser.elapsed t.file (i + 1) < t.descriptor.limit
  last : parser.outcome t.file k ≠ .hung → parser.elapsed t.file (k + 1) ≤ patience

variable {machine : Machine} {registry registry' : Registry} {t : Task} {parser other : Parser} {p : Pair}
  {outcome outcome' : Nat → Outcome} {retries k patience : Nat}

/-! ## The last attempt -/

theorem settles_of_isLeast (h : IsLeast {i | i ≤ retries ∧ ¬ (outcome i).IsExplained} k) :
    Settles outcome retries k where
  le := h.1.1
  earlier := by
    intro i hi
    by_contra hother
    have hle : k ≤ i := h.2 ⟨hi.le.trans h.1.1, hother⟩
    omega
  last := .inr h.1.2

theorem settles_retries (h : ∀ i ≤ retries, (outcome i).IsExplained) : Settles outcome retries retries where
  le := Nat.le_refl retries
  earlier := fun i hi => h i hi.le
  last := .inl rfl

theorem Settles.congr (h : Settles outcome retries k) (hsame : ∀ i ≤ k, outcome' i = outcome i) :
    Settles outcome' retries k where
  le := h.le
  earlier := fun i hi => hsame i hi.le ▸ h.earlier i hi
  last := (hsame k (Nat.le_refl k)).symm ▸ h.last

theorem elapsed_congr {file : Text} {n : Nat} (h : ∀ i < n, other.duration file i = parser.duration file i) :
    other.elapsed file n = parser.elapsed file n := by
  unfold Parser.elapsed
  exact congrArg List.sum (List.map_congr_left fun i hi => h i (List.mem_range.mp hi))

theorem InTime.congr (h : InTime parser t patience k)
    (hsame : ∀ i ≤ k, other.outcome t.file i = parser.outcome t.file i ∧
      other.duration t.file i = parser.duration t.file i) : InTime other t patience k where
  between i hi := by
    rw [elapsed_congr fun j hj => (hsame j (by omega)).2]
    exact h.between i hi
  last hhung := by
    rw [elapsed_congr fun j hj => (hsame j (by omega)).2]
    rw [(hsame k (Nat.le_refl k)).1] at hhung
    exact h.last hhung

/-- Explained failures before the deadline use up one retry each. -/
theorem attempts_add (hexplained : ∀ i < k, (p.parser.outcome p.file i).IsExplained)
    (htime : ∀ i < k, p.parser.elapsed p.file (i + 1) < p.descriptor.limit) :
    (p.attempts (retries + k) 0 0).1 = (p.attempts retries k (p.parser.elapsed p.file k)).1 := by
  induction k generalizing retries with
  | zero => rfl
  | succ k ih =>
      have hlast := htime k (Nat.lt_succ_self k)
      rw [Parser.elapsed_succ] at hlast
      have hadd : retries + (k + 1) = retries + 1 + k := by omega
      rw [hadd, ih (fun i hi => hexplained i (by omega)) fun i hi => htime i (by omega),
        attempts_next (hexplained k (Nat.lt_succ_self k)) hlast, Parser.elapsed_succ]

/-- A pair whose first attempts fail with an explanation before the deadline ends with the next one, if no retry is left
or this one does not fail so or ends with the deadline over. -/
theorem run_of_last (hretries : p.descriptor.maxRetries = retries) (hle : k ≤ retries)
    (hearlier : ∀ i < k, (p.parser.outcome p.file i).IsExplained)
    (htime : ∀ i < k, p.parser.elapsed p.file (i + 1) < p.descriptor.limit)
    (hlast : ¬ (p.parser.outcome p.file k).IsExplained ∨ k = retries ∨
      p.descriptor.limit ≤ p.parser.elapsed p.file (k + 1)) :
    p.run.1 = courseOf (k + 1) (p.parser.elapsed p.file (k + 1)) (p.parser.outcome p.file k) := by
  have hrun : p.run = p.attempts retries 0 0 := by
    rw [Pair.run, hretries]
  obtain ⟨left, rfl⟩ := Nat.exists_eq_add_of_le' hle
  rw [Parser.elapsed_succ] at hlast ⊢
  rw [hrun, attempts_add hearlier htime]
  exact attempts_last (hlast.imp_right (.imp_left fun h => by omega))

theorem ending_of_run {attempts time : Nat} {o : Outcome} (h : p.run.1 = courseOf (attempts + 1) time o)
    (htime : o ≠ .hung → time ≤ patience) : p.ending patience = endingOf (attempts + 1) o := by
  by_cases hhung : o = .hung
  · subst hhung
    rw [ending_of_none (by rw [h]; rfl), h]
    simp [courseOf, endingOf, Ending.attempts]
  · have hended : p.run.1.ended? = some time := by
      rw [h, ended?_courseOf_eq_some_iff]
      exact ⟨hhung, rfl⟩
    rw [ending_of_le hended (htime hhung), h]
    rfl

/-- An attempt that has not ended when the pair is given up leaves nothing but a timeout. -/
theorem ending_of_unfinished (hretries : p.descriptor.maxRetries = retries) (hle : k ≤ retries)
    (hearlier : ∀ i < k, (p.parser.outcome p.file i).IsExplained)
    (htime : ∀ i < k, p.parser.elapsed p.file (i + 1) < p.descriptor.limit) (hlimit : p.descriptor.limit ≤ patience)
    (hover : patience < p.parser.elapsed p.file (k + 1)) : p.ending patience = .timedOut (k + 1) := by
  have hrun := run_of_last hretries hle hearlier htime (.inr (.inr (hlimit.trans hover.le)))
  have hattempts : p.run.1.ending.attempts = k + 1 := by
    rw [hrun]
    exact attempts_endingOf _ _
  by_cases hhung : p.parser.outcome p.file k = .hung
  · rw [ending_of_none (by rw [hrun, hhung]; rfl), hattempts]
    simp
  · have hended : p.run.1.ended? = some (p.parser.elapsed p.file (k + 1)) := by
      rw [hrun, ended?_courseOf_eq_some_iff]
      exact ⟨hhung, rfl⟩
    rw [ending_of_lt hended hover, hattempts]
    simp

/-! ## Results -/

theorem attempts_result (p : Pair) (time : Float) (ending : Ending) :
    (p.result time ending).attempts = ending.attempts := by
  cases ending <;> rfl

/-- However long it takes, a pair is tried once at least and once more than there are retries at most. -/
theorem attempts_ending (hretries : p.descriptor.maxRetries = retries) (patience : Nat) :
    1 ≤ (p.ending patience).attempts ∧ (p.ending patience).attempts ≤ retries + 1 := by
  obtain ⟨k, hk, time, heq⟩ := exists_attempts_eq p retries 0 0
  have hrun : p.run.1.ending.attempts = k + 1 := by
    rw [Pair.run, hretries]
    dsimp only
    rw [heq]
    simp [courseOf]
  unfold Pair.ending
  dsimp only
  split
  · rw [hrun]
    omega
  · have htimedOut : (Ending.timedOut (max 1 p.run.1.ending.attempts)).attempts = max 1 p.run.1.ending.attempts := rfl
    rw [htimedOut, hrun]
    omega

theorem pairResult_of_settles (hmade : made? registry t = some (.parser parser))
    (hretries : t.descriptor.maxRetries = retries) (h : Settles (parser.outcome t.file) retries k)
    (htime : InTime parser t patience k) :
    pairResult machine registry t patience =
      Pair.result ⟨t.descriptor, t.file, parser⟩ (machine.stopwatch t.descriptor.kind t.file)
        (endingOf (k + 1) (parser.outcome t.file k)) := by
  have hrun := run_of_last (p := ⟨t.descriptor, t.file, parser⟩) hretries h.le h.earlier htime.between
    (h.last.symm.imp_right .inl)
  rw [pairResult_of_made hmade, Pair.outcome, ending_of_run hrun htime.last]

theorem pairResult_of_unfinished (hmade : made? registry t = some (.parser parser))
    (hretries : t.descriptor.maxRetries = retries) (hle : k ≤ retries)
    (hearlier : ∀ i < k, (parser.outcome t.file i).IsExplained)
    (htime : ∀ i < k, parser.elapsed t.file (i + 1) < t.descriptor.limit) (hlimit : t.descriptor.limit ≤ patience)
    (hover : patience < parser.elapsed t.file (k + 1)) :
    pairResult machine registry t patience = failedResult t.descriptor.kind t.file timeoutError
      "Parser execution timeout" (machine.stopwatch t.descriptor.kind t.file) (k + 1) := by
  have hending := ending_of_unfinished (p := ⟨t.descriptor, t.file, parser⟩) hretries hle hearlier htime hlimit hover
  rw [pairResult_of_made hmade, Pair.outcome, hending]
  rfl

theorem attempts_pairResult (hmade : made? registry t = some (.parser parser))
    (hretries : t.descriptor.maxRetries = retries) (patience : Nat) :
    1 ≤ (pairResult machine registry t patience).attempts ∧
      (pairResult machine registry t patience).attempts ≤ retries + 1 := by
  have hattempts := attempts_ending (p := ⟨t.descriptor, t.file, parser⟩) hretries patience
  rw [pairResult_of_made hmade, Pair.outcome, attempts_result]
  exact_mod_cast hattempts

theorem exists_listed {phase : List Descriptor} {files : FilesByKind} (machine : Machine) (workers : Nat)
    (registry : Registry) (ht : t ∈ tasks machine phase files) :
    ∃ r ∈ (runPhase machine workers registry phase files).1.listed t.file, IsResult machine registry t r := by
  have hlisted := forall₂_listed machine workers registry phase files t.file
  rw [runPhase_fst]
  refine exists_mem_of_forall₂ hlisted ?_
  cases hmade : canMake registry t <;> simp [unmadeFirst, ht, hmade]

/-- A phase lists a result of each of its tasks. The parser of a task is run at least once and at most once more than
there are retries. As long as the deadline does not pass between its attempts, the following settles the result of the
pair. When no allowed attempt ends otherwise than with an explained failure, the result is the last failure. Else it is
the first attempt that does: findings are kept as they are, with the number that they state as their confidence or one
half, an unexplained failure or a hang is not tried again, and later attempts are never made. An attempt that has not
ended when the pair is given up counts as a hang, whatever it would have come to. -/
theorem pairResult_attempts (machine : Machine) (hmade : made? registry t = some (.parser parser))
    (hretries : t.descriptor.maxRetries = retries) :
    let outcome := parser.outcome t.file
    let result := pairResult machine registry t
    let time := machine.stopwatch t.descriptor.kind t.file
    (∀ (workers : Nat) (phase : List Descriptor) (files : FilesByKind), t ∈ tasks machine phase files →
      ∃ patience, t.descriptor.limit ≤ patience ∧
        result patience ∈ (runPhase machine workers registry phase files).1.listed t.file) ∧
    (∀ patience, 1 ≤ (result patience).attempts ∧ (result patience).attempts ≤ retries + 1) ∧
    (∀ patience, (∀ i ≤ retries, (outcome i).IsExplained) → InTime parser t patience retries →
      ∃ message, outcome retries = .failed (.explained message) ∧ result patience =
        failedResult t.descriptor.kind t.file executionError (Text.untilZero message) time (retries + 1)) ∧
    (∀ patience k, k ≤ retries → (∀ i < k, (outcome i).IsExplained) →
      (∀ i < k, parser.elapsed t.file (i + 1) < t.descriptor.limit) → t.descriptor.limit ≤ patience →
        patience < parser.elapsed t.file (k + 1) → result patience =
          failedResult t.descriptor.kind t.file timeoutError "Parser execution timeout" time (k + 1)) ∧
    ∀ patience k, IsLeast {i | i ≤ retries ∧ ¬ (outcome i).IsExplained} k → InTime parser t patience k →
      (∀ data, outcome k = .found data →
        result patience =
          { kind := t.descriptor.kind, file := t.file, success := true, data, errorMessage := none, errorType := none,
            executionTime := time, confidence := data.confidence, attempts := k + 1 } ∧
        (∀ score, data[Parser.confidenceName]? = some (.number score) → (result patience).confidence = score) ∧
        ((∀ score, data[Parser.confidenceName]? ≠ some (.number score)) → (result patience).confidence = 0.5)) ∧
      (outcome k = .failed .unexplained → result patience = failedResult t.descriptor.kind t.file executionError
        "Parser raised a non-standard exception" time (k + 1)) ∧
      (outcome k = .hung → result patience =
        failedResult t.descriptor.kind t.file timeoutError "Parser execution timeout" time (k + 1)) ∧
      ∀ (registry' : Registry) (other : Parser), made? registry' t = some (.parser other) →
        (∀ i ≤ k, other.outcome t.file i = outcome i ∧ other.duration t.file i = parser.duration t.file i) →
          pairResult machine registry' t patience = result patience := by
  intro outcome result time
  have hresult (patience k : Nat) (h : Settles outcome retries k) (htime : InTime parser t patience k) :
      result patience = Pair.result ⟨t.descriptor, t.file, parser⟩ time (endingOf (k + 1) (outcome k)) :=
    pairResult_of_settles hmade hretries h htime
  refine ⟨fun workers phase files ht => ?_, attempts_pairResult hmade hretries, fun patience hall htime => ?_,
    fun patience k => pairResult_of_unfinished hmade hretries, fun patience k hk htime => ?_⟩
  · obtain ⟨r, hr, patience, hpatience, rfl⟩ := exists_listed machine workers registry ht
    exact ⟨patience, hpatience, hr⟩
  · obtain ⟨message, hmessage⟩ := hall retries (Nat.le_refl retries)
    refine ⟨message, hmessage, ?_⟩
    rw [hresult patience retries (settles_retries hall) htime, hmessage]
    rfl
  · have hsettles := settles_of_isLeast hk
    have hlast := hresult patience k hsettles htime
    refine ⟨fun data hdata => ?_, fun hfailed => ?_, fun hhung => ?_, fun registry' other hother hsame => ?_⟩
    · rw [hdata] at hlast
      rw [hlast]
      exact ⟨rfl, fun score => Parser.Data.confidence_of_number, Parser.Data.confidence_of_no_number⟩
    · rw [hlast, hfailed]
      rfl
    · rw [hlast, hhung]
      rfl
    · have hsettles' := hsettles.congr fun i hi => (hsame i hi).1
      rw [hlast, pairResult_of_settles hother hretries hsettles' (htime.congr hsame), (hsame k (Nat.le_refl k)).1]
      cases endingOf (k + 1) (outcome k) <;> rfl

/-- A parser that fails twice before it finds something, and takes a second each time. -/
def flaky : Parser where
  outcome := (Parser.script [.failed (.explained "busy"), .failed (.explained "still busy"), .found ∅]).outcome
  duration _ _ := 1000000000

/-- With two retries it is run three times and succeeds, with one retry its second failure is the result. -/
theorem pairResult_attempts_flaky :
    let registry : Registry := { factory? := fun _ => some (.makes flaky) }
    let t (maxRetries : Int) : Task :=
      ⟨{ kind := .jsp, patterns := ["*.jsp"], timeout := 5000, maxRetries }, "a.jsp", 0⟩
    let result (maxRetries : Int) : Result := pairResult {} registry (t maxRetries) (t maxRetries).descriptor.limit
    ((result 2).success ∧ (result 2).attempts = 3) ∧ (result 1).errorMessage = some (Text.ofString "still busy") := by
  intro registry t result
  have hmade (n : Int) : made? registry (t n) = some (.parser flaky) := rfl
  have hfirst (file : Text) : (flaky.outcome file 0).IsExplained := ⟨"busy", rfl⟩
  have hsecond (file : Text) : (flaky.outcome file 1).IsExplained := ⟨"still busy", rfl⟩
  have htime (n : Int) (k : Nat) (hk : k < 3) : InTime flaky (t n) (t n).descriptor.limit k := by
    have helapsed (i : Nat) : flaky.elapsed "a.jsp" i = i * 1000000000 := by
      simp [Parser.elapsed, flaky]
    have hlimit : (t n).descriptor.limit = 5000000000 := rfl
    constructor
    · intro i hi
      rw [helapsed, hlimit]
      omega
    · intro _
      rw [helapsed, hlimit]
      omega
  constructor
  · have hretries : (t 2).descriptor.maxRetries = (2 : Nat) := rfl
    obtain ⟨-, -, -, -, hsettled⟩ := pairResult_attempts {} (hmade 2) hretries
    have hleast : IsLeast {i | i ≤ 2 ∧ ¬ (flaky.outcome "a.jsp" i).IsExplained} 2 := by
      refine ⟨⟨Nat.le_refl 2, fun ⟨_, h⟩ => by cases h⟩, fun i hi => ?_⟩
      rcases i with - | - | i
      · exact absurd (hfirst _) hi.2
      · exact absurd (hsecond _) hi.2
      · omega
    have hresult : result 2 = _ := ((hsettled _ 2 hleast (htime 2 2 (by omega))).1 ∅ rfl).1
    rw [hresult]
    exact ⟨rfl, rfl⟩
  · have hretries : (t 1).descriptor.maxRetries = (1 : Nat) := rfl
    obtain ⟨-, -, hfailed, -, -⟩ := pairResult_attempts {} (hmade 1) hretries
    have hall : ∀ i ≤ 1, (flaky.outcome "a.jsp" i).IsExplained := by
      intro i hi
      rcases i with - | - | i
      · exact hfirst _
      · exact hsecond _
      · omega
    obtain ⟨message, hmessage, hresult⟩ := hfailed _ hall (htime 1 1 (by omega))
    cases hmessage
    exact (congrArg Result.errorMessage hresult).trans (by decide +kernel)

end Run

end RuleFlow
