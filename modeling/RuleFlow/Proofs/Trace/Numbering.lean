import Mathlib.Algebra.Order.Ring.Int
import RuleFlow.Proofs.Lists
import RuleFlow.Proofs.Trace.Severity

/-!
# Gaps in the numbering of steps

After a gap the rule goes on from the number that it found. So it raises one issue for each position whose number does
not follow the one in front of it (`gapPositions`), and one issue when a step is taken out of a list that is numbered.
The number that is expected next can lie just beyond those of the steps; a word that is wider than theirs has room for
it (`gapsInWord_eq`).
-/

namespace RuleFlow.Rule

variable {steps : List Step}

/-! ## Positions -/

/-- The number of the step in front of a position, `first` in front of them all. -/
def orderBefore (first : Int) (steps : List Step) (k : Fin steps.length) : Int :=
  (first :: steps.map (·.order))[k.val]

/-- The positions of steps whose number does not follow the one in front of it. -/
def gapPositions (first : Int) (steps : List Step) : List (Fin steps.length) :=
  (List.finRange steps.length).filter fun k => (steps.get k).order ≠ orderBefore first steps k + 1

theorem gapPositions_cons (first : Int) (s : Step) (rest : List Step) :
    gapPositions first (s :: rest) =
      (if s.order = first + 1 then [] else [0]) ++ (gapPositions s.order rest).map Fin.succ := by
  rw [← ite_not]
  exact filter_finRange_succ fun k => ((s :: rest).get k).order ≠ orderBefore first (s :: rest) k + 1

theorem gaps_eq (first : Int) (steps : List Step) :
    gaps (first + 1) steps =
      (gapPositions first steps).map fun k => gapIssue (orderBefore first steps k + 1) (steps.get k).order := by
  -- the number in front of the rest is the one that was found, whether or not it was a gap
  induction steps generalizing first with
  | nil => rfl
  | cons s rest ih =>
      rw [gaps, gapPositions_cons, ih, List.map_append, List.map_map]
      by_cases hs : s.order = first + 1
      · simp only [if_pos hs]
        rfl
      · simp only [if_neg hs]
        rfl

theorem stepSequence_of_ne_nil (h : steps ≠ []) : stepSequence steps =
    (gapPositions 0 steps).map fun k => gapIssue (orderBefore 0 steps k + 1) (steps.get k).order := by
  rw [← gaps_eq, stepSequence, if_neg (by simpa using h)]
  rfl

/-! ## A step taken out -/

theorem numberedFrom_append {start : Int} {before after : List Step} :
    NumberedFrom start (before ++ after) ↔ NumberedFrom start before ∧ NumberedFrom (start + before.length) after := by
  induction before generalizing start with
  | nil => simp [numberedFrom_nil]
  | cons s before ih =>
      have hstart : start + ((s :: before).length : Int) = start + 1 + before.length := by
        rw [List.length_cons]
        push_cast
        omega
      rw [List.cons_append, numberedFrom_cons, numberedFrom_cons, ih, hstart, and_assoc]

theorem gaps_append_of_numberedFrom {start : Int} {before : List Step} (h : NumberedFrom start before)
    (after : List Step) :
    gaps start (before ++ after) = gaps (start + before.length) after := by
  induction before generalizing start with
  | nil => simp
  | cons s before ih =>
      obtain ⟨rfl, hrest⟩ := numberedFrom_cons.mp h
      rw [List.cons_append, gaps, if_pos rfl, List.nil_append, ih hrest, List.length_cons]
      congr 1
      push_cast
      omega

/-- Between two steps of a numbered list one is missing: the only issue is at the second of them. -/
theorem stepSequence_without {before after : List Step} {s : Step} (h : NumberedFrom 1 (before ++ s :: after))
    (hafter : after ≠ []) : stepSequence (before ++ after) = [gapIssue s.order (s.order + 1)] := by
  obtain ⟨hbefore, hrest⟩ := numberedFrom_append.mp h
  obtain ⟨hs, hnumbered⟩ := numberedFrom_cons.mp hrest
  cases after with
  | nil => exact absurd rfl hafter
  | cons t after =>
      obtain ⟨ht, hend⟩ := numberedFrom_cons.mp hnumbered
      have hgap : t.order ≠ s.order := by omega
      have hnone : gaps (t.order + 1) after = [] := gaps_eq_nil_iff.mpr (ht ▸ hend)
      rw [stepSequence, if_neg (by simp), gaps_append_of_numberedFrom hbefore, ← hs, gaps, if_neg hgap, hnone, ht, ← hs]
      rfl

/-! ## Numbers in words -/

/-- A number of 32 bits with its sign. -/
def IsWord (n : Int) : Prop := -2 ^ 31 ≤ n ∧ n < 2 ^ 31

/-- The gaps, with the number that is expected kept in a word that wraps around. -/
def gapsInWord (width : Nat) (expected : BitVec width) : List Step → List Issue
  | [] => []
  | s :: rest =>
    (if BitVec.ofInt width s.order = expected then [] else [gapIssue expected.toInt s.order]) ++
      gapsInWord width (BitVec.ofInt width s.order + 1) rest

theorem toInt_ofInt_of_le {width : Nat} (hwidth : 32 < width) {n : Int} (hlow : -2 ^ 31 ≤ n) (hhigh : n ≤ 2 ^ 31) :
    (BitVec.ofInt width n).toInt = n := by
  have hroom : (2 : Int) ^ 31 < 2 ^ (width - 1) := pow_lt_pow_right₀ (by decide) (by omega)
  exact BitVec.toInt_ofInt_eq_self (by omega) (by omega) (by omega)

theorem gapsInWord_eq {width : Nat} (hwidth : 32 < width) (h : ∀ s ∈ steps, IsWord s.order) {expected : Int}
    (hlow : -2 ^ 31 ≤ expected) (hhigh : expected ≤ 2 ^ 31) :
    gapsInWord width (BitVec.ofInt width expected) steps = gaps expected steps := by
  induction steps generalizing expected with
  | nil => rfl
  | cons s rest ih =>
      obtain ⟨⟨hslow, hshigh⟩, hrest⟩ := List.forall_mem_cons.mp h
      have hexpected := toInt_ofInt_of_le hwidth hlow hhigh
      have hequal : BitVec.ofInt width s.order = BitVec.ofInt width expected ↔ s.order = expected := by
        rw [← BitVec.toInt_inj, hexpected, toInt_ofInt_of_le hwidth hslow hshigh.le]
      have hnext : BitVec.ofInt width s.order + 1 = BitVec.ofInt width (s.order + 1) := by
        rw [BitVec.ofInt_add]
        rfl
      rw [gapsInWord, gaps, hexpected, hnext, ih hrest (by omega) (by omega)]
      simp only [hequal]

/-! ## The issues -/

/-- The rule raises no issue exactly for steps that are numbered from 1 on. For some steps it raises one issue for each
position whose number does not follow the one in front of it, which is 0 in front of the first step. Where the steps are
numbered by words of 32 bits, 64 bits are enough to find the same issues, and where one step of a numbered list is
missing in front of others, there is one issue. -/
theorem stepSequence_gaps (steps : List Step) :
    (stepSequence steps = [] ↔ steps ≠ [] ∧ NumberedFrom 1 steps) ∧
      (steps ≠ [] →
        (stepSequence steps).length = (gapPositions 0 steps).length ∧
        (stepSequence steps).map (fun i => (i.kind, i.severity, i.steps, i.description)) =
          (gapPositions 0 steps).map (fun k => (.missingLink, .high, [(steps.get k).order],
            "Step order gap: expected " ++ Text.ofInt (orderBefore 0 steps k + 1) ++ ", found " ++
              Text.ofInt (steps.get k).order)) ∧
        ((∀ s ∈ steps, IsWord s.order) → stepSequence steps = gapsInWord 64 1 steps)) ∧
      ∀ before s after, steps = before ++ s :: after → NumberedFrom 1 steps → after ≠ [] →
        (stepSequence (before ++ after)).length = 1 := by
  refine ⟨stepSequence_eq_nil_iff, fun hne => ⟨?_, ?_, fun hwords => ?_⟩, ?_⟩
  · rw [stepSequence_of_ne_nil hne, List.length_map]
  · rw [stepSequence_of_ne_nil hne, List.map_map]
    rfl
  · rw [stepSequence, if_neg (by simpa using hne)]
    exact (gapsInWord_eq (by decide) hwords (by decide) (by decide)).symm
  · rintro before s after rfl hnumbered hafter
    rw [stepSequence_without hnumbered hafter]
    rfl

/-- In a word of 32 bits the number after the greatest one is the least one, and no gap lies between them. -/
example :
    let steps : List Step := [{ order := 2147483647 }, { order := -2147483648 }]
    (gapsInWord 64 1 steps).length = 2 ∧ (gapsInWord 32 1 steps).length = 1 := by
  decide

end RuleFlow.Rule
