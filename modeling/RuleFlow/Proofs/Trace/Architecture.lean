import RuleFlow.Proofs.Number.Arithmetic
import RuleFlow.Trace.Architecture

/-!
# The pattern that a flow follows

Shares of layers are compared as doubles, which for patterns of less than `2 ^ 26` layers is to compare them as
fractions. So the pattern that is found is the first one with the largest share, if that is more than a half, and its
missing layers are fewer than the others.
-/

namespace RuleFlow

namespace Pattern

variable {p q : Pattern} {technologies : List Text} {layer : Text}

/-- A number of layers that is compared exactly. -/
structure Measurable (p : Pattern) : Prop where
  nonempty : p.layers ≠ []
  small : p.layers.length < 2 ^ 26

instance : DecidablePred Measurable := fun p =>
  decidable_of_iff (p.layers ≠ [] ∧ p.layers.length < 2 ^ 26) ⟨fun h => ⟨h.1, h.2⟩, fun h => ⟨h.1, h.2⟩⟩

/-- The fraction of the layers that are there. -/
def share (p : Pattern) (technologies : List Text) : ℚ := p.present technologies / p.layers.length

/-- The first of the patterns with the largest share. -/
def IsFirstBest (patterns : List Pattern) (technologies : List Text) (p : Pattern) : Prop :=
  ∃ before after, patterns = before ++ p :: after ∧ (∀ q ∈ before, q.share technologies < p.share technologies) ∧
    ∀ q ∈ after, q.share technologies ≤ p.share technologies

theorem hasLayer_iff : hasLayer technologies layer ↔ ∃ t ∈ technologies, Text.lower layer <:+: Text.lower t := by
  simp [hasLayer, Text.containsInsensitive, Text.occursIn_iff]

theorem present_le (p : Pattern) (technologies : List Text) : p.present technologies ≤ p.layers.length :=
  List.countP_le_length

theorem present_add_length_missing (p : Pattern) (technologies : List Text) :
    p.present technologies + (p.missing technologies).length = p.layers.length := by
  simpa [present, missing, List.countP_eq_length_filter] using
    (List.length_eq_countP_add_countP (hasLayer technologies) (l := p.layers)).symm

/-! ## Scores and shares -/

theorem Measurable.length_pos (h : p.Measurable) : 0 < p.layers.length := List.length_pos_of_ne_nil h.nonempty

theorem Measurable.score_eq (h : p.Measurable) (technologies : List Text) :
    p.score technologies = (p.present technologies).toFloat / p.layers.length.toFloat := by
  rw [score, if_neg (by simpa using h.nonempty)]

theorem Measurable.score_lt_iff (hp : p.Measurable) (hq : q.Measurable) :
    p.score technologies < q.score technologies ↔ p.share technologies < q.share technologies := by
  rw [hp.score_eq, hq.score_eq]
  exact Number.fraction_lt_iff (present_le _ _) hp.length_pos hp.small (present_le _ _) hq.length_pos hq.small

theorem Measurable.zero_lt_score_iff (h : p.Measurable) : 0 < p.score technologies ↔ 0 < p.share technologies := by
  have hzero : (0 : Float) = (0 : Nat).toFloat / (1 : Nat).toFloat := by decide +kernel
  rw [hzero, h.score_eq,
    Number.fraction_lt_iff (by decide) (by decide) (by decide) (present_le _ _) h.length_pos h.small, share]
  simp

theorem Measurable.score_le_half_iff (h : p.Measurable) :
    p.score technologies ≤ Architecture.minimumScore ↔ p.share technologies ≤ 1 / 2 := by
  have hhalf : Architecture.minimumScore = (1 : Nat).toFloat / (2 : Nat).toFloat := by decide +kernel
  rw [hhalf, h.score_eq,
    Number.fraction_le_iff (present_le _ _) h.length_pos h.small (by decide) (by decide) (by decide), share]
  simp

theorem Measurable.share_le_half_iff (h : p.Measurable) :
    p.share technologies ≤ 1 / 2 ↔ 2 * p.present technologies ≤ p.layers.length := by
  have hpos : (0 : ℚ) < p.layers.length := by exact_mod_cast h.length_pos
  rw [share, div_le_div_iff₀ hpos (by norm_num), mul_comm, one_mul]
  norm_cast

/-! ## The first best pattern -/

theorem IsFirstBest.mem {patterns : List Pattern} (h : IsFirstBest patterns technologies p) : p ∈ patterns := by
  obtain ⟨before, after, rfl, -, -⟩ := h
  simp

theorem IsFirstBest.share_le {patterns : List Pattern} (h : IsFirstBest patterns technologies p) (hq : q ∈ patterns) :
    q.share technologies ≤ p.share technologies := by
  obtain ⟨before, after, rfl, hbefore, hafter⟩ := h
  rcases List.mem_append.mp hq with hq | hq
  · exact (hbefore q hq).le
  · rcases List.mem_cons.mp hq with rfl | hq
    · exact le_rfl
    · exact hafter q hq

/-- A further pattern is the first best one only if it beats all before it. -/
theorem isFirstBest_append_singleton {patterns : List Pattern} :
    IsFirstBest (patterns ++ [q]) technologies p ↔
      (IsFirstBest patterns technologies p ∧ q.share technologies ≤ p.share technologies) ∨
        p = q ∧ ∀ r ∈ patterns, r.share technologies < q.share technologies := by
  constructor
  · rintro ⟨before, after, heq, hbefore, hafter⟩
    rcases List.eq_nil_or_concat after with rfl | ⟨after, r, rfl⟩
    · obtain ⟨rfl, hlast⟩ := List.append_inj' heq rfl
      obtain rfl : p = q := by simpa using hlast.symm
      exact .inr ⟨rfl, hbefore⟩
    · have hsplit : patterns ++ [q] = (before ++ p :: after) ++ [r] := by simpa using heq
      obtain ⟨rfl, hlast⟩ := List.append_inj' hsplit rfl
      obtain rfl : q = r := by simpa using hlast
      exact .inl ⟨⟨before, after, rfl, hbefore, fun s hs => hafter s (by simp [hs])⟩, hafter q (by simp)⟩
  · rintro (⟨⟨before, after, rfl, hbefore, hafter⟩, hq⟩ | ⟨rfl, hall⟩)
    · refine ⟨before, after ++ [q], by simp, hbefore, fun r hr => ?_⟩
      rcases List.mem_append.mp hr with hr | hr
      · exact hafter r hr
      · exact List.mem_singleton.mp hr ▸ hq
    · exact ⟨patterns, [], rfl, hall, by simp⟩

theorem IsFirstBest.unique {patterns : List Pattern} (hp : IsFirstBest patterns technologies p)
    (hq : IsFirstBest patterns technologies q) : p = q := by
  induction patterns using List.reverseRecOn with
  | nil => simpa using hp.mem
  | append_singleton patterns r ih =>
      rcases isFirstBest_append_singleton.mp hp with ⟨hfirst, hle⟩ | ⟨rfl, hall⟩ <;>
        rcases isFirstBest_append_singleton.mp hq with ⟨hfirst', hle'⟩ | ⟨rfl, hall'⟩
      · exact ih hfirst hfirst'
      · exact absurd (hall' p hfirst.mem) hle.not_gt
      · exact absurd (hall q hfirst'.mem) hle'.not_gt
      · rfl

end Pattern

namespace Architecture

open Pattern (Measurable IsFirstBest)

variable {a : Architecture} {technologies : List Text} {steps : List Step} {p : Pattern}

/-- The best pattern so far, with its score; none while no pattern has a layer that is there. -/
inductive BestOf (patterns : List Pattern) (technologies : List Text) : Option Pattern × Float → Prop
  | missing : (∀ p ∈ patterns, p.share technologies ≤ 0) → BestOf patterns technologies (none, 0)
  | found {p : Pattern} : IsFirstBest patterns technologies p → 0 < p.share technologies →
      BestOf patterns technologies (some p, p.score technologies)

/-- One more pattern that is compared. -/
theorem BestOf.step {patterns : List Pattern} {best : Option Pattern × Float} {p : Pattern}
    (h : BestOf patterns technologies best)
    (hall : ∀ q ∈ patterns ++ [p], q.Measurable) :
    BestOf (patterns ++ [p]) technologies
      (if best.2 < p.score technologies then (some p, p.score technologies) else best) := by
  have hp : p.Measurable := hall p (by simp)
  cases h with
  | missing hzero =>
      dsimp only
      split_ifs with hscore
      · have hshare := hp.zero_lt_score_iff.mp hscore
        exact .found (Pattern.isFirstBest_append_singleton.mpr (.inr ⟨rfl, fun q hq => (hzero q hq).trans_lt hshare⟩))
          hshare
      · refine .missing fun q hq => ?_
        rcases List.mem_append.mp hq with hq | hq
        · exact hzero q hq
        · rw [List.mem_singleton.mp hq, ← not_lt, ← hp.zero_lt_score_iff]
          exact hscore
  | found hbest hshare =>
      rename_i q
      have hq : q.Measurable := hall q (by simp [hbest.mem])
      dsimp only
      split_ifs with hscore
      · have hbeats := (hq.score_lt_iff hp).mp hscore
        exact .found (Pattern.isFirstBest_append_singleton.mpr
          (.inr ⟨rfl, fun r hr => (hbest.share_le hr).trans_lt hbeats⟩)) (hshare.trans hbeats)
      · refine .found (Pattern.isFirstBest_append_singleton.mpr (.inl ⟨hbest, ?_⟩)) hshare
        rw [← not_lt, ← hq.score_lt_iff hp]
        exact hscore

theorem bestOf_foldl {patterns : List Pattern} (technologies : List Text) (hall : ∀ p ∈ patterns, p.Measurable) :
    BestOf patterns technologies
      (patterns.foldl (fun best p => if best.2 < p.score technologies then (some p, p.score technologies) else best)
        (none, 0)) := by
  induction patterns using List.reverseRecOn with
  | nil => exact .missing (by simp)
  | append_singleton patterns p ih =>
      rw [List.foldl_append]
      exact (ih fun q hq => hall q (by simp [hq])).step hall

theorem bestOf_best (hall : ∀ p ∈ a.patterns, p.Measurable) (technologies : List Text) :
    BestOf a.patterns technologies (a.best technologies) := bestOf_foldl technologies hall

theorem identify_cases (hall : ∀ p ∈ a.patterns, p.Measurable) (technologies : List Text) :
    (a.identify technologies = none ∧ ∀ p ∈ a.patterns, 2 * p.present technologies ≤ p.layers.length) ∨
      ∃ p, a.identify technologies = some p ∧ IsFirstBest a.patterns technologies p ∧
        p.layers.length < 2 * p.present technologies := by
  have hbest := bestOf_best hall technologies
  unfold identify
  generalize a.best technologies = best at hbest
  cases hbest with
  | missing hzero =>
      refine .inl ⟨by simp, fun p hp => ?_⟩
      rw [← (hall p hp).share_le_half_iff]
      exact (hzero p hp).trans (by norm_num)
  | found hfirst hpos =>
      rename_i p
      have hp := hall p hfirst.mem
      dsimp only
      split_ifs with hscore
      · refine .inl ⟨rfl, fun q hq => ?_⟩
        rw [← (hall q hq).share_le_half_iff]
        exact (hfirst.share_le hq).trans (hp.score_le_half_iff.mp hscore)
      · refine .inr ⟨p, rfl, hfirst, ?_⟩
        rw [← not_le, ← hp.share_le_half_iff, ← hp.score_le_half_iff]
        exact hscore

theorem identify_eq_some_iff (hall : ∀ p ∈ a.patterns, p.Measurable) :
    a.identify technologies = some p ↔
      IsFirstBest a.patterns technologies p ∧ p.layers.length < 2 * p.present technologies := by
  constructor
  · intro h
    rcases identify_cases hall technologies with ⟨hnone, -⟩ | ⟨q, hq, hspec⟩
    · rw [h] at hnone
      cases hnone
    · rw [h] at hq
      cases hq
      exact hspec
  · rintro ⟨hfirst, hmajority⟩
    rcases identify_cases hall technologies with ⟨-, hle⟩ | ⟨q, hq, hfirst', -⟩
    · exact absurd (hle p hfirst.mem) hmajority.not_ge
    · rw [hq, hfirst.unique hfirst']

theorem identify_eq_none_iff (hall : ∀ p ∈ a.patterns, p.Measurable) :
    a.identify technologies = none ↔ ∀ p ∈ a.patterns, 2 * p.present technologies ≤ p.layers.length := by
  rcases identify_cases hall technologies with ⟨hnone, hle⟩ | ⟨p, hp, hfirst, hmajority⟩
  · exact iff_of_true hnone hle
  · refine iff_of_false (by simp [hp]) fun hle => ?_
    exact absurd (hle p hfirst.mem) hmajority.not_ge

/-! ## Issues -/

/-- The issue of a layer that is not there. -/
structure ReportsLayer (layer : Text) (i : Issue) : Prop where
  kind : i.kind = .missingLink
  severity : i.severity = .high
  description : i.description = "Missing expected technology layer: " ++ layer

/-- A flow without a pattern has one issue, about all of its steps. A flow with one has an issue for each layer that is
not there, in order, and these layers are fewer than half of all. -/
inductive Finds (a : Architecture) (steps : List Step) : List Issue → Prop
  | nothing {i : Issue} : a.identify (steps.map (·.technology)) = none → i.kind = .technologyGap →
      i.severity = .medium →
      i.steps = steps.map (·.order) → Finds a steps [i]
  | layers {p : Pattern} {issues : List Issue} : a.identify (steps.map (·.technology)) = some p →
      List.Forall₂ ReportsLayer (p.missing (steps.map (·.technology))) issues →
      issues.length = p.layers.length - p.present (steps.map (·.technology)) → 2 * issues.length < p.layers.length →
      Finds a steps issues

theorem finds_issues (hall : ∀ p ∈ a.patterns, p.Measurable) (steps : List Step) : a.Finds steps (a.issues steps) := by
  unfold issues
  dsimp only
  split
  · rename_i hnone
    exact .nothing hnone rfl rfl rfl
  · rename_i p hp
    have hmajority := ((identify_eq_some_iff hall).mp hp).2
    have hlength := Pattern.present_add_length_missing p (steps.map (·.technology))
    refine .layers hp ?_ (by rw [List.length_map]; omega) (by rw [List.length_map]; omega)
    rw [List.forall₂_map_right_iff, List.forall₂_same]
    exact fun layer _ => ⟨rfl, rfl, rfl⟩

/-- The pattern of a flow is the first one with the largest share of layers, if that is more than a half, and the issues
tell it. -/
theorem follows_first_best (a : Architecture) (hall : ∀ p ∈ a.patterns, p.Measurable) :
    (∀ technologies layer,
      Pattern.hasLayer technologies layer ↔ ∃ t ∈ technologies, Text.lower layer <:+: Text.lower t) ∧
      (∀ technologies p, a.identify technologies = some p ↔
        IsFirstBest a.patterns technologies p ∧ p.layers.length < 2 * p.present technologies) ∧
      (∀ technologies, a.identify technologies = none ↔
        ∀ p ∈ a.patterns, 2 * p.present technologies ≤ p.layers.length) ∧
      ∀ steps, a.Finds steps (a.issues steps) :=
  ⟨fun _ _ => Pattern.hasLayer_iff, fun _ _ => identify_eq_some_iff hall, fun _ => identify_eq_none_iff hall,
    finds_issues hall⟩

theorem follows_service_oriented :
    (∀ p ∈ ({} : Architecture).patterns, p.Measurable) ∧
      ({} : Architecture).identify ["jsp", "Spring Service", "DAO", "Oracle Database"] =
        some ⟨"service_oriented", ["JSP", "Struts Action", "Service", "DAO", "Database"]⟩ := by
  have hall : ∀ p ∈ ({} : Architecture).patterns, p.Measurable := by decide +kernel
  refine ⟨hall, ((follows_first_best {} hall).2.1 _ _).mpr ⟨⟨[_], [_, _], rfl, ?_, ?_⟩, ?_⟩⟩
  · decide +kernel
  · decide +kernel
  · decide +kernel

end Architecture

end RuleFlow
