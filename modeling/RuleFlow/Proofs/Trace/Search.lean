import Mathlib.Data.Finset.Card
import RuleFlow.Proofs.Relation
import RuleFlow.Trace.Rule.Cycle

/-!
# Searching for a cycle

`Search` says how the depth first search goes on, without any bound on its depth. The search with enough fuel follows it
(`search_visit`), so it always ends. What it ends with is a cycle (`Search.isCycle`), or the components that it visited,
from which no chain goes on forever (`Search.settled`).
-/

namespace RuleFlow.Rule

/-- The search from the last component of `path`, of whose dependencies `todo` are left, ends with an answer. -/
inductive Search (dependencies : Text → List Text) :
    (path visited todo : List Text) → Except (List Text) (List Text) → Prop
  | done {path visited} : Search dependencies path visited [] (.ok visited)
  | known {path visited d rest answer} : d ∈ visited → d ∉ path → Search dependencies path visited rest answer →
      Search dependencies path visited (d :: rest) answer
  | closed {path visited d rest} : d ∈ visited → d ∈ path →
      Search dependencies path visited (d :: rest) (.error (path.dropWhile (· != d)))
  | found {path visited d rest cycle} : d ∉ visited →
      Search dependencies (path ++ [d]) (d :: visited) (dependencies d) (.error cycle) →
      Search dependencies path visited (d :: rest) (.error cycle)
  | entered {path visited d rest visited' answer} : d ∉ visited →
      Search dependencies (path ++ [d]) (d :: visited) (dependencies d) (.ok visited') →
      Search dependencies path visited' rest answer → Search dependencies path visited (d :: rest) answer

variable {dependencies : Text → List Text} {path visited todo : List Text} {answer : Except (List Text) (List Text)}

namespace Search

/-! ## Answers -/

/-- The search has one answer only. -/
theorem unique {other : Except (List Text) (List Text)} (h : Search dependencies path visited todo answer)
    (h' : Search dependencies path visited todo other) : answer = other := by
  induction h generalizing other with
  | done => cases h'; rfl
  | known hv hp _ ih =>
      cases h' with
      | known _ _ h' => exact ih h'
      | closed _ hp' => exact absurd hp' hp
      | found hv' _ => exact absurd hv hv'
      | entered hv' _ _ => exact absurd hv hv'
  | closed hv hp =>
      cases h' with
      | known _ hp' _ => exact absurd hp hp'
      | closed _ _ => rfl
      | found hv' _ => exact absurd hv hv'
      | entered hv' _ _ => exact absurd hv hv'
  | found hv _ ih =>
      cases h' with
      | known hv' _ _ => exact absurd hv' hv
      | closed hv' _ => exact absurd hv' hv
      | found _ h' => exact ih h'
      | entered _ h' _ => exact nomatch ih h'
  | entered hv _ _ ih ih' =>
      cases h' with
      | known hv' _ _ => exact absurd hv' hv
      | closed hv' _ => exact absurd hv' hv
      | found _ h' => exact nomatch ih h'
      | entered _ h' h'' =>
          cases ih h'
          exact ih' h''

/-- What was visited stays visited. -/
theorem visited_subset {visited' : List Text} (h : Search dependencies path visited todo (.ok visited')) :
    visited ⊆ visited' := by
  generalize hanswer : Except.ok visited' = answer at h
  induction h generalizing visited' with
  | done => cases hanswer; exact List.Subset.refl _
  | known _ _ _ ih => exact ih hanswer
  | closed => cases hanswer
  | found => cases hanswer
  | entered _ _ _ ih ih' => exact fun c hc => ih' hanswer (ih rfl (List.mem_cons_of_mem _ hc))

/-! ## A cycle that is found -/

/-- The path is a chain of visited components, and `todo` are dependencies of the last one. -/
structure Trail (dependencies : Text → List Text) (path visited todo : List Text) : Prop where
  chain : path.IsChain fun c d => d ∈ dependencies c
  nodup : path.Nodup
  subset : path ⊆ visited
  leads : ∀ c ∈ path.getLast?, todo ⊆ dependencies c

theorem Trail.nil (dependencies : Text → List Text) (visited todo : List Text) :
    Trail dependencies [] visited todo where
  chain := .nil
  nodup := .nil
  subset := by simp
  leads := by simp

theorem Trail.tail {d : Text} {rest : List Text} (h : Trail dependencies path visited (d :: rest)) :
    Trail dependencies path visited rest where
  chain := h.chain
  nodup := h.nodup
  subset := h.subset
  leads := fun c hc _ hx => h.leads c hc (List.mem_cons_of_mem _ hx)

theorem append_singleton_subset_cons (h : path ⊆ visited) (d : Text) : path ++ [d] ⊆ d :: visited := by
  intro c hc
  rcases List.mem_append.mp hc with hc | hc
  · exact List.mem_cons_of_mem _ (h hc)
  · exact List.mem_singleton.mp hc ▸ List.mem_cons_self

theorem Trail.enter {d : Text} {rest : List Text} (h : Trail dependencies path visited (d :: rest))
    (hd : d ∉ visited) : Trail dependencies (path ++ [d]) (d :: visited) (dependencies d) where
  chain := isChain_concat h.chain fun c hc => h.leads c hc List.mem_cons_self
  nodup := List.nodup_append.mpr ⟨h.nodup, List.nodup_singleton d, by
    rintro c hc e he rfl
    obtain rfl : c = d := by simpa using he
    exact hd (h.subset hc)⟩
  subset := append_singleton_subset_cons h.subset d
  leads := by
    intro c hc
    obtain rfl : d = c := by simpa using hc
    exact List.Subset.refl _

/-- The part of the path from the component that closes it is a cycle. -/
theorem Trail.isCycle {d : Text} {rest : List Text} (h : Trail dependencies path visited (d :: rest))
    (hd : d ∈ path) : IsCycle (fun c d => d ∈ dependencies c) (path.dropWhile (· != d)) := by
  obtain ⟨before, after, rfl, hbefore⟩ := List.eq_append_cons_of_mem hd
  have hdrop : (before ++ d :: after).dropWhile (· != d) = d :: after := by
    have hne : ∀ c ∈ before, (c != d) = true := by
      intro c hc
      rw [bne_iff_ne]
      rintro rfl
      exact hbefore hc
    rw [List.dropWhile_append_of_pos hne]
    simp
  rw [hdrop]
  have hsuffix : d :: after <:+ before ++ d :: after := List.suffix_append _ _
  refine ⟨by simp, h.nodup.sublist hsuffix.sublist, h.chain.suffix hsuffix, ?_⟩
  refine h.leads _ ?_ List.mem_cons_self
  simp [List.getLast?_eq_some_getLast]

theorem isCycle {cycle : List Text} (h : Search dependencies path visited todo (.error cycle))
    (htrail : Trail dependencies path visited todo) : IsCycle (fun c d => d ∈ dependencies c) cycle := by
  generalize hanswer : Except.error cycle = answer at h
  induction h with
  | done => cases hanswer
  | known _ _ _ ih => exact ih htrail.tail hanswer
  | closed _ hp => cases hanswer; exact htrail.isCycle hp
  | found hv _ ih => exact ih (htrail.enter hv) hanswer
  | entered hv h _ _ ih' =>
      refine ih' ⟨htrail.chain, htrail.nodup, ?_, htrail.tail.leads⟩ hanswer
      exact fun c hc => h.visited_subset (List.mem_cons_of_mem _ (htrail.subset hc))

/-! ## Components that are left -/

/-- No chain from a visited component that is not on the path goes on forever. -/
def Settled (dependencies : Text → List Text) (path visited : List Text) : Prop :=
  ∀ c ∈ visited, c ∉ path → Acc (fun d c => d ∈ dependencies c) c

theorem Settled.enter (h : Settled dependencies path visited) (d : Text) :
    Settled dependencies (path ++ [d]) (d :: visited) := by
  intro c hc hout
  rw [List.mem_append, List.mem_singleton, not_or] at hout
  exact h c ((List.mem_cons.mp hc).resolve_left hout.2) hout.1

/-- A component all of whose dependencies were left is left itself. -/
theorem Settled.leave {d : Text} (h : Settled dependencies (path ++ [d]) visited)
    (hdeps : ∀ e ∈ dependencies d, e ∈ visited ∧ e ∉ path ++ [d]) : Settled dependencies path visited := by
  intro c hc hout
  by_cases hcd : c = d
  · subst hcd
    exact Acc.intro c fun e he => h e (hdeps e he).1 (hdeps e he).2
  · exact h c hc (by simp [hout, hcd])

/-- A search that meets no cycle settles what it looks at: a component is left only after all its dependencies. -/
theorem settled {visited' : List Text} (h : Search dependencies path visited todo (.ok visited'))
    (hpath : path ⊆ visited) (hsettled : Settled dependencies path visited) :
    Settled dependencies path visited' ∧ ∀ d ∈ todo, d ∈ visited' ∧ d ∉ path := by
  generalize hanswer : Except.ok visited' = answer at h
  induction h generalizing visited' with
  | done => cases hanswer; exact ⟨hsettled, by simp⟩
  | @known path visited d rest answer hv hp h ih =>
      cases hanswer
      obtain ⟨hall, htodo⟩ := ih hpath hsettled rfl
      refine ⟨hall, ?_⟩
      intro e he
      rcases List.mem_cons.mp he with rfl | he
      · exact ⟨h.visited_subset hv, hp⟩
      · exact htodo e he
  | closed => cases hanswer
  | found => cases hanswer
  | @entered path visited d rest visited'' answer hv h h' ih ih' =>
      cases hanswer
      have hd : d ∉ path := fun hd => hv (hpath hd)
      obtain ⟨hall, hdeps⟩ := ih (append_singleton_subset_cons hpath d) (hsettled.enter d) rfl
      have hgrown : d :: visited ⊆ visited'' := h.visited_subset
      obtain ⟨hall', hrest⟩ := ih' (fun c hc => hgrown (List.mem_cons_of_mem _ (hpath hc))) (hall.leave hdeps) rfl
      refine ⟨hall', ?_⟩
      intro e he
      rcases List.mem_cons.mp he with rfl | he
      · exact ⟨h'.visited_subset (hgrown List.mem_cons_self), hd⟩
      · exact hrest e he

end Search

end RuleFlow.Rule
