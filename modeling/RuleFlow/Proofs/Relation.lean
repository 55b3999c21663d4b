import Mathlib.Data.Fintype.Card
import Mathlib.Data.List.Chain
import Mathlib.Logic.Relation

/-!
# Cycles of a relation

Dependencies of components and of parsers are relations. A cycle can be given as the list of its elements (`IsCycle`) or
as a chain that leads back to where it began; an element is accessible when no chain from it goes on forever, which in
a finite relation means that none of them comes to a cycle.
-/

namespace RuleFlow

open Relation (TransGen ReflTransGen)

variable {α : Type} {r s : α → α → Prop}

/-- No chain leads from an element back to it. -/
def Acyclic (r : α → α → Prop) : Prop := ∀ a, ¬ TransGen r a a

/-- Some chain from the element comes to one that a chain leads back to. -/
def ReachesCycle (r : α → α → Prop) (a : α) : Prop := ∃ c, ReflTransGen r a c ∧ TransGen r c c

/-- Different elements, each related to the next one and the last to the first. -/
structure IsCycle (r : α → α → Prop) (cycle : List α) : Prop where
  ne_nil : cycle ≠ []
  nodup : cycle.Nodup
  chain : cycle.IsChain r
  closed : r (cycle.getLast ne_nil) (cycle.head ne_nil)

/-- Elements, each related to the next one and the last to the first. The same ones may come again. -/
structure IsClosedWalk (r : α → α → Prop) (walk : List α) : Prop where
  ne_nil : walk ≠ []
  chain : walk.IsChain r
  closed : r (walk.getLast ne_nil) (walk.head ne_nil)

/-! ## Chains that lead back -/

theorem reflTransGen_of_isChain {a b : α} {cs : List α} (h : (a :: cs).IsChain r) (hb : b ∈ a :: cs) :
    ReflTransGen r a b := by
  induction cs generalizing a with
  | nil =>
      obtain rfl : b = a := by simpa using hb
      exact .refl
  | cons c cs ih =>
      rcases List.mem_cons.mp hb with rfl | hb
      · exact .refl
      · rw [List.isChain_cons_cons] at h
        exact (ReflTransGen.single h.1).trans (ih h.2 hb)

/-- A chain goes on with an element that its last one is related to. -/
theorem isChain_concat {as : List α} {b : α} (h : as.IsChain r) (hb : ∀ a ∈ as.getLast?, r a b) :
    (as ++ [b]).IsChain r := by
  refine h.append (List.isChain_singleton b) fun a ha c hc => ?_
  obtain rfl : b = c := by simpa using hc
  exact hb a ha

theorem IsClosedWalk.not_acyclic {walk : List α} (h : IsClosedWalk r walk) : ¬ Acyclic r := by
  intro hacyclic
  obtain ⟨hne, hchain, hclosed⟩ := h
  cases walk with
  | nil => exact hne rfl
  | cons a as =>
      have hback : ReflTransGen r a ((a :: as).getLast hne) :=
        reflTransGen_of_isChain hchain (List.getLast_mem hne)
      exact hacyclic a (TransGen.tail' hback hclosed)

theorem IsClosedWalk.map {β : Type} {s : β → β → Prop} {walk : List α} (h : IsClosedWalk r walk) (f : α → β)
    (hf : ∀ a ∈ walk, ∀ b, r a b → s (f a) (f b)) : IsClosedWalk s (walk.map f) where
  ne_nil := by simpa using h.ne_nil
  chain := (List.isChain_map f).mpr (h.chain.imp_of_mem_imp fun a b ha _ hab => hf a ha b hab)
  closed := by
    rw [List.getLast_map, List.head_map]
    exact hf _ (List.getLast_mem h.ne_nil) _ h.closed

theorem IsCycle.isClosedWalk {cycle : List α} (h : IsCycle r cycle) : IsClosedWalk r cycle :=
  ⟨h.ne_nil, h.chain, h.closed⟩

theorem IsCycle.not_acyclic {cycle : List α} (h : IsCycle r cycle) : ¬ Acyclic r := h.isClosedWalk.not_acyclic

theorem not_acyclic_iff_isClosedWalk : ¬ Acyclic r ↔ ∃ walk, IsClosedWalk r walk := by
  constructor
  · intro hcyclic
    obtain ⟨a, hcycle⟩ : ∃ a, TransGen r a a := by simpa [Acyclic] using hcyclic
    obtain ⟨b, hab, hba⟩ := TransGen.tail'_iff.mp hcycle
    obtain ⟨as, hchain, hlast⟩ := List.exists_isChain_cons_of_relationReflTransGen hab
    exact ⟨a :: as, List.cons_ne_nil a as, hchain, by rwa [hlast]⟩
  · rintro ⟨walk, h⟩
    exact h.not_acyclic

/-- No chain leads back when each step of it goes down. -/
theorem acyclic_of_lt {β : Type} [Preorder β] (rank : α → β) (h : ∀ a b, r a b → rank b < rank a) : Acyclic r := by
  intro a hcycle
  have hdown : ∀ b, TransGen r a b → rank b < rank a := by
    intro b hab
    induction hab with
    | single hab => exact h _ _ hab
    | tail _ hbc ih => exact (h _ _ hbc).trans ih
  exact lt_irrefl _ (hdown a hcycle)

theorem not_acyclic_iff : ¬ Acyclic r ↔ ∃ a, ReachesCycle r a := by
  simp only [Acyclic, not_forall, not_not]
  constructor
  · rintro ⟨a, h⟩
    exact ⟨a, a, .refl, h⟩
  · rintro ⟨_, c, -, h⟩
    exact ⟨c, h⟩

theorem ReachesCycle.exists_rel {a : α} (h : ReachesCycle r a) : ∃ b, r a b := by
  obtain ⟨c, hac, hcc⟩ := h
  obtain ⟨b, hab, -⟩ := TransGen.head'_iff.mp (TransGen.trans_right hac hcc)
  exact ⟨b, hab⟩

/-- A relation keeps its cycles when it loses pairs of which the second element has no successor. -/
theorem transGen_restrict (hrs : ∀ x y z, r x y → r y z → s x y) {a b c : α} (hab : TransGen r a b) (hbc : r b c) :
    TransGen s a b := by
  induction hab generalizing c with
  | single hab => exact .single (hrs _ _ _ hab hbc)
  | tail _ hxb ih => exact (ih hxb).tail (hrs _ _ _ hxb hbc)

theorem ReachesCycle.restrict (hrs : ∀ x y z, r x y → r y z → s x y) {a : α} (h : ReachesCycle r a) :
    ReachesCycle s a := by
  obtain ⟨c, hac, hcc⟩ := h
  obtain ⟨d, hcd, -⟩ := TransGen.head'_iff.mp hcc
  refine ⟨c, ?_, transGen_restrict hrs hcc hcd⟩
  rcases Relation.reflTransGen_iff_eq_or_transGen.mp hac with rfl | hac
  · exact .refl
  · exact (transGen_restrict hrs hac hcd).to_reflTransGen

theorem ReachesCycle.mono (hrs : ∀ x y, r x y → s x y) {a : α} (h : ReachesCycle r a) : ReachesCycle s a := by
  obtain ⟨c, hac, hcc⟩ := h
  exact ⟨c, ReflTransGen.mono hrs _ _ hac, TransGen.mono hrs _ _ hcc⟩

/-! ## Accessible elements -/

theorem not_transGen_self_of_acc {a : α} (h : Acc (fun y x => r x y) a) : ¬ TransGen r a a := by
  induction h with
  | intro a _ ih =>
      intro hcycle
      obtain ⟨b, hab, hba⟩ := TransGen.head'_iff.mp hcycle
      exact ih b hab (TransGen.tail' hba hab)

/-- In a finite relation a chain that comes to no cycle ends. -/
theorem acc_of_not_reachesCycle [Finite α] {a : α} (h : ¬ ReachesCycle r a) : Acc (fun y x => r x y) a := by
  let after (y x : α) : Prop := ReflTransGen r a x ∧ TransGen r x y
  have : IsTrans α after := ⟨fun _ _ _ hzy hyx => ⟨hyx.1, hyx.2.trans hzy.2⟩⟩
  have : Std.Irrefl after := ⟨fun x hx => h ⟨x, hx.1, hx.2⟩⟩
  have hwf : WellFounded after := Finite.wellFounded_of_trans_of_irrefl after
  have hacc : ∀ x, ReflTransGen r a x → Acc (fun y x => r x y) x := by
    intro x
    induction x using hwf.induction with
    | _ x ih => exact fun hx => Acc.intro x fun y hxy => ih y ⟨hx, .single hxy⟩ (hx.tail hxy)
  exact hacc a .refl

/-- Elements that each have a successor among them come to a cycle. -/
theorem reachesCycle_of_forall_exists [Finite α] {p : α → Prop} (h : ∀ a, p a → ∃ b, p b ∧ r a b) {a : α}
    (ha : p a) : ReachesCycle r a := by
  by_contra hno
  have hacc := acc_of_not_reachesCycle hno
  clear hno
  induction hacc with
  | intro a _ ih =>
      obtain ⟨b, hb, hab⟩ := h a ha
      exact ih b hab hb

end RuleFlow
