import Mathlib.Data.List.Forall2
import Mathlib.Data.List.Nodup

/-!
# Steps that may fail

Steps are taken for the items of a list one after the other, up to the first that fails. Two such runs have the same
outcome if both fail or both come to the same state (`SameOutcome`). The order of the items makes no difference to the
outcome where the steps of any two items can be swapped.
-/

namespace RuleFlow

variable {α β γ ε κ : Type}

theorem bind_eq_ok_iff {step : Except ε α} {rest : α → Except ε β} {b : β} :
    step >>= rest = .ok b ↔ ∃ a, step = .ok a ∧ rest a = .ok b := by
  cases step <;> simp [bind, Except.bind]

theorem bind_eq_error_iff {step : Except ε α} {rest : α → Except ε β} {e : ε} :
    step >>= rest = .error e ↔ step = .error e ∨ ∃ a, step = .ok a ∧ rest a = .error e := by
  cases step <;> simp [bind, Except.bind]

/-- Steps for the items of a list succeed together if each one does. -/
theorem mapM_eq_ok_iff {step : α → Except ε β} {items : List α} {results : List β} :
    items.mapM step = .ok results ↔ List.Forall₂ (fun x y => step x = .ok y) items results := by
  induction items generalizing results with
  | nil => cases results <;> simp [pure, Except.pure]
  | cons x items ih =>
      simp only [List.mapM_cons, bind_eq_ok_iff, List.forall₂_cons_left_iff, ih]
      constructor
      · rintro ⟨y, hy, rest, hrest, ⟨⟩⟩
        exact ⟨y, rest, hy, hrest, rfl⟩
      · rintro ⟨y, rest, hy, hrest, rfl⟩
        exact ⟨y, hy, rest, hrest, rfl⟩

/-- Steps one after the other succeed if each one does as long as what is left to do and what has come of the others fit
together. -/
theorem exists_foldlM {step : β → α → Except ε β} (fits : List α → β → Prop)
    (hstep : ∀ x items b, fits (x :: items) b → ∃ b', step b x = .ok b' ∧ fits items b')
    {items : List α} {b : β} (h : fits items b) :
    ∃ b', items.foldlM step b = .ok b' ∧ fits [] b' := by
  induction items generalizing b with
  | nil => exact ⟨b, rfl, h⟩
  | cons x items ih =>
      obtain ⟨next, hnext, hfits⟩ := hstep x items b h
      obtain ⟨last, hlast, hend⟩ := ih hfits
      exact ⟨last, by rw [List.foldlM_cons, hnext]; exact hlast, hend⟩

/-- Where each step goes along with a map of the states, the whole run does. -/
theorem foldlM_map {step : β → α → Except ε β} {step' : γ → α → Except ε γ} (f : β → γ)
    (hstep : ∀ b x, step' (f b) x = (step b x).map f) (items : List α) (b : β) :
    items.foldlM step' (f b) = (items.foldlM step b).map f := by
  induction items generalizing b with
  | nil => rfl
  | cons x items ih =>
      rw [List.foldlM_cons, List.foldlM_cons, hstep]
      cases step b x with
      | error e => rfl
      | ok next => exact ih next

/-- Steps that succeed together succeed one by one. -/
theorem exists_of_foldlM {step : β → α → Except ε β} {items : List α} {b b' : β} (h : items.foldlM step b = .ok b')
    {x : α} (hx : x ∈ items) :
    ∃ c c', step c x = .ok c' := by
  induction items generalizing b with
  | nil => cases hx
  | cons y items ih =>
      rw [List.foldlM_cons] at h
      obtain ⟨next, hnext, hrest⟩ := bind_eq_ok_iff.mp h
      cases hx with
      | head => exact ⟨b, next, hnext⟩
      | tail _ hx => exact ih hrest hx

/-! ## Outcomes -/

/-- Both succeed with the same result, or both fail. -/
inductive SameOutcome : Except ε α → Except ε α → Prop
  | ok (a : α) : SameOutcome (.ok a) (.ok a)
  | error (e e' : ε) : SameOutcome (.error e) (.error e')

namespace SameOutcome

variable {x y z : Except ε α}

theorem refl (x : Except ε α) : SameOutcome x x := by
  cases x with
  | ok a => exact .ok a
  | error e => exact .error e e

theorem trans (hxy : SameOutcome x y) (hyz : SameOutcome y z) : SameOutcome x z := by
  cases hxy with
  | ok a => exact hyz
  | error e e' =>
      cases hyz with
      | error _ e'' => exact .error e e''

theorem symm (hxy : SameOutcome x y) : SameOutcome y x := by
  cases hxy with
  | ok a => exact .ok a
  | error e e' => exact .error e' e

theorem bind {rest rest' : α → Except ε β} (hxy : SameOutcome x y) (hrest : ∀ a, SameOutcome (rest a) (rest' a)) :
    SameOutcome (x >>= rest) (y >>= rest') := by
  cases hxy with
  | ok a => exact hrest a
  | error e e' => exact .error e e'

theorem map (hxy : SameOutcome x y) (f : α → β) : SameOutcome (x.map f) (y.map f) := by
  cases hxy with
  | ok a => exact .ok (f a)
  | error e e' => exact .error e e'

/-! Two steps can be swapped if one of them fails in every state, or if each changes all states in one way and the
changes commute. -/

section

variable {f g : β → Except ε β} {change change' : β → β} {e : ε}

theorem swap_of_error (hf : ∀ b, f b = .error e) (b : β) : SameOutcome (f b >>= g) (g b >>= f) := by
  rw [hf]
  cases g b with
  | ok next =>
      change SameOutcome (.error e) (f next)
      rw [hf]
      exact .error e e
  | error e' => exact .error e e'

theorem swap_of_error_right (f : β → Except ε β) (hg : ∀ b, g b = .error e) (b : β) :
    SameOutcome (f b >>= g) (g b >>= f) :=
  (swap_of_error hg b).symm

theorem swap_of_ok (hf : ∀ b, f b = .ok (change b)) (hg : ∀ b, g b = .ok (change' b))
    (hcomm : ∀ b, change' (change b) = change (change' b)) (b : β) :
    SameOutcome (f b >>= g) (g b >>= f) := by
  rw [hf, hg]
  change SameOutcome (g (change b)) (f (change' b))
  rw [hf, hg, hcomm]
  exact .ok _

end

theorem foldlM_perm {step : β → α → Except ε β} (key : α → κ)
    (hswap : ∀ x y b, key x ≠ key y → SameOutcome (step b x >>= (step · y)) (step b y >>= (step · x)))
    {items items' : List α} (hperm : items.Perm items') (hkeys : (items.map key).Nodup) (b : β) :
    SameOutcome (items.foldlM step b) (items'.foldlM step b) := by
  induction hperm generalizing b with
  | nil => exact .refl _
  | cons x _ ih =>
      rw [List.foldlM_cons, List.foldlM_cons]
      exact (refl _).bind fun next => ih (List.nodup_cons.mp hkeys).2 next
  | swap x y items =>
      have hne : key y ≠ key x := by
        simp only [List.map_cons, List.nodup_cons, List.mem_cons, not_or] at hkeys
        exact hkeys.1.1
      simp only [List.foldlM_cons, ← bind_assoc]
      exact (hswap y x b hne).bind fun next => refl _
  | trans hperm _ ih ih' => exact (ih hkeys b).trans (ih' ((hperm.map key).nodup_iff.mp hkeys) b)

theorem foldlM_forall₂ {step : β → α → Except ε β} {r : α → α → Prop} {items items' : List α}
    (h : List.Forall₂ r items items')
    (hstep : ∀ x ∈ items, ∀ y b, r x y → SameOutcome (step b x) (step b y)) (b : β) :
    SameOutcome (items.foldlM step b) (items'.foldlM step b) := by
  induction h generalizing b with
  | nil => exact .refl _
  | cons hxy _ ih =>
      rw [List.foldlM_cons, List.foldlM_cons]
      exact (hstep _ List.mem_cons_self _ b hxy).bind fun next =>
        ih (fun x hx => hstep x (List.mem_cons_of_mem _ hx)) next

end SameOutcome

end RuleFlow
