import Mathlib.Data.Fintype.EquivFin
import RuleFlow.Parser.Registry

/-!
# Registries that can come about

A registry starts empty or with the default descriptors and changes by its operations only (`Registry.Reachable`). Each
descriptor of such a registry is stored under its own kind and can be worked with (`Registry.Sound`).
-/

namespace RuleFlow.Parser

/-! ## Kinds -/

theorem Kind.mem_all (k : Kind) : k ∈ Kind.all := by
  cases k <;> decide

theorem Kind.nodup_all : Kind.all.Nodup := by
  decide

instance : Fintype Kind where
  elems := ⟨Kind.all, Kind.nodup_all⟩
  complete := Kind.mem_all

@[simp] theorem Kind.update_self {α : Type} (f : Kind → α) (kind : Kind) (value : α) :
    Kind.update f kind value kind = value := by
  simp [Kind.update]

theorem Kind.update_of_ne {α : Type} (f : Kind → α) {kind k : Kind} (value : α) (h : k ≠ kind) :
    Kind.update f kind value k = f k := by
  simp [Kind.update, h]

theorem Kind.update_comm {α : Type} (f : Kind → α) {k l : Kind} (hne : k ≠ l) (a b : α) :
    Kind.update (Kind.update f k a) l b = Kind.update (Kind.update f l b) k a := by
  funext i
  by_cases hk : i = k
  · subst hk
    rw [Kind.update_of_ne _ _ hne, Kind.update_self, Kind.update_self]
  · rw [Kind.update_of_ne _ a hk]
    by_cases hl : i = l
    · subst hl
      rw [Kind.update_self, Kind.update_self]
    · rw [Kind.update_of_ne _ _ hl, Kind.update_of_ne _ _ hl, Kind.update_of_ne _ _ hk]

theorem Kind.name_of_ofName? {t : Text} {kind : Kind} (h : Kind.ofName? t = some kind) : kind.name = t := by
  simpa using List.find?_some h

/-! ## Descriptors -/

/-- A descriptor that may stand under a kind: it is of this kind, reads some file, has time and no negative number of
retries. -/
structure Descriptor.Serves (d : Descriptor) (k : Kind) : Prop where
  kind : d.kind = k
  patterns : d.patterns ≠ []
  timeout : 0 < d.timeout
  maxRetries : 0 ≤ d.maxRetries

theorem Descriptor.serves_defaults : ∀ d ∈ defaults, d.Serves d.kind := by
  have hall : ∀ d ∈ defaults, d.patterns ≠ [] ∧ 0 < d.timeout ∧ 0 ≤ d.maxRetries := by decide
  intro d hd
  obtain ⟨hpatterns, htimeout, hretries⟩ := hall d hd
  exact ⟨rfl, hpatterns, htimeout, hretries⟩

namespace Registry

/-- A registry that operations lead to. Refused limits count, since they may have taken effect in part. -/
inductive Reachable : Registry → Prop
  | empty : Reachable {}
  | defaults : Reachable withDefaults
  | describe {r r' d} : Reachable r → r.describe d = .ok r' → Reachable r'
  | provide {r r' kind factory?} : Reachable r → r.provide kind factory? = .ok r' → Reachable r'
  | limit {r} (kind limits) : Reachable r → Reachable (r.limit kind limits).1

/-! ## What an operation does -/

theorem describe_ok {r r' : Registry} {d : Descriptor} (h : r.describe d = .ok r') :
    d.patterns ≠ [] ∧ 0 < d.timeout ∧ 0 ≤ d.maxRetries ∧ r.descriptor? d.kind = none ∧
      r' = r.setDescriptor d.kind d := by
  unfold describe at h
  split at h
  · cases h
  split at h
  · cases h
  split at h
  · cases h
  split at h
  · cases h
  · rename_i hpatterns htimeout hretries hnone
    cases h
    exact ⟨by simpa using hpatterns, by omega, by omega, by simpa using hnone, rfl⟩

theorem describe_eq_ok {r : Registry} {d : Descriptor} (hserves : d.Serves d.kind)
    (hnone : r.descriptor? d.kind = none) :
    r.describe d = .ok (r.setDescriptor d.kind d) := by
  have htimeout : ¬ d.timeout ≤ 0 := Int.not_le.mpr hserves.timeout
  have hretries : ¬ d.maxRetries < 0 := Int.not_lt.mpr hserves.maxRetries
  simp [describe, hserves.patterns, htimeout, hretries, hnone]

/-- Descriptors of different kinds that have none yet are all added. -/
theorem describeAll_eq_ok {r : Registry} {ds : List Descriptor} (hserves : ∀ d ∈ ds, d.Serves d.kind)
    (hkinds : (ds.map (·.kind)).Nodup) (hnone : ∀ d ∈ ds, r.descriptor? d.kind = none) :
    r.describeAll ds = .ok (ds.foldl (fun r d => r.setDescriptor d.kind d) r) := by
  unfold describeAll
  induction ds generalizing r with
  | nil => rfl
  | cons d ds ih =>
      obtain ⟨hd, hrest⟩ := List.forall_mem_cons.mp hserves
      obtain ⟨hnew, hothers⟩ := List.forall_mem_cons.mp hnone
      rw [List.map_cons, List.nodup_cons] at hkinds
      have hstill : ∀ e ∈ ds, (r.setDescriptor d.kind d).descriptor? e.kind = none := by
        intro e he
        have hne : e.kind ≠ d.kind := fun h => hkinds.1 (List.mem_map.mpr ⟨e, he, h⟩)
        exact (Kind.update_of_ne _ _ hne).trans (hothers e he)
      rw [List.foldlM_cons, describe_eq_ok hd hnew, List.foldl_cons]
      exact ih hrest hkinds.2 hstill

/-- The registry with the default descriptors is what adding them one after the other to an empty one leads to. -/
theorem describeAll_defaults : describeAll {} Descriptor.defaults = .ok withDefaults :=
  describeAll_eq_ok Descriptor.serves_defaults (by decide) fun _ _ => rfl

theorem provide_ok {r r' : Registry} {kind : Kind} {factory? : Option Factory}
    (h : r.provide kind factory? = .ok r') :
    ∃ factory, factory? = some factory ∧ r.factory? kind = none ∧
      r' = { r with factory? := Kind.update r.factory? kind (some factory) } := by
  cases factory? with
  | none => cases h
  | some factory =>
      simp only [provide] at h
      split at h
      · cases h
      · rename_i hnone
        cases h
        exact ⟨factory, rfl, by simpa using hnone, rfl⟩

theorem limitTimeout_ok {kind : Kind} {d d' : Descriptor} {timeout : Option Int}
    (h : limitTimeout kind d timeout = .ok d') :
    d' = { d with timeout := timeout.getD d.timeout } ∧ ∀ t ∈ timeout, 0 < t := by
  cases timeout with
  | none => cases h; simp
  | some t =>
      simp only [limitTimeout] at h
      split at h
      · cases h
      · cases h
        simp
        omega

theorem limitRetries_ok {kind : Kind} {d d' : Descriptor} {retries : Option Int}
    (h : limitRetries kind d retries = .ok d') :
    d' = { d with maxRetries := retries.getD d.maxRetries } ∧ ∀ n ∈ retries, 0 ≤ n := by
  cases retries with
  | none => cases h; simp
  | some n =>
      simp only [limitRetries] at h
      split at h
      · cases h
      · cases h
        simp
        omega

theorem getD_of_forall {limit : Option Int} {good : Int → Prop} (hlimit : ∀ x ∈ limit, good x) {default : Int}
    (hdefault : good default) :
    good (limit.getD default) := by
  cases limit with
  | none => exact hdefault
  | some x => exact hlimit x rfl

/-- Limits change at most the time limit and the retries of one descriptor. -/
theorem limit_cases (r : Registry) (kind : Kind) (limits : Limits) :
    (r.limit kind limits).1 = r ∨
      ∃ d timeout maxRetries, r.descriptor? kind = some d ∧ (0 < d.timeout → 0 < timeout) ∧
        (0 ≤ d.maxRetries → 0 ≤ maxRetries) ∧
        (r.limit kind limits).1 = r.setDescriptor kind { d with timeout, maxRetries } := by
  unfold limit
  cases hd : r.descriptor? kind with
  | none => exact Or.inl rfl
  | some d =>
      cases ht : limitTimeout kind d limits.timeout with
      | error e => exact Or.inl (by simp only [ht])
      | ok timed =>
          obtain ⟨rfl, hpos⟩ := limitTimeout_ok ht
          cases hn : limitRetries kind { d with timeout := limits.timeout.getD d.timeout } limits.maxRetries with
          | error e =>
              simp only [ht, hn]
              exact Or.inr ⟨d, _, _, rfl, getD_of_forall hpos, id, rfl⟩
          | ok limited =>
              obtain ⟨rfl, hnonneg⟩ := limitRetries_ok hn
              simp only [ht, hn]
              exact Or.inr ⟨d, _, _, rfl, getD_of_forall hpos, getD_of_forall hnonneg, rfl⟩

theorem Reachable.describeAll {r r' : Registry} {ds : List Descriptor} (hr : r.Reachable)
    (h : r.describeAll ds = .ok r') : r'.Reachable := by
  unfold Registry.describeAll at h
  induction ds generalizing r with
  | nil =>
      cases h
      exact hr
  | cons d ds ih =>
      rw [List.foldlM_cons] at h
      cases hd : r.describe d with
      | error e =>
          rw [hd] at h
          cases h
      | ok described =>
          rw [hd] at h
          exact ih (hr.describe hd) h

/-! ## Descriptors under their kinds -/

/-- Each descriptor is stored under its own kind. -/
def Keyed (r : Registry) : Prop := ∀ k, ∀ d ∈ r.descriptor? k, d.kind = k

/-- Each descriptor serves the kind that it is stored under. -/
def Sound (r : Registry) : Prop := ∀ k, ∀ d ∈ r.descriptor? k, d.Serves k

theorem Sound.setDescriptor {r : Registry} (h : r.Sound) {kind : Kind} {d : Descriptor} (hd : d.Serves kind) :
    (r.setDescriptor kind d).Sound := by
  intro k e he
  by_cases hk : k = kind
  · subst hk
    have : d = e := by simpa [Registry.setDescriptor] using he
    exact this ▸ hd
  · exact h k e (by simpa [Registry.setDescriptor, Kind.update_of_ne _ _ hk] using he)

theorem Sound.foldl_setDescriptor {r : Registry} (h : r.Sound) {ds : List Descriptor}
    (hds : ∀ d ∈ ds, d.Serves d.kind) :
    (ds.foldl (fun r d => r.setDescriptor d.kind d) r).Sound := by
  induction ds generalizing r with
  | nil => exact h
  | cons d ds ih =>
      obtain ⟨hd, hrest⟩ := List.forall_mem_cons.mp hds
      exact ih (h.setDescriptor hd) hrest

theorem Reachable.sound {r : Registry} (h : r.Reachable) : r.Sound := by
  induction h with
  | empty => intro k d hd; cases hd
  | defaults => exact Sound.foldl_setDescriptor (by intro k d hd; cases hd) Descriptor.serves_defaults
  | describe _ hr ih =>
      obtain ⟨hpatterns, htimeout, hretries, -, rfl⟩ := describe_ok hr
      exact ih.setDescriptor ⟨rfl, hpatterns, htimeout, hretries⟩
  | provide _ hr ih =>
      obtain ⟨_, -, -, rfl⟩ := provide_ok hr
      exact ih
  | @limit r kind limits _ ih =>
      rcases r.limit_cases kind limits with heq | ⟨d, timeout, maxRetries, hd, htimeout, hretries, heq⟩
      · rw [heq]; exact ih
      · have hserves := ih kind d hd
        rw [heq]
        exact ih.setDescriptor ⟨hserves.kind, hserves.patterns, htimeout hserves.timeout, hretries hserves.maxRetries⟩

theorem Reachable.keyed {r : Registry} (h : r.Reachable) : r.Keyed := fun k d hd => (h.sound k d hd).kind

end Registry

end RuleFlow.Parser
