import RuleFlow.Proofs.Parser.Operations

/-!
# What operations keep

Whatever is asked of a registry, and whatever of it is refused, its descriptors serve their kinds, its factories are the
first ones that were there for their kinds, and limits go to one descriptor only.
-/

namespace RuleFlow.Parser.Registry

variable {r : Registry} {kind : Kind} {d : Descriptor}

/-! ## Sequences of operations -/

/-- An empty registry, or one with the default descriptors. -/
def initial (defaults : Bool) : Registry := if defaults then withDefaults else {}

theorem reachable_initial (defaults : Bool) : (initial defaults).Reachable := by
  cases defaults with
  | false => exact .empty
  | true => exact .defaults

theorem Reachable.perform (hr : r.Reachable) (op : Operation) : (r.perform op).1.Reachable := by
  cases op with
  | describe d =>
      cases hd : r.describe d with
      | ok described =>
          simp only [Registry.perform, hd]
          exact hr.describe hd
      | error e =>
          simp only [Registry.perform, hd]
          exact hr
  | provide kind factory? =>
      cases hf : r.provide kind factory? with
      | ok provided =>
          simp only [Registry.perform, hf]
          exact hr.provide hf
      | error e =>
          simp only [Registry.perform, hf]
          exact hr
  | limit kind limits => exact hr.limit kind limits

theorem Reachable.performAll (hr : r.Reachable) (ops : List Operation) : (r.performAll ops).Reachable := by
  induction ops generalizing r with
  | nil => exact hr
  | cons op ops ih => exact ih (hr.perform op)

/-! ## Descriptors -/

theorem pairwise_rank_descriptors (hr : r.Keyed) : r.descriptors.Pairwise (·.kind.rank < ·.kind.rank) := by
  have hall : Kind.all.Pairwise (·.rank < ·.rank) := by decide
  rw [descriptors, List.pairwise_filterMap]
  refine hall.imp fun {j k} hjk d hd e he => ?_
  rwa [hr j d hd, hr k e he]

theorem mem_descriptors_iff (hr : r.Keyed) : d ∈ r.descriptors ↔ r.descriptor? d.kind = some d := by
  rw [descriptors, List.mem_filterMap]
  constructor
  · rintro ⟨k, -, hd⟩
    rwa [hr k d hd]
  · exact fun hd => ⟨d.kind, d.kind.mem_all, hd⟩

/-! ## Factories -/

/-- The factory that an operation offers for a kind, if there is one. -/
def Operation.offered? (kind : Kind) : Operation → Option Factory
  | provide k factory? => if k = kind then factory? else none
  | _ => none

theorem Operation.eq_provide_of_offered? {op : Operation} {factory : Factory} (h : op.offered? kind = some factory) :
    op = .provide kind (some factory) := by
  cases op with
  | describe d => cases h
  | limit k limits => cases h
  | provide k factory? =>
      simp only [offered?, Option.ite_none_right_eq_some] at h
      rw [h.1, h.2]

theorem factory?_limit (r : Registry) (kind : Kind) (limits : Limits) :
    (r.limit kind limits).1.factory? = r.factory? := by
  rcases r.limit_cases kind limits with heq | ⟨d, timeout, maxRetries, -, -, -, heq⟩
  · rw [heq]
  · rw [heq]
    rfl

/-- A factory that is there stays, and else the one that is offered is taken. -/
theorem factory?_perform (r : Registry) (op : Operation) (kind : Kind) :
    (r.perform op).1.factory? kind = (r.factory? kind).or (op.offered? kind) := by
  cases op with
  | describe d =>
      cases hd : r.describe d with
      | ok described =>
          obtain ⟨-, -, -, -, rfl⟩ := describe_ok hd
          simp [perform, hd, Operation.offered?, setDescriptor]
      | error e => simp [perform, hd, Operation.offered?]
  | limit k limits => simp [perform, factory?_limit, Operation.offered?]
  | provide k factory? =>
      cases hf : r.provide k factory? with
      | ok provided =>
          obtain ⟨factory, rfl, hnone, rfl⟩ := provide_ok hf
          by_cases hk : k = kind
          · subst hk
            simp [perform, hf, Operation.offered?, hnone]
          · simp [perform, hf, Operation.offered?, hk, Kind.update_of_ne _ _ (Ne.symm hk)]
      | error e =>
          by_cases hk : k = kind
          · subst hk
            cases factory? with
            | none => simp [perform, hf, Operation.offered?]
            | some factory =>
                cases hold : r.factory? k with
                | none => simp [provide, hold] at hf
                | some old => simp [perform, hf, hold]
          · simp [perform, hf, Operation.offered?, hk]

theorem factory?_performAll (r : Registry) (ops : List Operation) (kind : Kind) :
    (r.performAll ops).factory? kind = (r.factory? kind).or (ops.findSome? (Operation.offered? kind)) := by
  induction ops generalizing r with
  | nil => simp [performAll]
  | cons op ops ih =>
      have hrest : (r.performAll (op :: ops)).factory? kind = ((r.perform op).1.performAll ops).factory? kind := rfl
      rw [hrest, ih, factory?_perform, List.findSome?_cons, Option.or_assoc]
      cases op.offered? kind with
      | none => rfl
      | some factory => rfl

theorem factory?_initial (defaults : Bool) (kind : Kind) : (initial defaults).factory? kind = none := by
  cases defaults with
  | false => rfl
  | true => rfl

/-! ## Limits -/

theorem descriptor?_limit_of_ne (r : Registry) (limits : Limits) {other : Kind} (hne : other ≠ kind) :
    (r.limit kind limits).1.descriptor? other = r.descriptor? other := by
  rcases r.limit_cases kind limits with heq | ⟨d, timeout, maxRetries, -, -, -, heq⟩
  · rw [heq]
  · rw [heq]
    exact Kind.update_of_ne _ _ hne

theorem exists_descriptor?_limit (r : Registry) (kind : Kind) (limits : Limits) :
    ∃ timeout maxRetries, (r.limit kind limits).1.descriptor? kind =
      (r.descriptor? kind).map fun d => { d with timeout, maxRetries } := by
  rcases r.limit_cases kind limits with heq | ⟨d, timeout, maxRetries, hd, -, -, heq⟩
  · rw [heq]
    cases hd : r.descriptor? kind with
    | none => exact ⟨0, 0, rfl⟩
    | some d => exact ⟨d.timeout, d.maxRetries, rfl⟩
  · rw [heq, hd]
    exact ⟨timeout, maxRetries, descriptor?_setDescriptor_self r kind _⟩

/-! ## Invariants -/

/-- After any operations, refused ones among them, each descriptor stands under its own kind with something to read,
time and no negative number of retries, and the descriptors are listed in the order of their kinds. Each factory is one
that was offered, since none at all is refused as a factory. Limits that are applied next change one descriptor at most,
and of that nothing but the time limit and the retries. -/
theorem performAll_invariants (defaults : Bool) (ops : List Operation) :
    let r := (initial defaults).performAll ops
    (∀ kind d, r.descriptor? kind = some d → d.kind = kind ∧ d.patterns ≠ [] ∧ 0 < d.timeout ∧ 0 ≤ d.maxRetries) ∧
      (r.descriptors.Pairwise (·.kind.rank < ·.kind.rank) ∧ ∀ d, d ∈ r.descriptors ↔ r.descriptor? d.kind = some d) ∧
      (∀ kind factory, r.factory? kind = some factory → .provide kind (some factory) ∈ ops) ∧
      (∀ kind, r.perform (.provide kind none) = (r, some (.factoryMissing kind))) ∧
      ∀ kind limits, let limited := (r.perform (.limit kind limits)).1
        (∀ other, other ≠ kind → limited.descriptor? other = r.descriptor? other) ∧
          ∃ timeout maxRetries, limited.descriptor? kind =
            (r.descriptor? kind).map fun d => { d with timeout, maxRetries } := by
  intro r
  have hreachable : r.Reachable := (reachable_initial defaults).performAll ops
  refine ⟨fun kind d hd => ?_,
    ⟨pairwise_rank_descriptors hreachable.keyed, fun d => mem_descriptors_iff hreachable.keyed⟩,
    fun kind factory hfactory => ?_, fun kind => rfl, fun kind limits => ?_⟩
  · obtain ⟨hkind, hpatterns, htimeout, hretries⟩ := hreachable.sound kind d hd
    exact ⟨hkind, hpatterns, htimeout, hretries⟩
  · rw [factory?_performAll, factory?_initial, Option.none_or] at hfactory
    obtain ⟨op, hop, hoffered⟩ := List.exists_of_findSome?_eq_some hfactory
    exact Operation.eq_provide_of_offered? hoffered ▸ hop
  · exact ⟨fun other hne => descriptor?_limit_of_ne r limits hne, exists_descriptor?_limit r kind limits⟩

end RuleFlow.Parser.Registry
