import RuleFlow.Options.Basic
import RuleFlow.Proofs.Keyed
import RuleFlow.Proofs.Parser.Operations

/-!
# Limits from two layers

Good limits for described kinds reach the registry as they are set (`registry_limited`). Of two layers the upper one
gives all limits of a kind or none: where it sets only one of them, the other one of the lower layer is lost and the
default takes its place.
-/

namespace RuleFlow

open RuleFlow.Parser (Kind Descriptor Limits Registry Factory)

namespace Parser.Registry

variable {kind : Kind} {d : Descriptor} {timeout retries : Option Int}

theorem limitTimeout_eq (kind : Kind) (d : Descriptor) (h : ∀ t ∈ timeout, 0 < t) :
    limitTimeout kind d timeout = .ok { d with timeout := timeout.getD d.timeout } := by
  cases timeout with
  | none => rfl
  | some t =>
      have ht : ¬ t ≤ 0 := not_le.mpr (h t rfl)
      rw [limitTimeout, if_neg ht]
      rfl

theorem limitRetries_eq (kind : Kind) (d : Descriptor) (h : ∀ n ∈ retries, 0 ≤ n) :
    limitRetries kind d retries = .ok { d with maxRetries := retries.getD d.maxRetries } := by
  cases retries with
  | none => rfl
  | some n =>
      have hn : ¬ n < 0 := not_lt.mpr (h n rfl)
      rw [limitRetries, if_neg hn]
      rfl

/-- Factories are added to different kinds that have none. -/
theorem exists_foldlM_provide (make : Kind → Factory) {ks : List Kind} (hks : ks.Nodup) {r : Registry}
    (hnone : ∀ k ∈ ks, r.factory? k = none) :
    ∃ r', ks.foldlM (fun r k => r.provide k (some (make k))) r = .ok r' ∧ r'.descriptor? = r.descriptor? := by
  let Fits (left : List Kind) (r' : Registry) : Prop :=
    left.Nodup ∧ (∀ k ∈ left, r'.factory? k = none) ∧ r'.descriptor? = r.descriptor?
  have hstep : ∀ k left r', Fits (k :: left) r' → ∃ next, r'.provide k (some (make k)) = .ok next ∧ Fits left next := by
    rintro k left r' ⟨hnodup, hnone, hsame⟩
    obtain ⟨hk, hleft⟩ := List.nodup_cons.mp hnodup
    obtain ⟨hknone, hothers⟩ := List.forall_mem_cons.mp hnone
    refine ⟨{ r' with factory? := Kind.update r'.factory? k (some (make k)) }, by simp [provide, hknone], hleft, ?_,
      hsame⟩
    intro j hj
    have hne : j ≠ k := fun h => hk (h ▸ hj)
    exact (Kind.update_of_ne _ _ hne).trans (hothers j hj)
  obtain ⟨r', hr', -, -, hsame⟩ := exists_foldlM Fits hstep ⟨hks, hnone, rfl⟩
  exact ⟨r', hr', hsame⟩

end Parser.Registry

namespace Options

variable {o lower upper : Options} {r : Registry} {kind k : Kind} {d : Descriptor}

/-! ## Limits that are set -/

def timeoutOf (o : Options) (kind : Kind) : Option Int := (o.limits kind).bind (·.timeout)

def retriesOf (o : Options) (kind : Kind) : Option Int := (o.limits kind).bind (·.maxRetries)

/-- The limits that are set can be applied: they are for kinds with a default descriptor and none is refused. -/
structure Applies (o : Options) : Prop where
  described : ∀ kind, (o.limits kind).isSome → ∃ d ∈ Descriptor.defaults, d.kind = kind
  timeout_pos : ∀ kind, ∀ t ∈ o.timeoutOf kind, 0 < t
  retries_nonneg : ∀ kind, ∀ n ∈ o.retriesOf kind, 0 ≤ n

/-- The descriptor under the limits of its kind. -/
def limited (o : Options) (d : Descriptor) : Descriptor :=
  { d with
    timeout := (o.timeoutOf d.kind).getD d.timeout
    maxRetries := (o.retriesOf d.kind).getD d.maxRetries }

theorem limited_of_none (h : o.limits d.kind = none) : o.limited d = d := by
  simp [limited, timeoutOf, retriesOf, h]

theorem limit_eq (ho : o.Applies) {limits : Limits} (hd : r.descriptor? d.kind = some d)
    (hlimits : o.limits d.kind = some limits) :
    r.limit d.kind limits = (r.setDescriptor d.kind (o.limited d), none) := by
  have htimeout : o.timeoutOf d.kind = limits.timeout := by rw [timeoutOf, hlimits]; rfl
  have hretries : o.retriesOf d.kind = limits.maxRetries := by rw [retriesOf, hlimits]; rfl
  rw [Registry.limit, hd]
  dsimp only
  rw [Registry.limitTimeout_eq _ _ (htimeout ▸ ho.timeout_pos d.kind)]
  dsimp only
  rw [Registry.limitRetries_eq _ _ (hretries ▸ ho.retries_nonneg d.kind), limited, htimeout, hretries]

/-! ## Registries under limits -/

theorem exists_limitKind (ho : o.Applies) (hr : r.Keyed)
    (hall : ∀ k, (o.limits k).isSome → (r.descriptor? k).isSome) (kind : Kind) :
    ∃ r', o.limitKind r kind = .ok r' ∧ r'.factory? = r.factory? ∧
      r'.descriptor? kind = (r.descriptor? kind).map o.limited ∧
      ∀ k ≠ kind, r'.descriptor? k = r.descriptor? k := by
  cases hlimits : o.limits kind with
  | none =>
      have hsame : r.descriptor? kind = (r.descriptor? kind).map o.limited := by
        cases hd : r.descriptor? kind with
        | none => rfl
        | some d =>
            have hkind := hr kind d hd
            rw [Option.map_some, limited_of_none (hkind ▸ hlimits)]
      exact ⟨r, by rw [limitKind, hlimits], rfl, hsame, fun _ _ => rfl⟩
  | some limits =>
      obtain ⟨d, hd⟩ := Option.isSome_iff_exists.mp (hall kind (by rw [hlimits]; rfl))
      obtain rfl := hr kind d hd
      refine ⟨r.setDescriptor d.kind (o.limited d), ?_, rfl, ?_, fun k hk => Kind.update_of_ne _ _ hk⟩
      · rw [limitKind, hlimits]
        dsimp only
        rw [limit_eq ho hd hlimits]
      · rw [Registry.descriptor?_setDescriptor_self, hd, Option.map_some]

/-- Limits that can be applied come to the descriptors of all kinds. -/
theorem exists_foldlM_limitKind (ho : o.Applies) (hr : r.Keyed)
    (hall : ∀ k, (o.limits k).isSome → (r.descriptor? k).isSome) :
    ∃ r', Kind.all.foldlM o.limitKind r = .ok r' ∧ r'.factory? = r.factory? ∧
      ∀ k, r'.descriptor? k = (r.descriptor? k).map o.limited := by
  -- kinds that are left have their old descriptors, the others are under their limits
  let Fits (left : List Kind) (r' : Registry) : Prop :=
    left.Nodup ∧ r'.factory? = r.factory? ∧
      ∀ k, r'.descriptor? k = if k ∈ left then r.descriptor? k else (r.descriptor? k).map o.limited
  have hstep : ∀ k left r', Fits (k :: left) r' → ∃ next, o.limitKind r' k = .ok next ∧ Fits left next := by
    rintro kind left r' ⟨hnodup, hfactories, hdescriptors⟩
    obtain ⟨hkind, hleft⟩ := List.nodup_cons.mp hnodup
    have hkeyed : r'.Keyed := by
      intro k d hd
      rw [hdescriptors] at hd
      split at hd
      · exact hr k d hd
      · obtain ⟨old, hold, rfl⟩ := Option.map_eq_some_iff.mp hd
        exact hr k old hold
    have hsome : ∀ k, (o.limits k).isSome → (r'.descriptor? k).isSome := by
      intro k hk
      rw [hdescriptors]
      split
      · exact hall k hk
      · rw [Option.isSome_map]
        exact hall k hk
    obtain ⟨next, hnext, hsame, hlimited, hothers⟩ := exists_limitKind ho hkeyed hsome kind
    refine ⟨next, hnext, hleft, hsame.trans hfactories, fun k => ?_⟩
    by_cases hk : k = kind
    · subst hk
      rw [hlimited, hdescriptors, if_pos List.mem_cons_self, if_neg hkind]
    · rw [hothers k hk, hdescriptors]
      simp only [List.mem_cons, hk, false_or]
  have hstart : Fits Kind.all r := ⟨Kind.nodup_all, rfl, fun k => by rw [if_pos k.mem_all]⟩
  obtain ⟨r', hr', -, hfactories, hdescriptors⟩ := exists_foldlM Fits hstep hstart
  exact ⟨r', hr', hfactories, fun k => by rw [hdescriptors, if_neg List.not_mem_nil]⟩

theorem descriptor?_withDefaults : ∀ d ∈ Descriptor.defaults, Registry.withDefaults.descriptor? d.kind = some d := by
  simp only [Descriptor.defaults, List.forall_mem_cons]
  exact ⟨rfl, rfl, rfl, rfl, rfl, rfl, by simp⟩

/-- The registry of options has the default descriptors under the limits that are set. -/
theorem registry_limited (ho : o.Applies) (tree : Tree) :
    ∃ r, o.registry tree = .ok r ∧ ∀ d ∈ Descriptor.defaults, r.descriptor? d.kind = some (o.limited d) := by
  have hsome : ∀ k, (o.limits k).isSome → (Registry.withDefaults.descriptor? k).isSome := by
    intro k hk
    obtain ⟨d, hd, rfl⟩ := ho.described k hk
    rw [descriptor?_withDefaults d hd]
    rfl
  obtain ⟨limitedDefaults, hlimited, hfactories, hdescriptors⟩ :=
    exists_foldlM_limitKind ho Registry.Reachable.defaults.keyed hsome
  have hnone : ∀ k ∈ limitedDefaults.described, limitedDefaults.factory? k = none := by
    intro k _
    rw [hfactories]
    rfl
  obtain ⟨r, hr, hsame⟩ :=
    Registry.exists_foldlM_provide (fun kind => .makes (Parser.Inventory.parser tree.read? kind.name))
    (Kind.nodup_all.filter _) hnone
  refine ⟨r, ?_, fun d hd => ?_⟩
  · rw [registry, Options.limitedDefaults, hlimited]
    exact hr
  · rw [hsame, hdescriptors, descriptor?_withDefaults d hd, Option.map_some]

/-! ## Two layers -/

theorem limits_merge (lower upper : Options) (k : Kind) :
    (merge lower upper).limits k = if (upper.limits k).isSome then upper.limits k else lower.limits k := by
  cases h : upper.limits k <;> simp [merge, h]

theorem timeoutOf_merge (lower upper : Options) (k : Kind) :
    (merge lower upper).timeoutOf k = if (upper.limits k).isSome then upper.timeoutOf k else lower.timeoutOf k := by
  rw [timeoutOf, limits_merge]
  split <;> rfl

theorem retriesOf_merge (lower upper : Options) (k : Kind) :
    (merge lower upper).retriesOf k = if (upper.limits k).isSome then upper.retriesOf k else lower.retriesOf k := by
  rw [retriesOf, limits_merge]
  split <;> rfl

theorem Applies.merge (hlower : lower.Applies) (hupper : upper.Applies) : (merge lower upper).Applies where
  described k hk := by
    rw [limits_merge] at hk
    split at hk
    · exact hupper.described k hk
    · exact hlower.described k hk
  timeout_pos k t ht := by
    rw [timeoutOf_merge] at ht
    split at ht
    · exact hupper.timeout_pos k t ht
    · exact hlower.timeout_pos k t ht
  retries_nonneg k n hn := by
    rw [retriesOf_merge] at hn
    split at hn
    · exact hupper.retries_nonneg k n hn
    · exact hlower.retries_nonneg k n hn

/-- The upper layer sets limits of the kind, but not this one, and so loses one of the lower layer that is not the
default. -/
def Hides (upper : Options) (k : Kind) (upperLimit lowerLimit : Option Int) (default : Int) : Prop :=
  (upper.limits k).isSome ∧ upperLimit = none ∧ ∃ x ∈ lowerLimit, x ≠ default

/-- A limit comes from the first of three levels that has it, unless the upper layer hides that of the lower one. -/
theorem limit_of_levels_iff {upperLimit lowerLimit : Option Int}
    (hnone : upper.limits k = none → upperLimit = none) (default : Int) :
    (if (upper.limits k).isSome then upperLimit else lowerLimit).getD default =
      (upperLimit <|> lowerLimit).getD default ↔
      ¬ upper.Hides k upperLimit lowerLimit default := by
  cases hlimits : upper.limits k with
  | none => simp [Hides, hnone hlimits, hlimits]
  | some limits =>
      cases upperLimit with
      | some x => simp [Hides]
      | none =>
          cases lowerLimit with
          | none => simp [Hides]
          | some x => simp [Hides, hlimits, eq_comm]

/-- The registry of two layers is there. A default descriptor has in it the limits of the upper layer if that has any
for the kind, else those of the lower layer, and what is not set by default. So each of the two limits comes from the
first of the three levels that sets it exactly if the upper layer does not hide it. -/
theorem registry_merge (hlower : lower.Applies) (hupper : upper.Applies) (tree : Tree) :
    ∃ r, (merge lower upper).registry tree = .ok r ∧
      ∀ d ∈ Descriptor.defaults, ∃ d', r.descriptor? d.kind = some d' ∧
        d' = { d with
          timeout := (if (upper.limits d.kind).isSome then upper.timeoutOf d.kind
            else lower.timeoutOf d.kind).getD d.timeout
          maxRetries := (if (upper.limits d.kind).isSome then upper.retriesOf d.kind
            else lower.retriesOf d.kind).getD d.maxRetries } ∧
        (d'.timeout = (upper.timeoutOf d.kind <|> lower.timeoutOf d.kind).getD d.timeout ↔
          ¬ upper.Hides d.kind (upper.timeoutOf d.kind) (lower.timeoutOf d.kind) d.timeout) ∧
        (d'.maxRetries = (upper.retriesOf d.kind <|> lower.retriesOf d.kind).getD d.maxRetries ↔
          ¬ upper.Hides d.kind (upper.retriesOf d.kind) (lower.retriesOf d.kind) d.maxRetries) := by
  obtain ⟨r, hr, hdescriptors⟩ := registry_limited (hlower.merge hupper) tree
  refine ⟨r, hr, fun d hd => ⟨_, hdescriptors d hd, ?_, ?_, ?_⟩⟩
  · rw [limited, timeoutOf_merge, retriesOf_merge]
  · rw [limited, timeoutOf_merge]
    exact limit_of_levels_iff (fun h => by rw [timeoutOf, h]; rfl) d.timeout
  · rw [limited, retriesOf_merge]
    exact limit_of_levels_iff (fun h => by rw [retriesOf, h]; rfl) d.maxRetries

theorem registry_merge_levels :
    let lower : Options :=
      { limits := fun k =>
          if k = .jsp ∨ k = .python then some { timeout := some 5000, maxRetries := some 1 } else none }
    let upper : Options :=
      { limits := fun k => if k = .jsp then some { timeout := some 6000, maxRetries := some 0 } else none }
    (lower.Applies ∧ upper.Applies) ∧
      ∃ r, (merge lower upper).registry ⟨[], []⟩ = .ok r ∧
        (r.descriptor? .jsp).map (·.timeout) = some 6000 ∧ (r.descriptor? .python).map (·.maxRetries) = some 1 := by
  intro lower upper
  have hlower : lower.Applies := ⟨by decide, by decide, by decide⟩
  have hupper : upper.Applies := ⟨by decide, by decide, by decide⟩
  obtain ⟨r, hr, hdescriptors⟩ := registry_merge hlower hupper ⟨[], []⟩
  have hjsp : ∃ d ∈ Descriptor.defaults, d.kind = .jsp := by decide
  have hpython : ∃ d ∈ Descriptor.defaults, d.kind = .python := by decide
  obtain ⟨d, hd, hkind⟩ := hjsp
  obtain ⟨d', hd', rfl, -⟩ := hdescriptors d hd
  obtain ⟨e, he, hkind'⟩ := hpython
  obtain ⟨e', he', rfl, -⟩ := hdescriptors e he
  rw [hkind] at hd'
  rw [hkind'] at he'
  refine ⟨⟨hlower, hupper⟩, r, hr, ?_, ?_⟩
  · rw [hd']
    rfl
  · rw [he']
    rfl

/-- A time limit of the lower layer is lost to the default when the upper layer sets the retries alone. -/
theorem registry_merge_loses_timeout :
    let lower : Options := { limits := fun k => if k = .jsp then some { timeout := some 5000 } else none }
    let upper : Options := { limits := fun k => if k = .jsp then some { maxRetries := some 1 } else none }
    (lower.Applies ∧ upper.Applies) ∧ lower.timeoutOf .jsp = some 5000 ∧ upper.timeoutOf .jsp = none ∧
      ∃ r d, (merge lower upper).registry ⟨[], []⟩ = .ok r ∧ r.descriptor? .jsp = some d ∧ d.timeout = 300000 ∧
        d.maxRetries = 1 :=
  ⟨⟨⟨by decide, by decide, by decide⟩, by decide, by decide, by decide⟩, rfl, rfl, _, _, rfl, rfl, rfl, rfl⟩

end Options

end RuleFlow
