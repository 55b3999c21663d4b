import RuleFlow.Proofs.Parser.Registry

/-!
# Refused operations

An operation on a registry takes effect or is refused (`Registry.perform`). A refused one leaves the registry as it was,
but for limits whose time limit is good while the retries next to it are refused: of these the time limit stays.
-/

namespace RuleFlow.Parser.Registry

/-- A change that is asked of a registry. -/
inductive Operation where
  | describe (d : Descriptor)
  | provide (kind : Kind) (factory? : Option Factory)
  | limit (kind : Kind) (limits : Limits)

/-- The registry that an operation leaves, and why the operation was refused if it was. -/
def perform (r : Registry) : Operation → Registry × Option Error
  | .describe d =>
    match r.describe d with
    | .ok described => (described, none)
    | .error e => (r, some e)
  | .provide kind factory? =>
    match r.provide kind factory? with
    | .ok provided => (provided, none)
    | .error e => (r, some e)
  | .limit kind limits => r.limit kind limits

/-- The registry that operations leave one after the other, refused ones among them. -/
def performAll (r : Registry) (ops : List Operation) : Registry := ops.foldl (fun r op => (r.perform op).1) r

/-- A good time limit that is new to a descriptor, next to retries that are refused. -/
def KeepsTimeout (r : Registry) : Operation → Prop
  | .limit kind limits => ∃ d t n, r.descriptor? kind = some d ∧ limits = { timeout := some t, maxRetries := some n } ∧
      0 < t ∧ t ≠ d.timeout ∧ n < 0
  | _ => False

variable {r : Registry} {kind : Kind} {d : Descriptor} {limits : Limits} {t n : Int}

/-! ## Descriptors that are replaced -/

@[simp] theorem descriptor?_setDescriptor_self (r : Registry) (kind : Kind) (d : Descriptor) :
    (r.setDescriptor kind d).descriptor? kind = some d := by
  simp [setDescriptor]

theorem setDescriptor_self (hd : r.descriptor? kind = some d) : r.setDescriptor kind d = r := by
  have hsame : Kind.update r.descriptor? kind (some d) = r.descriptor? := by
    funext k
    by_cases hk : k = kind
    · rw [hk, Kind.update_self, hd]
    · exact Kind.update_of_ne _ _ hk
  rw [setDescriptor, hsame]

theorem setDescriptor_eq_self_iff {e : Descriptor} (hd : r.descriptor? kind = some d) :
    r.setDescriptor kind e = r ↔ e = d := by
  constructor
  · intro heq
    have hkind := descriptor?_setDescriptor_self r kind e
    rw [heq, hd] at hkind
    exact (Option.some.inj hkind).symm
  · rintro rfl
    exact setDescriptor_self hd

/-! ## Refused limits -/

/-- The time limit is written before the retries are looked at. -/
theorem limit_timeout_retries (hd : r.descriptor? kind = some d) (ht : 0 < t) (hn : n < 0) :
    r.limit kind { timeout := some t, maxRetries := some n } =
      (r.setDescriptor kind { d with timeout := t }, some (.retriesNegative kind)) := by
  have hpos : ¬ t ≤ 0 := by omega
  simp [limit, hd, limitTimeout, limitRetries, hpos, hn]

/-- Refused limits leave the registry as it was, or they are a good time limit next to refused retries. -/
theorem limit_refused {e : Error} (h : (r.limit kind limits).2 = some e) :
    (r.limit kind limits).1 = r ∨
      ∃ d t n, r.descriptor? kind = some d ∧ limits = { timeout := some t, maxRetries := some n } ∧ 0 < t ∧ n < 0 := by
  cases hd : r.descriptor? kind with
  | none => exact .inl (by simp [limit, hd])
  | some d =>
      obtain ⟨timeout, retries⟩ := limits
      cases ht : limitTimeout kind d timeout with
      | error e => exact .inl (by simp [limit, hd, ht])
      | ok timed =>
          obtain ⟨rfl, hpos⟩ := limitTimeout_ok ht
          cases retries with
          | none => simp [limit, hd, ht, limitRetries] at h
          | some n =>
              by_cases hn : n < 0
              · cases timeout with
                | none => exact .inl (by simpa [limit, hd, ht, limitRetries, hn] using setDescriptor_self hd)
                | some t => exact .inr ⟨d, t, n, rfl, rfl, hpos t rfl, hn⟩
              · simp [limit, hd, ht, limitRetries, hn] at h

theorem limit_of_keepsTimeout (h : r.KeepsTimeout (.limit kind limits)) :
    ∃ d t, r.descriptor? kind = some d ∧ t ≠ d.timeout ∧
      r.limit kind limits = (r.setDescriptor kind { d with timeout := t }, some (.retriesNegative kind)) := by
  obtain ⟨d, t, n, hd, rfl, ht, hnew, hn⟩ := h
  exact ⟨d, t, hd, hnew, limit_timeout_retries hd ht hn⟩

/-- Refused limits change the registry exactly when they keep their time limit. -/
theorem limit_eq_self_iff {e : Error} (h : (r.limit kind limits).2 = some e) :
    (r.limit kind limits).1 = r ↔ ¬ r.KeepsTimeout (.limit kind limits) := by
  constructor
  · intro hsame hkeeps
    obtain ⟨d, t, hd, hnew, hlimit⟩ := limit_of_keepsTimeout hkeeps
    rw [hlimit] at hsame
    exact hnew (congrArg Descriptor.timeout ((setDescriptor_eq_self_iff hd).mp hsame))
  · intro hkeeps
    rcases limit_refused h with hsame | ⟨d, t, n, hd, rfl, ht, hn⟩
    · exact hsame
    · have hold : t = d.timeout := by
        by_contra hnew
        exact hkeeps ⟨d, t, n, hd, rfl, ht, hnew, hn⟩
      rw [limit_timeout_retries hd ht hn, hold]
      exact setDescriptor_self hd

/-! ## Refused operations -/

/-- After any operations, whatever they led to, a further one takes effect or is refused. A refused one leaves the
registry exactly as it was unless it gives a good and new time limit next to refused retries. Then this time limit is
set, and nothing else is changed. -/
theorem perform_refused (start : Registry) (earlier : List Operation) (op : Operation) :
    let r := start.performAll earlier
    (r.perform op).2 = none ∨
      ∃ e, (r.perform op).2 = some e ∧ ((r.perform op).1 = r ↔ ¬ r.KeepsTimeout op) ∧
        (r.KeepsTimeout op → ∃ kind d t, r.descriptor? kind = some d ∧ t ≠ d.timeout ∧ e = .retriesNegative kind ∧
          (r.perform op).1 = r.setDescriptor kind { d with timeout := t }) := by
  intro r
  cases hrefused : (r.perform op).2 with
  | none => exact .inl rfl
  | some e =>
      refine .inr ⟨e, rfl, ?_⟩
      cases op with
      | describe d =>
          cases hd : r.describe d with
          | ok described => simp [perform, hd] at hrefused
          | error _ => simp [perform, hd, KeepsTimeout]
      | provide kind factory? =>
          cases hf : r.provide kind factory? with
          | ok provided => simp [perform, hf] at hrefused
          | error _ => simp [perform, hf, KeepsTimeout]
      | limit kind limits =>
          refine ⟨limit_eq_self_iff hrefused, fun hkeeps => ?_⟩
          obtain ⟨d, t, hd, hnew, hlimit⟩ := limit_of_keepsTimeout hkeeps
          simp only [perform, hlimit] at hrefused ⊢
          exact ⟨kind, d, t, hd, hnew, (Option.some.inj hrefused).symm, rfl⟩

/-- Limits for a kind with a default descriptor, refused for their retries, that change its time limit. -/
theorem refused_limits_keep_timeout :
    let limits : Limits := { timeout := some 5000, maxRetries := some (-1) }
    (∃ e, (withDefaults.perform (.limit .jsp limits)).2 = some e) ∧
      (withDefaults.perform (.limit .jsp limits)).1 ≠ withDefaults := by
  intro limits
  refine ⟨⟨_, rfl⟩, fun hsame => ?_⟩
  have htimeout := congrArg (fun r : Registry => (r.descriptor? .jsp).map (·.timeout)) hsame
  exact absurd htimeout (by decide)

end RuleFlow.Parser.Registry
