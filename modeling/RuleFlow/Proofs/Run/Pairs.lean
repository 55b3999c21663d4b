import RuleFlow.Proofs.Run.Deadline

/-!
# The pairs of a phase

A phase has one result for each of its tasks, a descriptor and a listed file of its kind. What this result says is
settled by what the factory and the parser of the task do and by the time at which the pair is given up (`pairResult`).
When one pair runs at a time, this is its deadline; when more run at once, a pair may be taken that has ended after its
deadline, and by that alone the results depend on how many run.
-/

namespace RuleFlow.Run

open RuleFlow.Parser (Descriptor Registry FilesByKind Made)

/-- What the call of the factory for a task ends with, if there is a factory. -/
def made? (registry : Registry) (t : Task) : Option Made := (registry.factory? t.descriptor.kind).map (·.call t.earlier)

/-- The parser of the task can be made. -/
def canMake (registry : Registry) (t : Task) : Bool :=
  match made? registry t with
  | some (.parser _) => true
  | _ => false

/-- What comes of a task, whether its parser can be made or not, if its pair is given up after `patience`
nanoseconds. -/
def pairResult (machine : Machine) (registry : Registry) (t : Task) (patience : Nat) : Result :=
  match prepare registry t with
  | .inl p => p.outcome machine patience
  | .inr r => r

/-- The result of a task whose pair is not given up before its deadline. -/
def IsResult (machine : Machine) (registry : Registry) (t : Task) (r : Result) : Prop :=
  ∃ patience, t.descriptor.limit ≤ patience ∧ r = pairResult machine registry t patience

/-- First the tasks whose parser cannot be made, then the others. -/
def unmadeFirst (registry : Registry) (todo : List Task) : List Task :=
  todo.filter (!canMake registry ·) ++ todo.filter (canMake registry ·)

/-- What calls of factories end with and makes no difference to a file: the same, or parsers whose attempts on the file
end in the same way and after the same time. -/
inductive SameOn (file : Text) : Option Made → Option Made → Prop
  | same (made? : Option Made) : SameOn file made? made?
  | parsers {p p' : Parser} :
      (∀ earlier,
        p.outcome file earlier = p'.outcome file earlier ∧ p.duration file earlier = p'.duration file earlier) →
      SameOn file (some (.parser p)) (some (.parser p'))

variable {machine machine' : Machine} {workers : Nat} {registry registry' : Registry} {phase : List Descriptor}
  {files : FilesByKind} {d : Descriptor} {file : Text} {t : Task} {todo : List Task}

/-! ## One task -/

theorem prepare_eq (registry : Registry) (t : Task) :
    prepare registry t =
      match made? registry t with
      | none =>
        .inr (failedResult t.descriptor.kind t.file executionError
          ("Parser instance not found: " ++ t.descriptor.kind.name) 0 0)
      | some (.parser parser) => .inl { descriptor := t.descriptor, file := t.file, parser }
      | some .nothing =>
        .inr (failedResult t.descriptor.kind t.file executionError
          (Text.untilZero (Registry.Error.nothingMade t.descriptor.kind).message) 0 0)
      | some (.failure message) =>
        .inr (failedResult t.descriptor.kind t.file executionError (Text.untilZero message) 0 0) := by
  cases hfactory : registry.factory? t.descriptor.kind with
  | none => simp [prepare, made?, hfactory]
  | some factory =>
      cases hcall : factory.call t.earlier with
      | parser | nothing | failure =>
          simp [prepare, made?, Registry.make, hfactory, hcall, Registry.Error.message]

theorem prepare_of_made {parser : Parser} (h : made? registry t = some (.parser parser)) :
    prepare registry t = .inl { descriptor := t.descriptor, file := t.file, parser } := by
  rw [prepare_eq, h]

theorem pairResult_of_made {parser : Parser} (h : made? registry t = some (.parser parser)) (patience : Nat) :
    pairResult machine registry t patience = Pair.outcome machine ⟨t.descriptor, t.file, parser⟩ patience := by
  rw [pairResult, prepare_of_made h]

/-- Exactly the tasks whose parser can be made are run. -/
theorem isLeft_prepare (registry : Registry) (t : Task) : (prepare registry t).isLeft = canMake registry t := by
  rw [prepare_eq, canMake]
  cases made? registry t with
  | none => rfl
  | some made => cases made <;> rfl

theorem descriptor_of_prepare {p : Pair} (h : prepare registry t = .inl p) : p.descriptor = t.descriptor := by
  rw [prepare_eq] at h
  split at h <;> cases h
  rfl

theorem key_pairResult (machine : Machine) (registry : Registry) (t : Task) (patience : Nat) :
    (pairResult machine registry t patience).key = t.key := by
  have hkey := preparedKey_prepare registry t
  unfold pairResult
  cases hprepared : prepare registry t with
  | inl p =>
      rw [hprepared] at hkey
      exact (p.key_result _ _).trans hkey
  | inr r =>
      rw [hprepared] at hkey
      exact hkey

theorem kind_pairResult (machine : Machine) (registry : Registry) (t : Task) (patience : Nat) :
    (pairResult machine registry t patience).kind = t.descriptor.kind :=
  congrArg Prod.fst (key_pairResult machine registry t patience)

theorem file_pairResult (machine : Machine) (registry : Registry) (t : Task) (patience : Nat) :
    (pairResult machine registry t patience).file = t.file :=
  congrArg Prod.snd (key_pairResult machine registry t patience)

/-! ## What settles a result -/

theorem attempts_congr {p p' : Parser}
    (h : ∀ earlier,
      p.outcome file earlier = p'.outcome file earlier ∧ p.duration file earlier = p'.duration file earlier)
    (retries earlier elapsed : Nat) :
    (Pair.attempts ⟨d, file, p⟩ retries earlier elapsed).1 =
      (Pair.attempts ⟨d, file, p'⟩ retries earlier elapsed).1 := by
  obtain ⟨houtcome, hduration⟩ := h earlier
  induction retries generalizing earlier elapsed with
  | zero => rw [attempts_last (.inr (.inl rfl)), attempts_last (.inr (.inl rfl)), houtcome, hduration]
  | succ retries ih =>
      by_cases hnext : (p.outcome file earlier).IsExplained ∧ elapsed + p.duration file earlier < d.limit
      · rw [attempts_next hnext.1 hnext.2, attempts_next (houtcome ▸ hnext.1) (hduration ▸ hnext.2), hduration]
        exact ih _ _ (h (earlier + 1)).1 (h (earlier + 1)).2
      · rw [not_and_or, Nat.not_lt] at hnext
        have hnext' := hnext
        rw [houtcome, hduration] at hnext'
        rw [attempts_last (hnext.imp_right .inr), attempts_last (hnext'.imp_right .inr), houtcome, hduration]

theorem outcome_congr {p p' : Parser}
    (h : ∀ earlier,
      p.outcome file earlier = p'.outcome file earlier ∧ p.duration file earlier = p'.duration file earlier)
    (htime : machine.stopwatch d.kind file = machine'.stopwatch d.kind file) (patience : Nat) :
    Pair.outcome machine ⟨d, file, p⟩ patience = Pair.outcome machine' ⟨d, file, p'⟩ patience := by
  have hrun : (Pair.run ⟨d, file, p⟩).1 = (Pair.run ⟨d, file, p'⟩).1 := by
    unfold Pair.run
    cases d.maxRetries with
    | ofNat retries => exact attempts_congr h retries 0 0
    | negSucc _ => rfl
  simp only [Pair.outcome, Pair.ending, hrun, htime]
  generalize (if (Pair.run ⟨d, file, p'⟩).1.ended?.any (· ≤ patience) then _ else _) = ending
  cases ending <;> rfl

/-- How a pair ends is settled by the call of its own factory, and by what the parser does on its own file and the time
it takes. -/
theorem pairResult_congr
    (htime : machine.stopwatch t.descriptor.kind t.file = machine'.stopwatch t.descriptor.kind t.file)
    (h : SameOn t.file (made? registry t) (made? registry' t)) :
    pairResult machine registry t = pairResult machine' registry' t := by
  funext patience
  generalize hmade : made? registry t = first?, hmade' : made? registry' t = second? at h
  cases h with
  | same =>
      have hprepare : prepare registry t = prepare registry' t := by rw [prepare_eq, prepare_eq, hmade, hmade']
      cases first? with
      | none => rw [pairResult, pairResult, hprepare, prepare_eq, hmade']
      | some made =>
          cases made with
          | parser parser =>
              rw [pairResult_of_made hmade, pairResult_of_made hmade']
              exact outcome_congr (fun _ => ⟨rfl, rfl⟩) htime patience
          | nothing | failure => rw [pairResult, pairResult, hprepare, prepare_eq, hmade']
  | parsers hsame =>
      rw [pairResult_of_made hmade, pairResult_of_made hmade']
      exact outcome_congr hsame htime patience

/-! ## All tasks -/

theorem map_unmade (machine : Machine) (registry : Registry) (todo : List Task) (patience : Task → Nat) :
    (todo.filter (!canMake registry ·)).map (fun t => pairResult machine registry t (patience t)) =
      unmadeResults (todo.map (prepare registry)) := by
  induction todo with
  | nil => rfl
  | cons t todo ih =>
      have hmade := isLeft_prepare registry t
      rw [List.map_cons, List.filter_cons, ← hmade]
      cases hprepared : prepare registry t with
      | inl p => simpa using ih
      | inr r => simpa [pairResult, hprepared] using ih

theorem forall₂_pairsOf (registry : Registry) (todo : List Task) :
    List.Forall₂ (fun t p => prepare registry t = .inl p) (todo.filter (canMake registry ·))
      (pairsOf (todo.map (prepare registry))) := by
  induction todo with
  | nil => exact .nil
  | cons t todo ih =>
      have hmade := isLeft_prepare registry t
      rw [List.map_cons, List.filter_cons, ← hmade]
      cases hprepared : prepare registry t with
      | inl p => simpa [hprepared] using ih
      | inr r => simpa using ih

/-- The tasks whose parser can be made are collected in order. -/
theorem forall₂_schedule (hworkers : 0 < workers) (registry : Registry) (todo : List Task) :
    List.Forall₂ (fun t c => prepare registry t = .inl c.pair) (todo.filter (canMake registry ·))
      (schedule workers (pairsOf (todo.map (prepare registry)))) := by
  have hpairs := forall₂_pairsOf registry todo
  rwa [← map_pair_schedule hworkers (pairsOf (todo.map (prepare registry))), List.forall₂_map_right_iff] at hpairs

theorem forall₂_phaseResults (machine : Machine) (workers : Nat) (registry : Registry) (phase : List Descriptor)
    (files : FilesByKind) :
    List.Forall₂ (IsResult machine registry) (unmadeFirst registry (tasks machine phase files))
      (phaseResults machine workers registry phase files) := by
  refine List.rel_append ?_ ?_
  · rw [← map_unmade machine registry _ fun t => t.descriptor.limit, List.forall₂_map_right_iff, List.forall₂_same]
    exact fun t _ => ⟨_, Nat.le_refl _, rfl⟩
  · rw [List.forall₂_map_right_iff]
    have hscheduled := forall₂_schedule (machine.workers_pos workers) registry (tasks machine phase files)
    have hlimits := (List.forall₂_and_left _ _).mpr ⟨fun c hc => limit_le_of_mem_schedule hc, hscheduled.flip⟩
    refine hlimits.flip.imp fun t c h => ⟨c.patience, ?_, ?_⟩
    · rw [← descriptor_of_prepare h.2]
      exact h.1
    · rw [pairResult, h.2]

/-- One pair at a time is given up at its deadline. -/
theorem phaseResults_one (machine : Machine) (registry : Registry) (phase : List Descriptor) (files : FilesByKind) :
    phaseResults machine 1 registry phase files =
      (unmadeFirst registry (tasks machine phase files)).map
        fun t => pairResult machine registry t t.descriptor.limit := by
  have hone : machine.workers 1 = 1 := rfl
  have hmade := forall₂_pairsOf registry (tasks machine phase files)
  rw [phaseResults, hone, schedule_one, unmadeFirst, List.map_append, map_unmade, List.map_map]
  congr 1
  rw [← List.forall₂_eq_eq_eq, List.forall₂_map_left_iff, List.forall₂_map_right_iff]
  refine hmade.flip.imp fun p t h => ?_
  rw [pairResult, h, ← descriptor_of_prepare h]
  rfl

/-! ## Independence -/

theorem map_file_phaseResults (machine : Machine) (workers : Nat) (registry : Registry) (phase : List Descriptor)
    (files : FilesByKind) :
    (phaseResults machine workers registry phase files).map (·.file) =
      (unmadeFirst registry (tasks machine phase files)).map (·.file) := by
  rw [← List.forall₂_eq_eq_eq, List.forall₂_map_left_iff, List.forall₂_map_right_iff]
  refine (forall₂_phaseResults machine workers registry phase files).flip.imp ?_
  rintro r t ⟨patience, -, rfl⟩
  exact file_pairResult machine registry t patience

/-- Exactly the pairs that are taken late have other results than one at a time. -/
theorem map_outcome_schedule_eq_iff (machine : Machine) (hworkers : 0 < workers) (ready : List Pair) :
    (schedule workers ready).map (fun c => c.pair.outcome machine c.patience) =
        (schedule 1 ready).map (fun c => c.pair.outcome machine c.patience) ↔
      ∀ c ∈ schedule workers ready, ¬ c.Late := by
  have hone : (schedule 1 ready).map (fun c => c.pair.outcome machine c.patience) =
      (schedule workers ready).map fun c => c.pair.outcome machine c.pair.descriptor.limit := by
    have hpairs := congrArg (List.map fun p => p.outcome machine p.descriptor.limit) (map_pair_schedule hworkers ready)
    rw [List.map_map] at hpairs
    rw [schedule_one, List.map_map]
    exact hpairs.symm
  rw [hone, List.map_inj_left]
  exact forall₂_congr fun c hc => outcome_eq_iff machine (limit_le_of_mem_schedule hc)

theorem phaseResults_eq_iff (machine : Machine) (workers : Nat) (registry : Registry) (phase : List Descriptor)
    (files : FilesByKind) :
    phaseResults machine workers registry phase files = phaseResults machine 1 registry phase files ↔
      ∀ c ∈ schedule (machine.workers workers) (pairsOf ((tasks machine phase files).map (prepare registry))),
        ¬ c.Late := by
  have hone : machine.workers 1 = 1 := rfl
  rw [phaseResults, phaseResults, hone, List.append_cancel_left_eq]
  exact map_outcome_schedule_eq_iff machine (machine.workers_pos workers) _

/-! ## Results by file -/

theorem unmadeFirst_filter (registry : Registry) (todo : List Task) (file : Text) :
    unmadeFirst registry (todo.filter (·.file = file)) = (unmadeFirst registry todo).filter (·.file = file) := by
  unfold unmadeFirst
  rw [List.filter_append, List.filter_comm, List.filter_comm (canMake registry)]

theorem mem_ofList_phaseResults :
    file ∈ Results.ofList (phaseResults machine workers registry phase files) ↔ ∃ d ∈ phase, file ∈ files d.kind := by
  rw [Results.mem_ofList]
  constructor
  · rintro ⟨r, hr, rfl⟩
    have hkey := (map_key_phaseResults_perm machine workers registry phase files).mem_iff.mp (List.mem_map_of_mem hr)
    obtain ⟨hkind, hfile⟩ := mem_keysOf.mp hkey
    obtain ⟨d, hd, heq⟩ := List.mem_map.mp hkind
    exact ⟨d, hd, heq ▸ hfile⟩
  · rintro ⟨d, hd, hfile⟩
    have hkey : (d.kind, file) ∈ keysOf (Plan.kinds phase) files := mem_keysOf.mpr ⟨List.mem_map_of_mem hd, hfile⟩
    obtain ⟨r, hr, heq⟩ :=
      List.mem_map.mp ((map_key_phaseResults_perm machine workers registry phase files).mem_iff.mpr hkey)
    exact ⟨r, hr, congrArg Prod.snd heq⟩

theorem forall₂_listed (machine : Machine) (workers : Nat) (registry : Registry) (phase : List Descriptor)
    (files : FilesByKind) (file : Text) :
    List.Forall₂ (IsResult machine registry) (unmadeFirst registry ((tasks machine phase files).filter (·.file = file)))
      ((Results.ofList (phaseResults machine workers registry phase files)).listed file) := by
  rw [Results.listed_ofList, unmadeFirst_filter]
  refine List.rel_filter ?_ (forall₂_phaseResults machine workers registry phase files)
  rintro t r ⟨patience, -, rfl⟩
  simp [file_pairResult]

theorem listed_one (machine : Machine) (registry : Registry) (phase : List Descriptor) (files : FilesByKind)
    (file : Text) :
    (Results.ofList (phaseResults machine 1 registry phase files)).listed file =
      (unmadeFirst registry ((tasks machine phase files).filter (·.file = file))).map
        fun t => pairResult machine registry t t.descriptor.limit := by
  rw [Results.listed_ofList, phaseResults_one, unmadeFirst_filter, List.filter_map]
  congr 2
  funext t
  simp [file_pairResult]

/-- A phase has results for whatever its factories and parsers do: for each file that is listed for one of its
descriptors, one result for each task with the file. Those of tasks whose parser cannot be made come first, then the
others, both in the order of the tasks. Each result is about its task, and besides the time at which the pair is given
up only the factory and the parser of the task make a difference to it. This time is never before the deadline, and it
is the deadline where one pair runs at a time.

So the results depend on the number of pairs that run at once exactly if some pair ends after its deadline and is taken
before it is given up, and a pair has one result among all other pairs exactly if it does not end after its deadline. -/
theorem runPhase_pairs (machine : Machine) (registry : Registry) (phase : List Descriptor) (files : FilesByKind) :
    let todo := tasks machine phase files
    let on (hardware : Nat) : Machine := { machine with hardware }
    let results (hardware workers : Nat) : Results := (runPhase (on hardware) workers registry phase files).1
    todo.map (fun t => (t.descriptor, t.file)) = pairs phase files ∧
    (∀ hardware workers file, file ∈ results hardware workers ↔ ∃ d ∈ phase, file ∈ files d.kind) ∧
    (∀ hardware workers file, List.Forall₂ (IsResult machine registry)
      (unmadeFirst registry (todo.filter (·.file = file))) ((results hardware workers).listed file)) ∧
    (∀ hardware file, (results hardware 1).listed file = (unmadeFirst registry (todo.filter (·.file = file))).map
      fun t => pairResult machine registry t t.descriptor.limit) ∧
    (∀ hardware hardware' workers, results hardware workers = results hardware' 1 ↔
      ∀ c ∈ schedule ((on hardware).workers workers) (pairsOf (todo.map (prepare registry))), ¬ c.Late) ∧
    (∀ p : Pair, (∀ workers before after c, 0 < workers →
      (schedule workers (before ++ p :: after))[before.length]? = some c →
        p.outcome machine c.patience = p.outcome machine p.descriptor.limit) ↔ ¬ p.Overruns) ∧
    (∀ t patience, (pairResult machine registry t patience).kind = t.descriptor.kind ∧
      (pairResult machine registry t patience).file = t.file) ∧
    ∀ (machine' : Machine) (registry' : Registry) (t : Task),
      machine.stopwatch t.descriptor.kind t.file = machine'.stopwatch t.descriptor.kind t.file →
        SameOn t.file (made? registry t) (made? registry' t) →
          pairResult machine registry t = pairResult machine' registry' t := by
  intro todo on results
  have hresults (hardware workers : Nat) : results hardware workers =
      Results.ofList (phaseResults (on hardware) workers registry phase files) :=
    runPhase_fst (on hardware) workers registry phase files
  refine ⟨map_tasks machine phase files, fun hardware workers file => ?_, fun hardware workers file => ?_,
    fun hardware file => ?_, fun hardware hardware' workers => ?_, outcome_independent_iff machine,
    fun t patience => ?_, fun machine' registry' t => pairResult_congr⟩
  · rw [hresults]
    exact mem_ofList_phaseResults
  · rw [hresults]
    exact forall₂_listed (on hardware) workers registry phase files file
  · rw [hresults]
    exact listed_one (on hardware) registry phase files file
  · have hone : phaseResults (on hardware') 1 registry phase files =
        phaseResults (on hardware) 1 registry phase files := rfl
    rw [hresults, hresults, hone, Results.ofList_eq_iff]
    · exact phaseResults_eq_iff (on hardware) workers registry phase files
    · rw [map_file_phaseResults, map_file_phaseResults]
  · exact ⟨kind_pairResult machine registry t patience, file_pairResult machine registry t patience⟩

/-- A parser that finds something after a number of milliseconds. -/
def slowParser (milliseconds : Nat) : Parser where
  outcome _ _ := .found ∅
  duration _ _ := milliseconds * 1000000

/-- A pair with a tenth of a second that takes twice as long times out when it runs alone. Behind one that takes half of
its two seconds it succeeds, if both run at once. -/
theorem runPhase_of_late_pair :
    let registry : Registry := { factory? := fun k => some (.makes (slowParser (if k = .java then 500 else 200))) }
    let java : Descriptor := { kind := .java, patterns := ["*.java"], timeout := 2000 }
    let python : Descriptor := { kind := .python, patterns := ["*.py"], timeout := 100 }
    let errorTypes (workers : Nat) (phase : List Descriptor) :=
      ((runPhase {} workers registry phase fun _ => ["a"]).1.listed "a").map fun r => (r.kind, r.errorType)
    errorTypes 2 [java, python] = [(.java, none), (.python, none)] ∧
      errorTypes 1 [java, python] = [(.java, none), (.python, some timeoutError)] ∧
      errorTypes 2 [python] = [(.python, some timeoutError)] := by
  decide +kernel

end RuleFlow.Run
