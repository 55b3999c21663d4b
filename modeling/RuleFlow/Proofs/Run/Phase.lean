import Mathlib.Algebra.GroupWithZero.Nat
import RuleFlow.Proofs.Plan.Phases
import RuleFlow.Proofs.Run.Results
import RuleFlow.Run.Phase

/-!
# The results of a phase

Whatever the number of pairs that run at once, they are collected in the order in which they wait, and none is given up
before its deadline. A phase has one result for each of its parsers and each file of the parser's kind, however the
parser comes into being and ends.
-/

namespace RuleFlow.Run

open RuleFlow.Parser (Kind Descriptor Registry FilesByKind)
open RuleFlow.Plan (kinds)

/-- What a result is about. -/
def Result.key (r : Result) : Kind × Text := (r.kind, r.file)

/-- The kinds, each with each of its files. -/
def keysOf (ks : List Kind) (files : FilesByKind) : List (Kind × Text) := ks.flatMap fun k => (files k).map (k, ·)

theorem mem_keysOf {ks : List Kind} {files : FilesByKind} {k : Kind} {file : Text} :
    (k, file) ∈ keysOf ks files ↔ k ∈ ks ∧ file ∈ files k := by
  simp [keysOf]

theorem nodup_keysOf {ks : List Kind} {files : FilesByKind} (hks : ks.Nodup) (hfiles : ∀ k, (files k).Nodup) :
    (keysOf ks files).Nodup := by
  refine List.nodup_flatMap.mpr ⟨fun k _ => (hfiles k).map (Prod.mk_right_injective k), hks.imp fun hne => ?_⟩
  rintro ⟨k, file⟩ hk hk'
  obtain ⟨_, -, heq⟩ := List.mem_map.mp hk
  obtain ⟨_, -, heq'⟩ := List.mem_map.mp hk'
  exact hne ((congrArg Prod.fst heq).trans (congrArg Prod.fst heq').symm)

theorem length_keysOf_kinds (files : FilesByKind) :
    (keysOf files.kinds files).length = (Kind.all.map fun k => (files k).length).sum := by
  rw [keysOf, FilesByKind.kinds, List.length_flatMap]
  generalize Kind.all = ks
  induction ks with
  | nil => rfl
  | cons k ks ih =>
      rw [List.filter_cons]
      split
      · simpa using ih
      · simp_all

/-! ## The queue -/

/-- The pairs of a queue in the order in which they are taken. -/
def Queue.pairs (q : Queue) : List Pair := q.running.map Running.pair ++ q.pending

/-- What a pair is about. -/
def Pair.key (p : Pair) : Kind × Text := (p.descriptor.kind, p.file)

theorem Queue.pairs_fill (workers : Nat) (q : Queue) : (q.fill workers).pairs = q.pairs := by
  simp [Queue.pairs, Queue.fill, Function.comp_def, List.append_assoc, List.take_append_drop]

/-- With room for a pair, some pair runs unless none is left. -/
theorem Queue.pairs_eq_nil_of_fill {workers : Nat} (hworkers : 0 < workers) {q : Queue}
    (h : (q.fill workers).running = []) : q.pairs = [] := by
  obtain ⟨hrunning, htaken⟩ := List.append_eq_nil_iff.mp h
  rw [hrunning, List.length_nil, Nat.sub_zero, List.map_eq_nil_iff, List.take_eq_nil_iff] at htaken
  rw [Queue.pairs, hrunning, List.map_nil, List.nil_append]
  exact htaken.resolve_left (by omega)

/-- The pairs that run and the pairs that wait come out in this order: collecting one takes the first of them away, and
starting others does not change their order. -/
theorem Queue.map_pair_collect {workers : Nat} (hworkers : 0 < workers) {fuel : Nat} {q : Queue}
    (hfuel : q.pairs.length ≤ fuel) : (Queue.collect workers fuel q).map Collected.pair = q.pairs := by
  induction fuel generalizing q with
  | zero => exact (List.eq_nil_of_length_eq_zero (by omega)).symm
  | succ fuel ih =>
      have hfill := q.pairs_fill workers
      cases hrunning : (q.fill workers).running with
      | nil =>
          simp only [Queue.collect, hrunning]
          exact (Queue.pairs_eq_nil_of_fill hworkers hrunning).symm
      | cons r rest =>
          simp only [Queue.collect, hrunning]
          rw [Queue.pairs, hrunning, List.map_cons, List.cons_append] at hfill
          rw [← hfill, List.map_cons, ih]
          · rfl
          · rw [← hfill, List.length_cons] at hfuel
            exact Nat.le_of_succ_le_succ hfuel

/-- No pair is given up before its deadline. -/
theorem Queue.limit_le_of_mem_collect {workers fuel : Nat} {q : Queue} {c : Collected}
    (h : c ∈ Queue.collect workers fuel q) : c.pair.descriptor.limit ≤ c.patience := by
  induction fuel generalizing q with
  | zero => cases h
  | succ fuel ih =>
      cases hrunning : (q.fill workers).running with
      | nil =>
          simp only [Queue.collect, hrunning] at h
          cases h
      | cons r rest =>
          simp only [Queue.collect, hrunning] at h
          rcases List.mem_cons.mp h with rfl | h
          · exact Nat.le_max_right _ _
          · exact ih h

/-- A pair that runs alone is given up at its deadline: its turn comes when it starts. -/
theorem Queue.collect_one {fuel : Nat} {pending : List Pair} (hfuel : pending.length ≤ fuel) (now : Nat) :
    Queue.collect 1 fuel { pending, now } = pending.map fun pair => { pair, patience := pair.descriptor.limit } := by
  induction fuel generalizing pending now with
  | zero =>
      rw [List.eq_nil_of_length_eq_zero (Nat.le_zero.mp hfuel)]
      rfl
  | succ fuel ih =>
      cases pending with
      | nil => rfl
      | cons p pending =>
          simp only [Queue.collect, Queue.fill, List.length_nil, Nat.sub_zero, List.take_succ_cons, List.take_zero,
            List.drop_succ_cons, List.drop_zero, List.map_cons, List.map_nil, List.nil_append, Running.patience,
            Nat.sub_self, Nat.zero_max]
          rw [ih (Nat.le_of_succ_le_succ hfuel)]

theorem map_pair_schedule {workers : Nat} (hworkers : 0 < workers) (pairs : List Pair) :
    (schedule workers pairs).map Collected.pair = pairs :=
  Queue.map_pair_collect hworkers (Nat.le_refl _)

theorem limit_le_of_mem_schedule {workers : Nat} {pairs : List Pair} {c : Collected} (h : c ∈ schedule workers pairs) :
    c.pair.descriptor.limit ≤ c.patience :=
  Queue.limit_le_of_mem_collect h

theorem schedule_one (pairs : List Pair) :
    schedule 1 pairs = pairs.map fun pair => { pair, patience := pair.descriptor.limit } :=
  Queue.collect_one (Nat.le_refl _) 0

theorem Machine.workers_pos (m : Machine) (workers : Nat) : 0 < m.workers workers := by
  unfold Machine.workers defaultWorkers
  split
  · split <;> omega
  · omega

/-! ## Tasks -/

/-- What a task is about. -/
def Task.key (t : Task) : Kind × Text := (t.descriptor.kind, t.file)

theorem map_number (calls : Kind → Nat) (todo : List (Descriptor × Text)) :
    (number calls todo).map (fun t => (t.descriptor, t.file)) = todo := by
  induction todo generalizing calls with
  | nil => rfl
  | cons pair todo ih => rw [number, List.map_cons, ih]

theorem map_tasks (machine : Machine) (phase : List Descriptor) (files : FilesByKind) :
    (tasks machine phase files).map (fun t => (t.descriptor, t.file)) = pairs phase files :=
  map_number _ _

theorem map_key_tasks (machine : Machine) (phase : List Descriptor) (files : FilesByKind) :
    (tasks machine phase files).map Task.key = keysOf (kinds phase) files := by
  have hkey : Task.key = (fun pair => (pair.1.kind, pair.2)) ∘ fun t : Task => (t.descriptor, t.file) := rfl
  rw [hkey, ← List.map_map, map_tasks, pairs, keysOf, kinds, List.map_flatMap, List.flatMap_map]
  simp only [List.map_map, Function.comp_def]

/-! ## Prepared tasks -/

/-- What a prepared task is about. -/
def preparedKey : Pair ⊕ Result → Kind × Text
  | .inl p => p.key
  | .inr r => r.key

theorem preparedKey_prepare (registry : Registry) (t : Task) : preparedKey (prepare registry t) = t.key := by
  unfold prepare
  dsimp only
  split
  · rfl
  · split <;> rfl

theorem map_preparedKey (machine : Machine) (registry : Registry) (phase : List Descriptor) (files : FilesByKind) :
    ((tasks machine phase files).map (prepare registry)).map preparedKey = keysOf (kinds phase) files := by
  rw [List.map_map, ← map_key_tasks machine]
  exact List.map_congr_left fun t _ => preparedKey_prepare registry t

@[simp] theorem pairsOf_inl (p : Pair) (prepared : List (Pair ⊕ Result)) :
    pairsOf (.inl p :: prepared) = p :: pairsOf prepared := rfl

@[simp] theorem pairsOf_inr (r : Result) (prepared : List (Pair ⊕ Result)) :
    pairsOf (.inr r :: prepared) = pairsOf prepared := rfl

@[simp] theorem unmadeResults_inl (p : Pair) (prepared : List (Pair ⊕ Result)) :
    unmadeResults (.inl p :: prepared) = unmadeResults prepared := rfl

@[simp] theorem unmadeResults_inr (r : Result) (prepared : List (Pair ⊕ Result)) :
    unmadeResults (.inr r :: prepared) = r :: unmadeResults prepared := rfl

/-! ## Results -/

/-- The result of a pair that is given up after `patience` nanoseconds. -/
def Pair.outcome (machine : Machine) (p : Pair) (patience : Nat) : Result :=
  p.result (machine.stopwatch p.descriptor.kind p.file) (p.ending patience)

theorem Pair.key_result (p : Pair) (time : Float) (ending : Ending) : (p.result time ending).key = p.key := by
  cases ending <;> rfl

/-- The results of a phase in the order in which they are listed. -/
def phaseResults (machine : Machine) (workers : Nat) (registry : Registry) (phase : List Descriptor)
    (files : FilesByKind) : List Result :=
  let prepared := (tasks machine phase files).map (prepare registry)
  unmadeResults prepared ++
    (schedule (machine.workers workers) (pairsOf prepared)).map fun c => c.pair.outcome machine c.patience

theorem runPhase_fst (machine : Machine) (workers : Nat) (registry : Registry) (phase : List Descriptor)
    (files : FilesByKind) :
    (runPhase machine workers registry phase files).1 =
      Results.ofList (phaseResults machine workers registry phase files) := by
  simp only [runPhase, phaseResults, List.map_map]
  rfl

theorem map_key_schedule (machine : Machine) {workers : Nat} (hworkers : 0 < workers) (pairs : List Pair) :
    ((schedule workers pairs).map fun c => c.pair.outcome machine c.patience).map Result.key = pairs.map Pair.key := by
  have hpairs := congrArg (List.map Pair.key) (map_pair_schedule hworkers pairs)
  rw [List.map_map] at hpairs
  rw [List.map_map, ← hpairs]
  exact List.map_congr_left fun c _ => c.pair.key_result _ _

/-- Each prepared task has its result, either before anything runs or from its own run. -/
theorem map_key_prepared_perm (prepared : List (Pair ⊕ Result)) :
    ((unmadeResults prepared).map Result.key ++ (pairsOf prepared).map Pair.key).Perm (prepared.map preparedKey) := by
  induction prepared with
  | nil => exact .refl _
  | cons x prepared ih =>
      cases x with
      | inl p =>
          rw [unmadeResults_inl, pairsOf_inl, List.map_cons, List.map_cons]
          exact List.perm_middle.trans (ih.cons _)
      | inr r =>
          rw [unmadeResults_inr, pairsOf_inr, List.map_cons, List.map_cons, List.cons_append]
          exact ih.cons _

theorem map_key_phaseResults_perm (machine : Machine) (workers : Nat) (registry : Registry) (phase : List Descriptor)
    (files : FilesByKind) :
    ((phaseResults machine workers registry phase files).map Result.key).Perm (keysOf (kinds phase) files) := by
  rw [← map_preparedKey machine registry, phaseResults, List.map_append,
    map_key_schedule machine (machine.workers_pos workers)]
  exact map_key_prepared_perm _

theorem kind_mem_of_mem_phaseResults {machine : Machine} {workers : Nat} {registry : Registry}
    {phase : List Descriptor} {files : FilesByKind} {r : Result}
    (h : r ∈ phaseResults machine workers registry phase files) : r.kind ∈ kinds phase := by
  have hkey := (map_key_phaseResults_perm machine workers registry phase files).mem_iff.mp (List.mem_map_of_mem h)
  exact (mem_keysOf.mp hkey).1

end RuleFlow.Run
