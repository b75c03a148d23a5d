import Reversible.Proofs.Verify.Replay

/-! # The configuration does not decide anything

How many diagnostics a queue keeps and whether it drops repetitions has no bearing on which passes
run: a pass is skipped if an earlier one has found something, and no queue hides that. So the
verdict, the graph and the solution of a routine are the same under every configuration, and what is
shown of a pass is a part of all that it has found. Dumps only add to the log.
-/

namespace Reversible

/-- The passes that look at a routine, in the order in which they report. -/
inductive Pass where
  | declarations
  | graph
  | occupancy
  | memory
deriving DecidableEq, Repr

namespace Pass

def all : List Pass := [declarations, graph, occupancy, memory]

/-- The codes of what a pass can find wrong with a routine. -/
def codes : Pass → List Code
  | declarations => [.repeatedParameter, .untypedVariable]
  | graph => [.entryInOpenBlock, .outsideBlock, .repeatedEntryLabel, .repeatedExitLabel,
      .unmatchedEntryLabel, .unmatchedExitLabel]
  | occupancy => [.conflict, .finalizeUninitialized, .initializeInitialized, .useUninitialized,
      .outputNotInitialized, .variableNotFinalized]
  | memory => [.destroyedTwice, .createdTwice, .createdOnly, .destroyedOnly, .invalidAccess]

/-- Whether a pass needs a layout of the environment, and fails if there is none. -/
def canFail : Pass → Bool
  | declarations | graph => false
  | occupancy | memory => true

example : all.map (·.codes.map Code.number) =
    [[2001, 2002], [1001, 1002, 1003, 1004, 1005, 1006], [3001, 3002, 3003, 3004, 3005, 3006],
      [4001, 4002, 4003, 4004, 4005]] := rfl

end Pass

def Event.isDump : Event → Bool
  | graphDump .. | occupancyDump .. | marksDump .. => true
  | _ => false

def withoutDumps (events : List Event) : List Event := events.filter (!·.isDump)

theorem withoutDumps_append (es es' : List Event) :
    withoutDumps (es ++ es') = withoutDumps es ++ withoutDumps es' :=
  List.filter_append ..

theorem withoutDumps_append_ite {es dump : List Event} (h : ∀ e ∈ dump, e.isDump) (b : Bool) :
    withoutDumps (es ++ if b then dump else []) = withoutDumps es := by
  cases b with
  | false => rw [if_neg Bool.false_ne_true, List.append_nil]
  | true =>
    have hnil : withoutDumps dump = [] := by
      unfold withoutDumps
      rw [List.filter_eq_nil_iff]
      intro e he
      simp [h e he]
    rw [if_pos rfl, withoutDumps_append, hnil, List.append_nil]

namespace Routine

variable {r : Routine} {env : Environment} {config : QueueConfig}

/-- The queue of a pass when a routine is verified. The queue of a pass that is skipped is empty. -/
def passQueue (r : Routine) (env : Environment) (config : QueueConfig) : Pass → Queue
  | .declarations => r.declarationQueue env config
  | .graph => r.graphQueue config
  | .occupancy => .ofList config <|
    if (r.declarationQueue env config).hasErrors || (r.graphQueue config).hasErrors then []
    else (r.occupancyPass env).2
  | .memory => .ofList config <|
    if (r.declarationQueue env config).hasErrors then [] else r.memoryPass env

/-- What a pass finds, if those before it let it run. -/
def found (r : Routine) (env : Environment) : Pass → List Diagnostic
  | .declarations => (Declarations.faults r env).map (·.diagnostic)
  | .graph => (ControlGraph.faults r).map (·.diagnostic)
  | .occupancy =>
    if Declarations.faults r env = [] ∧ ControlGraph.faults r = [] then (r.occupancyPass env).2
    else []
  | .memory => if Declarations.faults r env = [] then r.memoryPass env else []

/-- Which passes run and what comes into their queues does not depend on the configuration. -/
theorem passQueue_eq (r : Routine) (env : Environment) (config : QueueConfig) (pass : Pass) :
    r.passQueue env config pass = .ofList config (r.found env pass) := by
  cases pass with
  | declarations => rfl
  | graph => rfl
  | occupancy =>
    unfold passQueue found
    rw [hasErrors_declarationQueue, hasErrors_graphQueue]
    by_cases hd : Declarations.faults r env = [] <;> by_cases hg : ControlGraph.faults r = [] <;>
      simp [hd, hg]
  | memory =>
    unfold passQueue found
    rw [hasErrors_declarationQueue]
    by_cases hd : Declarations.faults r env = [] <;> simp [hd]

/-- What the queue of a pass adds to the report: nothing for the graph after an error in the
declarations. -/
def shown (r : Routine) (env : Environment) (config : QueueConfig) (pass : Pass) :
    List Diagnostic :=
  if pass = .graph ∧ Declarations.faults r env ≠ [] then []
  else (r.passQueue env config pass).flushed

theorem diagnostics_verify (r : Routine) (env : Environment) (config : QueueConfig) :
    (r.verify env config).diagnostics = Pass.all.flatMap (r.shown env config) := by
  simp only [verify, Pass.all, List.flatMap_cons, List.flatMap_nil, List.append_nil, shown,
    passQueue, hasErrors_declarationQueue, hasErrors_graphQueue]
  by_cases hd : Declarations.faults r env = [] <;> by_cases hg : ControlGraph.faults r = [] <;>
    simp [hd, hg]

theorem code_declarationFault {f : DeclarationFault} (h : f ∈ Declarations.faults r env) :
    f.diagnostic.code ∈ Pass.codes .declarations := by
  have hparams : ∀ params, f ∈ Declarations.repeatedParams params →
      f.diagnostic.code = .repeatedParameter := by
    intro params hf
    obtain ⟨e, -, rfl⟩ := List.mem_map.mp hf
    rfl
  unfold Declarations.faults at h
  rcases List.mem_append.mp h with h | h
  · rcases List.mem_append.mp h with h | h <;> simp [hparams _ h, Pass.codes]
  · obtain ⟨e, -, rfl⟩ := List.mem_map.mp h
    simp [DeclarationFault.diagnostic, Pass.codes]

theorem code_graphFault (f : GraphFault) : f.diagnostic.code ∈ Pass.codes .graph := by
  cases f with
  | entryInOpenBlock span => simp [GraphFault.diagnostic, Pass.codes]
  | outsideBlock span => simp [GraphFault.diagnostic, Pass.codes]
  | repeatedLabel role label first => cases role <;> simp [GraphFault.diagnostic, Pass.codes]
  | unmatchedLabel role label => cases role <;> simp [GraphFault.diagnostic, Pass.codes]

theorem code_occupancyFault (f : OccupancyFault) : f.diagnostic.code ∈ Pass.codes .occupancy := by
  cases f <;> simp [OccupancyFault.diagnostic, Pass.codes]

theorem code_memoryFault (f : MemoryFault) : f.diagnostic.code ∈ Pass.codes .memory := by
  cases f with
  | twice role path span => cases role <;> simp [MemoryFault.diagnostic, Pass.codes]
  | invalid path span error => simp [MemoryFault.diagnostic, Pass.codes]
  | unbalanced role span paths => cases role <;> simp [MemoryFault.diagnostic, Pass.codes]

theorem occupancyPass_codes (r : Routine) (env : Environment) :
    (∀ d ∈ (r.occupancyPass env).2, d.code ∈ Pass.codes .occupancy) ∨
      (r.occupancyPass env).2.map (·.code) = [.internal] := by
  unfold occupancyPass
  cases r.occupancyProblem env with
  | error e => exact .inr rfl
  | ok p =>
    left
    rintro d hd
    obtain ⟨f, -, rfl⟩ := List.mem_map.mp hd
    exact code_occupancyFault f

theorem memoryPass_codes (r : Routine) (env : Environment) :
    (∀ d ∈ r.memoryPass env, d.code ∈ Pass.codes .memory) ∨
      (r.memoryPass env).map (·.code) = [.internal] := by
  unfold memoryPass
  cases InstructionMarks.ofBody env r.body with
  | error e => exact .inr rfl
  | ok marks =>
    left
    rintro d hd
    obtain ⟨m, -, hd⟩ := List.mem_flatMap.mp hd
    obtain ⟨f, -, rfl⟩ := List.mem_map.mp hd
    exact code_memoryFault f

theorem found_codes (r : Routine) (env : Environment) (pass : Pass) :
    (∀ d ∈ r.found env pass, d.code ∈ pass.codes) ∨
      pass.canFail ∧ (r.found env pass).map (·.code) = [.internal] := by
  cases pass with
  | declarations =>
    left
    rintro d hd
    obtain ⟨f, hf, rfl⟩ := List.mem_map.mp hd
    exact code_declarationFault hf
  | graph =>
    left
    rintro d hd
    obtain ⟨f, -, rfl⟩ := List.mem_map.mp hd
    exact code_graphFault f
  | occupancy =>
    rw [found]
    split
    · exact (r.occupancyPass_codes env).imp_right fun h => ⟨rfl, h⟩
    · simp
  | memory =>
    rw [found]
    split
    · exact (r.memoryPass_codes env).imp_right fun h => ⟨rfl, h⟩
    · simp

theorem code_ne_tooMany {pass : Pass} {d : Diagnostic} (hd : d ∈ r.found env pass) :
    d.code ≠ .tooMany := by
  rcases r.found_codes env pass with h | ⟨-, h⟩
  · have hcode := h d hd
    rintro he
    rw [he] at hcode
    cases pass <;> simp [Pass.codes] at hcode
  · have hcode : d.code ∈ (r.found env pass).map (·.code) := List.mem_map_of_mem hd
    rw [h, List.mem_singleton] at hcode
    simp [hcode]

theorem withoutDumps_occupancyEvents (r : Routine) (env : Environment) (dumps : Dumps) :
    withoutDumps (r.occupancyEvents env dumps) = withoutDumps (r.occupancyEvents env {}) := by
  unfold occupancyEvents
  cases r.occupancyProblem env with
  | error e => rfl
  | ok p =>
    dsimp only
    have hdump : ∀ e ∈ p.solve.cells.map fun c =>
        Event.occupancyDump c.node c.input.render c.output.render, e.isDump :=
      List.forall_mem_map.mpr fun _ _ => rfl
    rw [withoutDumps_append_ite hdump, withoutDumps_append_ite hdump]

theorem withoutDumps_memoryEvents (r : Routine) (env : Environment) (config : QueueConfig)
    (dumps : Dumps) :
    withoutDumps (r.memoryEvents env config dumps) =
      withoutDumps (r.memoryEvents env config {}) := by
  unfold memoryEvents
  cases InstructionMarks.ofBody env r.body with
  | error e => rfl
  | ok marks =>
    dsimp only
    have hdump : ∀ e ∈ List.zipWith (fun (i : Instruction) (m : InstructionMarks) =>
        Event.marksDump i.span m.destroyed.render m.created.render) r.body marks, e.isDump := by
      rw [← List.map_uncurry_zip_eq_zipWith]
      exact List.forall_mem_map.mpr fun _ _ => rfl
    rw [withoutDumps_append_ite hdump, withoutDumps_append_ite hdump]

theorem withoutDumps_verifyEvents (r : Routine) (env : Environment) (config : QueueConfig)
    (dumps : Dumps) :
    withoutDumps (r.verifyEvents env config dumps) =
      withoutDumps (r.verifyEvents env config {}) := by
  have hnil : withoutDumps [] = [] := rfl
  have hgraph : withoutDumps [.graphDump r.name (ControlGraph.ofRoutine r).render] = [] := rfl
  unfold verifyEvents
  simp only [withoutDumps_append, apply_ite withoutDumps, hnil, hgraph, ite_self,
    withoutDumps_occupancyEvents r env dumps, withoutDumps_memoryEvents r env config dumps]

/-- Whatever is configured, a routine gets the same verdict, graph and solution. What the queue of a
pass flushes, but for a last remark that errors were left out, is a part of what it flushes without
limit, and not an empty one if that is not empty. Dumps show in the log and nowhere else. -/
theorem verify_of_config (r : Routine) (env : Environment) (config config' : QueueConfig) :
    (r.verify env config).isAccepted = (r.verify env config').isAccepted ∧
      (r.verify env config).graph = (r.verify env config').graph ∧
      (r.verify env config).solution = (r.verify env config').solution ∧
      (∀ dumps dumps', withoutDumps (r.verifyEvents env config dumps) =
        withoutDumps (r.verifyEvents env config dumps')) ∧
      (r.verify env config).diagnostics = Pass.all.flatMap (r.shown env config) ∧
      ∀ pass, ∃ kept rest, (r.passQueue env config pass).flushed = kept ++ rest ∧
        (∀ d ∈ kept, d.code ≠ .tooMany) ∧
        (rest = [] ∨ ∃ n, rest = [.tooMany config.errorLimit n]) ∧
        kept.Sublist (r.passQueue env .unlimited pass).flushed ∧
        ((r.passQueue env .unlimited pass).flushed ≠ [] → kept ≠ []) := by
  refine ⟨?_, rfl, ?_, ?_, r.diagnostics_verify env config, fun pass => ?_⟩
  · unfold RoutineReport.isAccepted
    rw [Bool.eq_iff_iff, List.isEmpty_iff, List.isEmpty_iff, diagnostics_eq_nil_iff,
      diagnostics_eq_nil_iff]
  · rw [solution_verify, solution_verify]
  · intro dumps dumps'
    rw [withoutDumps_verifyEvents, r.withoutDumps_verifyEvents env config dumps']
  · rw [passQueue_eq, passQueue_eq, Queue.flushed_ofList_unlimited]
    obtain ⟨rest, hflushed, hrest⟩ := Queue.flushed_ofList config (r.found env pass)
    have hkept := Queue.kept_ofList_sublist config (r.found env pass)
    refine ⟨_, rest, hflushed, ?_, hrest.imp_right (·.2), hkept, ?_⟩
    · exact fun d hd => code_ne_tooMany (hkept.subset hd)
    · exact mt Queue.kept_ofList_eq_nil_iff.mp

end Routine

end Reversible
