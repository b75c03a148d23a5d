import Reversible.Proofs.Declarations
import Reversible.Proofs.Occupancy.Fixpoint
import Reversible.Proofs.Report.Queue
import Reversible.Verify.Routine

/-! # When nothing is reported

A routine is accepted if and only if each of its passes, taken for itself, finds nothing.
-/

namespace Reversible

theorem OccupancySolution.faults_eq_nil_iff {g : ControlGraph} {s : OccupancySolution}
    {ds : Declarations} :
    faults g s ds = [] ↔ conflicts g s ds = [] ∧ replay g s = [] ∧ ending g s ds = [] := by
  rw [faults]
  cases conflicts g s ds <;> simp

theorem InstructionMarks.ofBody_eq (env : Environment) (body : List Instruction) :
    ofBody env body =
      env.layout.map fun l => body.map (check ⟨env.types, l.map MarkTable.slotTree⟩) := by
  rw [ofBody, MarkTable.blank]
  cases env.layout <;> rfl

namespace Routine

variable {r : Routine} {env : Environment} {config : QueueConfig} {l : Layout Ty}

theorem hasErrors_declarationQueue :
    (r.declarationQueue env config).hasErrors = decide (Declarations.faults r env ≠ []) := by
  rw [Bool.eq_iff_iff, decide_eq_true_iff, ← not_iff_not, Bool.not_eq_true, declarationQueue,
    Queue.hasErrors_ofList, List.map_eq_nil_iff, not_not]

theorem hasErrors_graphQueue :
    (r.graphQueue config).hasErrors = decide (ControlGraph.faults r ≠ []) := by
  rw [Bool.eq_iff_iff, decide_eq_true_iff, ← not_iff_not, Bool.not_eq_true, graphQueue,
    Queue.hasErrors_ofList, List.map_eq_nil_iff, not_not]

theorem solution_verify (r : Routine) (env : Environment) (config : QueueConfig) :
    (r.verify env config).solution =
      if Declarations.faults r env = [] ∧ ControlGraph.faults r = [] then (r.occupancyPass env).1
      else none := by
  simp only [verify, hasErrors_declarationQueue, hasErrors_graphQueue]
  by_cases hd : Declarations.faults r env = [] <;> by_cases hg : ControlGraph.faults r = [] <;>
    simp [hd, hg]

/-- Nothing is reported if and only if no pass, taken for itself, finds anything. -/
theorem diagnostics_eq_nil_iff : (r.verify env config).diagnostics = [] ↔
    Declarations.faults r env = [] ∧ ControlGraph.faults r = [] ∧ (r.occupancyPass env).2 = [] ∧
      r.memoryPass env = [] := by
  have hdf : (r.declarationQueue env config).flushed = [] ↔ Declarations.faults r env = [] := by
    rw [declarationQueue, Queue.flushed_ofList_eq_nil_iff, List.map_eq_nil_iff]
  have hgf : (r.graphQueue config).flushed = [] ↔ ControlGraph.faults r = [] := by
    rw [graphQueue, Queue.flushed_ofList_eq_nil_iff, List.map_eq_nil_iff]
  simp only [verify, hasErrors_declarationQueue, hasErrors_graphQueue]
  by_cases hd : Declarations.faults r env = []
  · by_cases hg : ControlGraph.faults r = []
    · simp [hd, hg, hdf.mpr hd, hgf.mpr hg, Queue.flushed_ofList_eq_nil_iff]
    · simp [hd, hg, hgf]
  · simp [hd, hdf]

def problem (r : Routine) (l : Layout Ty) : OccupancyProblem :=
  .ofLayout (.ofRoutine r) l (Declarations.ofRoutine r).inputs

theorem exists_solves_problem (r : Routine) (l : Layout Ty) (hg : ControlGraph.faults r = []) :
    ∃ ins outs, (r.problem l).Solves ins outs :=
  OccupancyProblem.exists_solves l _ (ControlGraph.mem_successors_of_mem_predecessors hg)

theorem occupancyProblem_of_layout_error {e : TypeError} (hl : env.layout = .error e) :
    r.occupancyProblem env = .error (.type e) := by
  rw [occupancyProblem, OccupancyProblem.build, Snapshot.blank, hl]
  rfl

theorem occupancyProblem_of_declared (hl : env.layout = .ok l)
    (hd : Declarations.faults r env = []) : r.occupancyProblem env = .ok (r.problem l) := by
  refine (OccupancyProblem.build_eq_ok_iff hl).mpr ⟨fun id hid => ?_, rfl⟩
  exact Declarations.contains_of_faults hd (Declarations.exists_mention_of_mem_inputs hid)

theorem occupancyPass_eq_nil_iff (hl : env.layout = .ok l) (hd : Declarations.faults r env = []) :
    (r.occupancyPass env).2 = [] ↔
      OccupancySolution.conflicts (.ofRoutine r) (r.problem l).solve (.ofRoutine r) = [] ∧
      OccupancySolution.replay (.ofRoutine r) (r.problem l).solve = [] ∧
      OccupancySolution.ending (.ofRoutine r) (r.problem l).solve (.ofRoutine r) = [] := by
  rw [occupancyPass, occupancyProblem_of_declared hl hd, ← OccupancySolution.faults_eq_nil_iff]
  exact List.map_eq_nil_iff

end Routine

end Reversible
