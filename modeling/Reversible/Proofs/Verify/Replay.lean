import Reversible.Proofs.Verify.ConflictFree

/-! # Replaying an accepted routine

A replay goes through the actions of a block and carries out those that have no fault. In a routine
that is accepted none has one, so at each action the replay has come to the snapshot that the
actions before it lead to, and that snapshot allows the action.
-/

namespace Reversible

namespace SlotAction

variable {s : Snapshot} {a : SlotAction} {acts acts' : List SlotAction}

/-- The snapshot that a replay has come to after some actions. -/
def replayed (s : Snapshot) (acts : List SlotAction) : Snapshot :=
  acts.foldl (fun s a => a.applyChecked s) s

theorem replay_append (s : Snapshot) (acts acts' : List SlotAction) :
    replay s (acts ++ acts') = replay s acts ++ replay (replayed s acts) acts' := by
  induction acts generalizing s with
  | nil => rfl
  | cons a acts ih =>
    rw [List.cons_append, replay, replay, ih, List.append_assoc]
    rfl

theorem replayed_eq (h : replay s acts = []) : replayed s acts = acts.foldl apply s := by
  induction acts generalizing s with
  | nil => rfl
  | cons a acts ih =>
    obtain ⟨hf, hr⟩ := replay_cons_eq_nil_iff.mp h
    rw [List.foldl_cons, ← ih hr, replayed, List.foldl_cons, applyChecked, hf, replayed]

theorem replay_prefix (h : replay s (acts ++ acts') = []) :
    replay s acts = [] ∧ replay (replayed s acts) acts' = [] := by
  rwa [replay_append, List.append_eq_nil_iff] at h

/-- Readings change nothing, so a replay looks at all of them in the same snapshot. -/
theorem fault?_of_replay (hread : ∀ a ∈ acts, a.isReading) (h : replay s acts = []) :
    ∀ a ∈ acts, a.fault? s = none := by
  induction acts with
  | nil => simp
  | cons a acts ih =>
    rw [List.forall_mem_cons] at hread ⊢
    obtain ⟨hf, hr⟩ := replay_cons_eq_nil_iff.mp h
    refine ⟨hf, ?_⟩
    cases a with
    | reading path span => exact ih hread.2 hr
    | _ => cases hread.1

theorem isInitialized_of_fault? {path : ResourcePath} {span : Span} {state : Occupancy}
    (h : (reading path span).fault? s = none) (hr : s.read path = .ok state) :
    state.isInitialized := by
  rw [fault?, show (reading path span).path = path from rfl, hr] at h
  exact ite_none_eq_none_iff.mp h

end SlotAction

def RoutineReport.before? (report : RoutineReport) (b : Nat) : Option Snapshot :=
  report.solution.bind (·.input? b)

def RoutineReport.after? (report : RoutineReport) (b : Nat) : Option Snapshot :=
  report.solution.bind (·.output? b)

namespace Routine

variable {r : Routine} {env : Environment} {config : QueueConfig} {l : Layout Ty}
  {ins outs : Nat → Snapshot} {b : Nat}

/-- Nothing is reported for a routine. Its environment has the layout `l`, and `ins` and `outs` are
the snapshots before and after its blocks. -/
structure Accepted (r : Routine) (env : Environment) (config : QueueConfig) (l : Layout Ty)
    (ins outs : Nat → Snapshot) : Prop where
  layout_eq : env.layout = .ok l
  declared : Declarations.faults r env = []
  linked : ControlGraph.faults r = []
  solution_eq : (r.verify env config).solution = some (r.problem l).solve
  solves : (r.problem l).Solves ins outs
  replay_eq : ∀ b ∈ (ControlGraph.ofRoutine r).ids,
    SlotAction.replay (ins b) ((ControlGraph.ofRoutine r).trail [b]) = []
  ending_eq : OccupancySolution.ending (.ofRoutine r) (r.problem l).solve (.ofRoutine r) = []
  memory_eq : r.memoryPass env = []

theorem exists_accepted (h : (r.verify env config).diagnostics = []) :
    ∃ l ins outs, r.Accepted env config l ins outs := by
  obtain ⟨hd, hg, hocc, hmem⟩ := diagnostics_eq_nil_iff.mp h
  cases hp : r.occupancyProblem env with
  | error e => simp [occupancyPass, hp] at hocc
  | ok p =>
    obtain ⟨l, hl, rfl⟩ := exists_layout_of_occupancyProblem hp
    obtain ⟨ins, outs, hs⟩ := r.exists_solves_problem l hg
    obtain ⟨-, hr, he⟩ := (occupancyPass_eq_nil_iff hl hd).mp hocc
    refine ⟨l, ins, outs, hl, hd, hg, ?_, hs, (replay_solve_eq_nil_iff hs).mp hr, he, hmem⟩
    rw [solution_verify, if_pos ⟨hd, hg⟩, occupancyPass, hp]

namespace Accepted

variable (h : r.Accepted env config l ins outs)
include h

theorem before?_eq (hb : b ∈ (ControlGraph.ofRoutine r).ids) :
    (r.verify env config).before? b = some (ins b) := by
  rw [RoutineReport.before?, h.solution_eq]
  exact h.solves.input? hb

theorem after?_eq (hb : b ∈ (ControlGraph.ofRoutine r).ids) :
    (r.verify env config).after? b = some (outs b) := by
  rw [RoutineReport.after?, h.solution_eq]
  exact h.solves.output? hb

end Accepted

end Routine

end Reversible
