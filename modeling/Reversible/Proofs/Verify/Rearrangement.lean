import Reversible.Proofs.Graph.Rearrangement
import Reversible.Proofs.Occupancy.Transport

/-! # The order of the inner blocks does not matter

Rearranging the blocks of a routine other than the first and the last renames the blocks of its
occupancy problem and changes nothing else. So the blocks keep their snapshots, and what is found is
the same, in another order.
-/

namespace Reversible

namespace Routine

variable {r : Routine} {env : Environment} {l : Layout Ty} {π : Equiv.Perm Nat}

section Rearranged

variable (hg : ControlGraph.faults r = []) (hπ : (ControlGraph.ofRoutine r).MovesInner π)
include hg hπ

theorem alike_rearranged : Declarations.Alike r (r.rearranged π) where
  inputs := rfl
  outputs := rfl
  mentions name := by
    have hperm := (ControlGraph.body_rearranged_perm hg hπ).flatMap_right Instruction.roots
    have hmentions : (Declarations.mentions (r.rearranged π)).Perm (Declarations.mentions r) :=
      hperm.append_left _
    simp only [hmentions.mem_iff]

theorem actions_rearranged (l : Layout Ty) (b : Nat) :
    ((r.rearranged π).problem l).actions b = (r.problem l).actions (π b) := by
  change ((ControlGraph.ofRoutine (r.rearranged π)).instructions b).flatMap _ = _
  rw [ControlGraph.instructions_rearranged hg hπ]
  rfl

theorem carries_rearranged (l : Layout Ty) :
    (r.problem l).Carries ((r.rearranged π).problem l) (fun s => s) π where
  mem_ids_iff {b} := by
    change b ∈ (ControlGraph.ofRoutine (r.rearranged π)).ids ↔ π b ∈ (ControlGraph.ofRoutine r).ids
    rw [ControlGraph.ids, ControlGraph.ids, ControlGraph.size_rearranged hg hπ, List.mem_range,
      List.mem_range, hπ.lt_iff]
  predecessors_eq := ControlGraph.predecessors_rearranged hg hπ
  blank_eq := rfl
  initialIn_eq b := by
    have hfirst : π b = (ControlGraph.ofRoutine r).first ↔
      b = (ControlGraph.ofRoutine (r.rearranged π)).first := hπ.eq_zero_iff
    rw [OccupancyProblem.initialIn, OccupancyProblem.initialIn]
    simp only [problem, OccupancyProblem.ofLayout, hfirst]
    rfl
  meet_eq _ _ := rfl
  transfer_eq s b := by
    rw [OccupancyProblem.transfer, OccupancyProblem.transfer, actions_rearranged hg hπ]

theorem solution_rearranged {ins outs ins' outs' : Nat → Snapshot} {b : Nat}
    (h : (r.problem l).Solves ins outs) (h' : ((r.rearranged π).problem l).Solves ins' outs')
    (hb : b ∈ (ControlGraph.ofRoutine (r.rearranged π)).ids) :
    ins' b = ins (π b) ∧ outs' b = outs (π b) :=
  (carries_rearranged hg hπ l).solution_eq (ControlGraph.mem_successors_of_mem_predecessors
    (ControlGraph.faults_rearranged hg hπ)) h' h hb

theorem solve_rearranged (l : Layout Ty) (b : Nat) :
    ((r.rearranged π).problem l).solve.input? b = (r.problem l).solve.input? (π b) ∧
      ((r.rearranged π).problem l).solve.output? b = (r.problem l).solve.output? (π b) := by
  have hg' := ControlGraph.faults_rearranged hg hπ
  obtain ⟨ins, outs, h⟩ := r.exists_solves_problem l hg
  obtain ⟨ins', outs', h'⟩ := (r.rearranged π).exists_solves_problem l hg'
  have hids := (carries_rearranged hg hπ l).mem_ids_iff (b := b)
  have hsolution := fun hb => solution_rearranged hg hπ h h' (hids.mpr hb)
  exact ⟨h.input?_congr h' hids fun hb => (hsolution hb).1,
    h.output?_congr h' hids fun hb => (hsolution hb).2⟩

theorem findings_blocks_rearranged {ins outs ins' outs' : Nat → Snapshot}
    (h : (r.problem l).Solves ins outs) (h' : ((r.rearranged π).problem l).Solves ins' outs') :
    ((ControlGraph.ofRoutine (r.rearranged π)).ids.flatMap fun b =>
        SlotAction.findings (ins' b) (((r.rearranged π).problem l).actions b)).Perm
      ((ControlGraph.ofRoutine r).ids.flatMap fun b =>
        SlotAction.findings (ins b) ((r.problem l).actions b)) := by
  have hmap : ∀ b ∈ (ControlGraph.ofRoutine (r.rearranged π)).ids,
      SlotAction.findings (ins' b) (((r.rearranged π).problem l).actions b) =
        SlotAction.findings (ins (π b)) ((r.problem l).actions (π b)) := fun b hb => by
    rw [(solution_rearranged hg hπ h h' hb).1, actions_rearranged hg hπ]
  have hids := hπ.ids_perm.flatMap_right fun b =>
    SlotAction.findings (ins b) ((r.problem l).actions b)
  rw [List.flatMap_map] at hids
  rw [List.flatMap_congr hmap, ControlGraph.ids, ControlGraph.size_rearranged hg hπ]
  exact hids

theorem layoutFindings_rearranged (env : Environment) (l : Layout Ty) :
    ((r.rearranged π).layoutFindings env l).Perm (r.layoutFindings env l) := by
  have hg' := ControlGraph.faults_rearranged hg hπ
  have ha := alike_rearranged hg hπ
  obtain ⟨ins, outs, h⟩ := r.exists_solves_problem l hg
  obtain ⟨ins', outs', h'⟩ := (r.rearranged π).exists_solves_problem l hg'
  have hconflicts : (r.rearranged π).conflictNames l = r.conflictNames l :=
    conflictNames_eq_of_carries (carries_rearranged hg hπ l) ha hg' h h' fun _ _ => Iff.rfl
  have hlast : outs' (ControlGraph.ofRoutine (r.rearranged π)).last =
      outs (ControlGraph.ofRoutine r).last := by
    rw [(solution_rearranged hg hπ h h' (last_mem_ids _)).2, ControlGraph.last,
      ControlGraph.size_rearranged hg hπ]
    exact congrArg outs (hπ _ (.inr le_rfl))
  refine List.Perm.append ?_ ((ControlGraph.body_rearranged_perm hg hπ).flatMap_right _)
  rw [map_finding_solve h, map_finding_solve h', hconflicts, hlast,
    OccupancySolution.endFindings_congr ha]
  split
  · exact (findings_blocks_rearranged hg hπ h h').append_right _
  · exact .refl _

end Rearranged

/-- Rearranging the blocks of a routine other than the first and the last gives a graph without
faults again. Its edges are the same, and so are the snapshots before and after each block, under
the new numbers. Without a limit the findings are the same up to their order, and either both
routines are accepted or none. -/
theorem verify_rearranged (env : Environment) (hg : ControlGraph.faults r = [])
    (hπ : (ControlGraph.ofRoutine r).MovesInner π) :
    ControlGraph.faults (r.rearranged π) = [] ∧
    (∀ b, (ControlGraph.ofRoutine (r.rearranged π)).instructions b =
      (ControlGraph.ofRoutine r).instructions (π b)) ∧
    (∀ b, (ControlGraph.ofRoutine (r.rearranged π)).predecessors b =
      ((ControlGraph.ofRoutine r).predecessors (π b)).map π.symm) ∧
    (∀ b, ((r.rearranged π).occupancyProblem env).map (·.solve.input? b) =
      (r.occupancyProblem env).map (·.solve.input? (π b))) ∧
    (∀ b, ((r.rearranged π).occupancyProblem env).map (·.solve.output? b) =
      (r.occupancyProblem env).map (·.solve.output? (π b))) ∧
    ((r.rearranged π).verify env .unlimited).findings.Perm (r.verify env .unlimited).findings ∧
    ((r.rearranged π).verify env .unlimited).isAccepted =
      (r.verify env .unlimited).isAccepted := by
  have hperm : ((r.rearranged π).verify env .unlimited).findings.Perm
      (r.verify env .unlimited).findings :=
    findings_rel .refl (alike_rearranged hg hπ) hg (ControlGraph.faults_rearranged hg hπ)
      fun l _ _ => layoutFindings_rearranged hg hπ env l
  have hinputs : (r.rearranged π).inputs = r.inputs := rfl
  refine ⟨ControlGraph.faults_rearranged hg hπ, ControlGraph.instructions_rearranged hg hπ,
    ControlGraph.predecessors_rearranged hg hπ, fun b => ?_, fun b => ?_, hperm, ?_⟩
  · refine map_occupancyProblem_congr hinputs (fun l => ?_) env
    exact (solve_rearranged hg hπ l b).1
  · refine map_occupancyProblem_congr hinputs (fun l => ?_) env
    exact (solve_rearranged hg hπ l b).2
  · rw [RoutineReport.isAccepted_eq, RoutineReport.isAccepted_eq, hperm.isEmpty_eq]

end Routine

namespace Fork

open Sample (span condition drop)

/-- Two branches that empty `x` and `y` in different orders. -/
def routine : Routine where
  id := ⟨"fork", span 0⟩
  inputs := []
  outputs := []
  body := [
    .branch .forward ⟨"left", span 1⟩ ⟨"right", span 1⟩ (condition 1) (span 1),
    .jump .backward ⟨"left", span 2⟩ (span 2),
    drop "x" 3,
    drop "y" 4,
    .jump .forward ⟨"joinLeft", span 5⟩ (span 5),
    .jump .backward ⟨"right", span 6⟩ (span 6),
    drop "y" 7,
    drop "x" 8,
    .jump .forward ⟨"joinRight", span 9⟩ (span 9),
    .branch .backward ⟨"joinLeft", span 10⟩ ⟨"joinRight", span 10⟩ (condition 10) (span 10)]
  span := span 0

def env : Environment where
  types := ∅
  vars := ((∅ : NameMap Ty).insert "x" .int).insert "y" .int

theorem movesInner_swap : (ControlGraph.ofRoutine routine).MovesInner (Equiv.swap 1 2) := by
  have hlast : (ControlGraph.ofRoutine routine).last = 3 := by decide +kernel
  intro b hb
  have hb : b = 0 ∨ 3 ≤ b := hlast ▸ hb
  exact Equiv.swap_apply_of_ne_of_ne (by omega) (by omega)

/-- The faults of the two branches change places. -/
theorem verify_rearranged_fork : ControlGraph.faults routine = [] ∧
    (ControlGraph.ofRoutine routine).MovesInner (Equiv.swap 1 2) ∧
    ((routine.rearranged (Equiv.swap 1 2)).verify env .unlimited).findings.Perm
      (routine.verify env .unlimited).findings ∧
    ((routine.rearranged (Equiv.swap 1 2)).verify env .unlimited).findings ≠
      (routine.verify env .unlimited).findings := by
  have hg : ControlGraph.faults routine = [] := by decide +kernel
  obtain ⟨-, -, -, -, -, hperm, -⟩ := Routine.verify_rearranged env hg movesInner_swap
  exact ⟨hg, movesInner_swap, hperm, by decide +kernel⟩

end Fork

end Reversible
