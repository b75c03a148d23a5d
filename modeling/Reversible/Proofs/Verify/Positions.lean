import Reversible.Proofs.Occupancy.Bare

/-! # Positions do not matter

What is found about a routine depends neither on its positions in the source nor on the types
written in it: a routine and its bare form have the same findings, pass by pass.
-/

namespace Reversible

def MemoryFault.bare : MemoryFault → MemoryFault
  | .twice role path _ => .twice role path .dummy
  | .invalid path _ error => .invalid path .dummy error
  | .unbalanced role _ paths => .unbalanced role .dummy paths

@[simp] theorem MemoryFault.finding_bare (f : MemoryFault) :
    f.bare.diagnostic.finding = f.diagnostic.finding := by
  cases f with
  | unbalanced role span paths => cases role <;> rfl
  | _ => rfl

@[simp] theorem MemoryFault.isInvalid_bare (f : MemoryFault) : f.bare.isInvalid = f.isInvalid := by
  cases f <;> rfl

theorem MarkTable.markAll_bare (role : MemoryRole) (t : MarkTable) (ms : List Memory) :
    t.markAll role (ms.map (·.bare)) =
      ((t.markAll role ms).1, (t.markAll role ms).2.map (·.bare)) := by
  induction ms generalizing t with
  | nil => rfl
  | cons m ms ih =>
    have hfault : ∀ result,
        markFault? role m.bare result = (markFault? role m result).map (·.bare) := by
      intro result
      match result with
      | .ok false => rfl
      | .ok true => simp [markFault?, MemoryFault.bare]
      | .error e => simp [markFault?, MemoryFault.bare]
    simp only [List.map_cons, markAll, Memory.path_bare, ih, hfault, Option.toList_map,
      List.map_append]

theorem InstructionMarks.imbalance_bare (role : MemoryRole) (span : Span) (t other : MarkTable) :
    imbalance role .dummy t other = (imbalance role span t other).map (·.bare) := by
  rw [imbalance, imbalance]
  split <;> rfl

theorem Instruction.memoryFindings_bare (i : Instruction) (blank : MarkTable) :
    i.bare.memoryFindings blank = i.memoryFindings blank := by
  have hmemories : ∀ es : List Expr, (es.map (·.bare)).flatMap Expr.memories =
      (es.flatMap Expr.memories).map (·.bare) := by
    intro es
    simp [List.flatMap_map, List.map_flatMap]
  have hfaults : (InstructionMarks.check blank i.bare).faults =
      (InstructionMarks.check blank i).faults.map (·.bare) := by
    simp only [InstructionMarks.check, destroyed_bare, created_bare, hmemories, span_bare,
      MarkTable.markAll_bare, ← List.map_append, List.any_map, Function.comp_def,
      MemoryFault.isInvalid_bare, InstructionMarks.imbalance_bare _ i.span]
    split <;> simp
  rw [memoryFindings, memoryFindings, hfaults, List.map_map]
  exact List.map_congr_left fun f _ => f.finding_bare

namespace Routine

variable {r r' : Routine} {env : Environment} {l : Layout Ty}

theorem alike_bare (r : Routine) : Declarations.Alike r.bare r where
  inputs := by simp [bare, Function.comp_def, Param.bare]
  outputs := by simp [bare, Function.comp_def, Param.bare]
  mentions name := by
    have hmentions : Declarations.mentions r.bare = (Declarations.mentions r).map (·.bare) := by
      simp [Declarations.mentions, bare, params, Function.comp_def, Param.bare, List.flatMap_map,
        List.map_flatMap]
    rw [hmentions]
    simp

theorem map_finding_solve_bare (hg : ControlGraph.faults r = []) (l : Layout Ty) :
    (OccupancySolution.faults (.ofRoutine r.bare) (r.bare.problem l).solve (.ofRoutine r.bare)).map
        (·.diagnostic.finding) =
      (OccupancySolution.faults (.ofRoutine r) (r.problem l).solve (.ofRoutine r)).map
        (·.diagnostic.finding) := by
  have hg' := (ControlGraph.faults_bare_eq_nil_iff r).mpr hg
  obtain ⟨ins, outs, h⟩ := r.exists_solves_problem l hg
  obtain ⟨ins', outs', h'⟩ := r.bare.exists_solves_problem l hg'
  have hsol : ∀ b ∈ (ControlGraph.ofRoutine r).ids,
      ins' b = (ins b).bare ∧ outs' b = (outs b).bare := by
    intro b hb
    have hlink := ControlGraph.mem_successors_of_mem_predecessors hg'
    refine (carries_bare r l).solution_eq hlink h' h ?_
    rwa [ControlGraph.ofRoutine_bare, ControlGraph.ids_bare]
  have hconflicts : r.bare.conflictNames l = r.conflictNames l :=
    conflictNames_eq_of_carries (carries_bare r l) r.alike_bare.symm hg' h h'
      Snapshot.disagrees_bare_iff
  have hblocks : ((ControlGraph.ofRoutine r.bare).ids.flatMap fun b =>
        SlotAction.findings (ins' b) ((r.bare.problem l).actions b)) =
      (ControlGraph.ofRoutine r).ids.flatMap fun b =>
        SlotAction.findings (ins b) ((r.problem l).actions b) := by
    rw [ControlGraph.ofRoutine_bare, ControlGraph.ids_bare]
    refine List.flatMap_congr fun b hb => ?_
    rw [actions_bare, (hsol b hb).1, SlotAction.findings_bare]
  have hlast : (ControlGraph.ofRoutine r.bare).last = (ControlGraph.ofRoutine r).last := by
    rw [ControlGraph.ofRoutine_bare, ControlGraph.last, ControlGraph.size_bare, ControlGraph.last]
  rw [map_finding_solve h, map_finding_solve h', hconflicts, hblocks, hlast,
    (hsol _ (last_mem_ids r)).2, OccupancySolution.endFindings_bare,
    OccupancySolution.endFindings_congr r.alike_bare]

theorem findings_bare (r : Routine) (env : Environment) :
    (r.bare.verify env .unlimited).findings = (r.verify env .unlimited).findings := by
  have hmemory : (r.bare.memoryPass env).map (·.finding) = (r.memoryPass env).map (·.finding) := by
    rw [map_finding_memoryPass, map_finding_memoryPass]
    cases env.layout with
    | error e => rfl
    | ok l =>
      change (r.body.map (·.bare)).flatMap _ = _
      rw [List.flatMap_map]
      exact List.flatMap_congr fun i _ => i.memoryFindings_bare _
  have hslots (hd : Declarations.faults r env = []) (hg : ControlGraph.faults r = []) :
      (r.bare.occupancyPass env).2.map (·.finding) = (r.occupancyPass env).2.map (·.finding) := by
    rw [map_finding_occupancyPass hd,
      map_finding_occupancyPass (r.alike_bare.faults_eq_nil_iff.mpr hd)]
    cases env.layout with
    | error e => rfl
    | ok l => exact map_finding_solve_bare hg l
  rw [findings_verify, findings_verify, r.alike_bare.findings_eq env,
    ControlGraph.map_finding_faults_bare, hmemory]
  by_cases hd : Declarations.faults r env = []
  · rw [if_pos (r.alike_bare.faults_eq_nil_iff.mpr hd), if_pos hd]
    by_cases hg : ControlGraph.faults r = []
    · rw [if_pos ((ControlGraph.faults_bare_eq_nil_iff r).mpr hg), if_pos hg, hslots hd hg]
    · rw [if_neg ((ControlGraph.faults_bare_eq_nil_iff r).not.mpr hg), if_neg hg]
  · rw [if_neg (r.alike_bare.faults_eq_nil_iff.not.mpr hd), if_neg hd]

/-- Two routines that differ only in their positions and written types have the same findings in the
same order, and either both are accepted or none. -/
theorem findings_eq_of_bare_eq (env : Environment) (h : r.bare = r'.bare) :
    (r.verify env .unlimited).findings = (r'.verify env .unlimited).findings ∧
      (r.verify env .unlimited).isAccepted = (r'.verify env .unlimited).isAccepted := by
  have hfindings : (r.verify env .unlimited).findings = (r'.verify env .unlimited).findings := by
    rw [← findings_bare r, ← findings_bare r', h]
  refine ⟨hfindings, ?_⟩
  rw [RoutineReport.isAccepted_eq, RoutineReport.isAccepted_eq, hfindings]

end Routine

namespace Blur

/-- A routine that empties `x` twice and never fills it, with its positions and the type written at
`x` left open. -/
def routine (place : Nat → Span) (type : TypeExpr) : Routine where
  id := ⟨"blur", place 0⟩
  inputs := [⟨⟨"y", place 1⟩, some type, place 2⟩]
  outputs := []
  body := [
    .assign (.int 5 (place 3)) (.storage (.typed (.slot ⟨"x", place 4⟩) type (place 5))) none
      (place 6),
    .assign (.int 5 (place 7)) (.storage (.slot ⟨"x", place 8⟩)) none (place 9)]
  span := place 10

def env : Environment where
  types := ∅
  vars := ((∅ : NameMap Ty).insert "x" .int).insert "y" .int

def written : Routine := routine Sample.span (.named ⟨"Int", ⟨11, 14⟩⟩)

def blurred : Routine := routine (fun _ => .dummy) (.reference (.named ⟨"Pair", .dummy⟩) .dummy)

theorem findings_eq_blur : written.bare = blurred.bare ∧
    (written.verify env .unlimited).findings = (blurred.verify env .unlimited).findings ∧
    (written.verify env .unlimited).findings.map (·.1) =
      [.finalizeUninitialized, .finalizeUninitialized, .variableNotFinalized] := by
  have h : written.bare = blurred.bare := rfl
  exact ⟨h, (Routine.findings_eq_of_bare_eq env h).1, by decide +kernel⟩

end Blur

end Reversible
