import Mathlib.Data.List.Count
import Reversible.Proofs.Graph.Grammar
import Reversible.Proofs.Occupancy.Routes
import Reversible.Proofs.Verify.Findings

/-! # Which conflicts are reported

A variable is reported in conflict if its conflict is entered: some block with a conflicting leaf of
the variable is led to by the first block, or by a block that has no conflicting leaf of it. It is
then reported once, and the variables come in name order. A conflict that is not entered stays
unreported, which can happen only among blocks that the first block does not lead to.
-/

namespace Reversible

namespace OccupancySolution

def ConflictsAfter (s : OccupancySolution) (x : Name) (b : Nat) : Prop :=
  ∃ t, s.output? b = some t ∧ ∃ k ∈ Layout.leavesAt t (.ofVariable x), t.Conflicts k

theorem any_output?_iff {s : OccupancySolution} {x : Name} {b : Nat} :
    ((s.output? b).any fun t => (Layout.leavesAt t (.ofVariable x)).any fun k =>
      t.values[k]?.any (·.isConflict)) ↔ s.ConflictsAfter x b := by
  simp only [Option.any_eq_true, List.any_eq_true]
  rfl

instance (s : OccupancySolution) (x : Name) (b : Nat) : Decidable (s.ConflictsAfter x b) :=
  decidable_of_iff _ any_output?_iff

theorem conflictFinding_injective : Function.Injective conflictFinding := by
  intro x y h
  simpa [conflictFinding, OccupancyFault.diagnostic, Diagnostic.finding] using h

end OccupancySolution

namespace Routine

open OccupancySolution (conflictFinding conflictFinding_injective)

variable {r : Routine} {env : Environment} {l : Layout Ty} {p : OccupancyProblem}
  {ins outs : Nat → Snapshot} {b : Nat} {x : Name}

def conflictDiagnostics (r : Routine) (s : OccupancySolution) : List Diagnostic :=
  (OccupancySolution.conflicts (.ofRoutine r) s (.ofRoutine r)).map (·.diagnostic)

/-- A block with a conflict of `x` is led to by the first block, or by a block without one. -/
def EntersConflict (r : Routine) (s : OccupancySolution) (x : Name) : Prop :=
  ∃ c b, r.LeadsTo c b ∧ s.ConflictsAfter x b ∧ (c = 0 ∨ ¬ s.ConflictsAfter x c)

/-- Something arises if and only if some block that has it is led to by the first one or by a block
that does not have it. -/
theorem arises_iff_exists_leadsTo (hg : ControlGraph.faults r = []) {P : Nat → Prop} :
    (ControlGraph.ofRoutine r).Arises P ↔ ∃ c b, r.LeadsTo c b ∧ P b ∧ (c = 0 ∨ ¬ P c) := by
  constructor
  · rintro ⟨b, hids, hb, hall | ⟨c, hc, hno⟩⟩
    · rcases Nat.eq_zero_or_pos b with rfl | hpos
      · exact ⟨0, 0, .refl, hb, .inl rfl⟩
      · obtain ⟨c, hc⟩ := ControlGraph.exists_mem_predecessors hg hids hpos
        exact ⟨c, b, .single hc, hb, .inr (hall c hc)⟩
    · exact ⟨c, b, .single hc, hb, .inr hno⟩
  · rintro ⟨c, b, hcb, hb, hc⟩
    exact arises_of_leadsTo hg hcb hc hb

section Solution

variable (h : (r.problem l).Solves ins outs)
include h

/-- The paths to a variable's leaves find all of its leaves. -/
theorem conflicting_iff_conflictsAfter (hnames : l.names.Nodup) (hn : l.DistinctMembers) :
    OccupancySolution.Conflicting (r.problem l).solve ((outs 0).paths.filter (·.root == x)) b ↔
      OccupancySolution.ConflictsAfter (r.problem l).solve x b := by
  constructor
  · rintro ⟨t, ht, path, hpath, o, ho, hc⟩
    obtain rfl : path.root = x := by simpa using (List.mem_filter.mp hpath).2
    have hslot := Layout.slot_eq_ok_iff.mpr (Layout.leafAt_eq_ok_iff.mp ho)
    obtain ⟨k, hk, hv⟩ := (Layout.mem_values_slot hslot).mp (List.mem_singleton.mpr rfl)
    exact ⟨t, ht, k, Layout.leavesAt_subset_variable hk, o, hv, hc⟩
  · rintro ⟨t, ht, k, hk, o, ho, hc⟩
    obtain ⟨hb, rfl⟩ := h.of_output? ht
    have hs := (outs_hasCauses h hb).1
    have h0 : 0 ∈ (ControlGraph.ofRoutine r).ids := List.mem_range.mpr (ControlGraph.size_pos r)
    rw [Layout.leavesAt_congr hs] at hk
    obtain ⟨path, hpath⟩ := Layout.exists_leafAt_eq hnames hn (Layout.lt_of_mem_leavesAt hk)
    -- the path starts from `x`, since no leaf belongs to two variables
    have hroot : path.root = x := by
      refine Layout.variable_unique (Layout.leavesAt_subset_variable ?_) hk
      simp [Layout.leavesAt_of_leafAt hpath]
    refine ⟨outs b, h.output? hb, path, List.mem_filter.mpr ⟨?_, by simp [hroot]⟩, o,
      Layout.leafAt_eq_of_shape hs hpath ho, hc⟩
    exact Layout.mem_paths_of_shape (outs_hasCauses h h0).1 hpath

theorem mem_conflictNames_iff (hg : ControlGraph.faults r = []) (hnames : l.names.Nodup)
    (hn : l.DistinctMembers) :
    x ∈ OccupancySolution.conflictNames (.ofRoutine r) (r.problem l).solve (.ofRoutine r)
        (outs 0).paths ↔
      (∃ id ∈ Declarations.mentions r, id.name = x) ∧ r.EntersConflict (r.problem l).solve x := by
  rw [OccupancySolution.conflictNames, List.mem_filter, Declarations.mem_keys_sites_iff,
    OccupancySolution.isConflict_conflictOf_iff, arises_iff_exists_leadsTo hg]
  simp only [conflicting_iff_conflictsAfter h hnames hn, EntersConflict]

theorem entersConflict_iff (hall : ∀ b ∈ (ControlGraph.ofRoutine r).ids, r.LeadsTo 0 b) :
    r.EntersConflict (r.problem l).solve x ↔
      ∃ b, OccupancySolution.ConflictsAfter (r.problem l).solve x b := by
  constructor
  · rintro ⟨c, b, -, hb, -⟩
    exact ⟨b, hb⟩
  · rintro ⟨b, t, ht, hk⟩
    exact ⟨0, b, hall b (h.of_output? ht).1, ⟨t, ht, hk⟩, .inl rfl⟩

end Solution

/-- Each variable whose conflict is entered is reported once, and no other one. The variables come
in name order, and an unlimited queue takes as many diagnostics as there are conflicts. If the first
block leads to all blocks, these are the variables that have a conflict after some block. -/
theorem conflicts_reported_once (hg : ControlGraph.faults r = []) (hl : env.layout = .ok l)
    (hn : l.DistinctMembers) (hp : r.occupancyProblem env = .ok p) :
    (∀ x, (∃ id ∈ Declarations.mentions r, id.name = x) →
      (r.EntersConflict p.solve x →
        ((r.conflictDiagnostics p.solve).map (·.finding)).count (conflictFinding x) = 1) ∧
      (¬ r.EntersConflict p.solve x →
        ((r.conflictDiagnostics p.solve).map (·.finding)).count (conflictFinding x) = 0) ∧
      ((∀ b ∈ (ControlGraph.ofRoutine r).ids, r.LeadsTo 0 b) →
        (r.EntersConflict p.solve x ↔ ∃ b, OccupancySolution.ConflictsAfter p.solve x b))) ∧
    (∃ names : List Name, names.Pairwise (fun x y => compare x y = .lt) ∧
      (r.conflictDiagnostics p.solve).map (·.finding) = names.map conflictFinding) ∧
    ∀ q : Queue, q.config = .unlimited →
      (q.addAll (r.conflictDiagnostics p.solve)).kept = q.kept ++ r.conflictDiagnostics p.solve ∧
      (q.addAll (r.conflictDiagnostics p.solve)).errorCount = q.errorCount +
        (OccupancySolution.conflicts (.ofRoutine r) p.solve (.ofRoutine r)).length := by
  obtain ⟨l', hl', rfl⟩ := exists_layout_of_occupancyProblem hp
  obtain rfl := Except.ok.inj (hl.symm.trans hl')
  obtain ⟨ins, outs, h⟩ := r.exists_solves_problem l hg
  have hnames : l.names.Nodup := env.names_layout hl ▸ NameMap.nodup_keys _
  have h0 : 0 ∈ (ControlGraph.ofRoutine r).ids := List.mem_range.mpr (ControlGraph.size_pos r)
  have hmem := fun x => mem_conflictNames_iff (x := x) h hg hnames hn
  have hfound : (r.conflictDiagnostics (r.problem l).solve).map (·.finding) =
      (OccupancySolution.conflictNames (.ofRoutine r) (r.problem l).solve (.ofRoutine r)
        (outs 0).paths).map conflictFinding := by
    rw [conflictDiagnostics, List.map_map]
    exact OccupancySolution.map_finding_conflicts (h.output? h0)
  refine ⟨fun x hx => ?_, ⟨_, ?_, hfound⟩, fun q hq => ?_⟩
  · rw [hfound, List.count_map_of_injective _ _ conflictFinding_injective]
    refine ⟨fun he => ?_, fun he => ?_, entersConflict_iff h⟩
    · exact List.count_eq_one_of_mem ((NameMap.nodup_keys _).filter _) ((hmem x).mpr ⟨hx, he⟩)
    · exact List.count_eq_zero.mpr fun hxm => he ((hmem x).mp hxm).2
  · exact (List.pairwise_map.mpr (Declarations.ofRoutine r).sites.ascending).filter _
  · rw [Queue.addAll_of_unlimited hq]
    exact ⟨rfl, by simp [Queue.errorCount, conflictDiagnostics]⟩

end Routine

namespace Eddy

open Sample (span slot condition)

/-- The loop finalizes `x`, which is initialized before it. Two blocks that no other block leads to
initialize and finalize `y` by turns. -/
def routine : Routine where
  id := ⟨"eddy", span 0⟩
  inputs := []
  outputs := []
  body := [
    .assign (slot "x" 1) (.int 5 (span 2)) none (span 1),
    .jump .forward ⟨"enter", span 3⟩ (span 3),
    .branch .backward ⟨"enter", span 4⟩ ⟨"again", span 4⟩ (condition 4) (span 4),
    .assign (.int 5 (span 5)) (slot "x" 6) none (span 5),
    .branch .forward ⟨"again", span 7⟩ ⟨"leave", span 7⟩ (condition 7) (span 7),
    .branch .backward ⟨"fill", span 8⟩ ⟨"refill", span 8⟩ (condition 8) (span 8),
    .assign (slot "y" 9) (.int 5 (span 10)) none (span 9),
    .branch .forward ⟨"fill", span 11⟩ ⟨"drain", span 11⟩ (condition 11) (span 11),
    .branch .backward ⟨"drain", span 12⟩ ⟨"redrain", span 12⟩ (condition 12) (span 12),
    .assign (.int 5 (span 13)) (slot "y" 14) none (span 13),
    .branch .forward ⟨"refill", span 15⟩ ⟨"redrain", span 15⟩ (condition 15) (span 15),
    .jump .backward ⟨"leave", span 16⟩ (span 16)]
  span := span 0

def env : Environment where
  types := ∅
  vars := ((∅ : NameMap Ty).insert "x" .int).insert "y" .int

def layout : Layout Ty := .leaf "x" .int (.leaf "y" .int .nil)

theorem occupancyProblem_eq : routine.occupancyProblem env = .ok (routine.problem layout) :=
  (OccupancyProblem.build_eq_ok_iff (by decide +kernel)).mpr ⟨by decide +kernel, rfl⟩

theorem mem_of_leadsTo {c b : Nat} (h : routine.LeadsTo c b) (hb : b ∈ [2, 3]) : c ∈ [2, 3] := by
  have hpred : ∀ b ∈ [2, 3], (ControlGraph.ofRoutine routine).predecessors b ⊆ [2, 3] := by
    decide +kernel
  induction h with
  | refl => exact hb
  | tail _ hde ih => exact ih (hpred _ hb hde)

theorem not_entersConflict_y : ¬ routine.EntersConflict (routine.problem layout).solve "y" := by
  have hids : ∀ b ∈ (ControlGraph.ofRoutine routine).ids,
      OccupancySolution.ConflictsAfter (routine.problem layout).solve "y" b ↔ b ∈ [2, 3] := by
    decide +kernel
  rintro ⟨c, b, hcb, hb, hc⟩
  obtain ⟨ins, outs, h⟩ := routine.exists_solves_problem layout (by decide +kernel)
  obtain ⟨t, ht, -⟩ := id hb
  have hmem := mem_of_leadsTo hcb ((hids b (h.of_output? ht).1).mp hb)
  have hc0 : c ≠ 0 := by
    rintro rfl
    simp at hmem
  refine hc.elim hc0 fun hno => hno ((hids c ?_).mpr hmem)
  rcases List.mem_pair.mp hmem with rfl | rfl <;> decide +kernel

theorem conflicts_reported_once_eddy :
    ControlGraph.faults routine = [] ∧ env.layout = .ok layout ∧ layout.DistinctMembers ∧
      ∃ p, routine.occupancyProblem env = .ok p ∧
        ((routine.conflictDiagnostics p.solve).map (·.finding)).count
          (OccupancySolution.conflictFinding "x") = 1 ∧
        ((routine.conflictDiagnostics p.solve).map (·.finding)).count
          (OccupancySolution.conflictFinding "y") = 0 := by
  have hg : ControlGraph.faults routine = [] := by decide +kernel
  have hl : env.layout = .ok layout := by decide +kernel
  have hn : layout.DistinctMembers := trivial
  have hx : routine.EntersConflict (routine.problem layout).solve "x" :=
    ⟨0, 1, .single (by decide +kernel), by decide +kernel, .inl rfl⟩
  obtain ⟨hcount, -, -⟩ := Routine.conflicts_reported_once hg hl hn occupancyProblem_eq
  refine ⟨hg, hl, hn, _, occupancyProblem_eq, ?_, ?_⟩
  · exact (hcount "x" (by decide +kernel)).1 hx
  · exact (hcount "y" (by decide +kernel)).2.1 not_entersConflict_y

/-- The conflict of `y` is not reported. -/
theorem conflict_unreported :
    ControlGraph.faults routine = [] ∧ env.layout = .ok layout ∧ layout.DistinctMembers ∧
      ∃ p, routine.occupancyProblem env = .ok p ∧
        (∃ id ∈ Declarations.mentions routine, id.name = "y") ∧
        OccupancySolution.ConflictsAfter p.solve "y" 2 ∧
        OccupancySolution.conflictFinding "y" ∉
          (routine.conflictDiagnostics p.solve).map (·.finding) :=
  ⟨by decide +kernel, by decide +kernel, trivial, _, occupancyProblem_eq, by decide +kernel,
    by decide +kernel, by decide +kernel⟩

end Eddy

end Reversible
