import Reversible.Proofs.Marks.Balance
import Reversible.Proofs.Occupancy.Lattice
import Reversible.Proofs.Occupancy.Splitting
import Reversible.Proofs.Verify.Replay

/-! # Splitting a block and what is found

A routine with a split block is accepted if and only if the original one is. The findings are the
same up to the place of the split. After it they can differ: a replay does not carry out an action
that has a fault, while the solver does, and the second half is replayed from the snapshot of the
solver. So if nothing is found in the first half, all findings are the same.
-/

namespace Reversible

open ControlGraph (firstPart lastPart)

theorem Instruction.memoryFindings_jump (direction : Direction) (label : Ident) (span : Span)
    (types : TypeTable) (l : Layout Ty) :
    (jump direction label span).memoryFindings ⟨types, l.map MarkTable.slotTree⟩ = [] := by
  refine List.map_eq_nil_iff.mpr (InstructionMarks.check_faults_eq_nil_iff.mpr ?_)
  exact ⟨rfl, rfl, MarkTable.difference_blank types l _, MarkTable.difference_blank types l _⟩

namespace Snapshot

theorem disagrees_foldl_apply_iff {σ : Snapshot} {leaves : List ResourcePath}
    (acts : List SlotAction) :
    Disagrees (acts.foldl SlotAction.apply σ) leaves ↔ σ.Disagrees leaves :=
  disagrees_congr (σ.map_isConflict_foldl_apply acts) leaves

end Snapshot

theorem SlotAction.findings_append (σ : Snapshot) (acts acts' : List SlotAction) :
    findings σ (acts ++ acts') = findings σ acts ++ findings (replayed σ acts) acts' := by
  rw [findings, replay_append, List.map_append]
  rfl

/-- Two lists of findings agree up to the actions `acts` from a snapshot, in which something is
found, and after the actions `acts'` that follow. The first list has the findings of `acts'` from
the snapshot that a replay of `acts` comes to, and the second those from the snapshot that all
of `acts` lead to. -/
def SlotAction.Diverge (σ : Snapshot) (acts acts' : List SlotAction) (fs fs' : List Finding) :
    Prop :=
  findings σ acts ≠ [] ∧ ∃ early late,
    fs = early ++ findings σ acts ++ findings (replayed σ acts) acts' ++ late ∧
    fs' = early ++ findings σ acts ++ findings (acts.foldl apply σ) acts' ++ late

theorem SlotAction.Diverge.ne_nil {σ : Snapshot} {acts acts' : List SlotAction}
    {fs fs' : List Finding} (h : Diverge σ acts acts' fs fs') : fs ≠ [] ∧ fs' ≠ [] := by
  obtain ⟨hne, early, late, rfl, rfl⟩ := h
  simp [hne]

namespace Routine

variable {r : Routine} {env : Environment} {l : Layout Ty} {i : Nat} {x y : Ident}
  {u v : List Instruction} {pre post : List (List Instruction)}
  {ins outs ins' outs' : Nat → Snapshot}

theorem body_flatMap_split {α : Type} {f : Instruction → List α}
    (hf : ∀ direction label span, f (.jump direction label span) = []) (s t : Span) :
    (r.split i x y s t).body.flatMap f = r.body.flatMap f := by
  rw [split, List.flatMap_append, List.flatMap_cons, List.flatMap_cons, hf, hf, List.nil_append,
    List.nil_append, ← List.flatMap_append, List.take_append_drop]

theorem alike_split (s t : Span) : Declarations.Alike r (r.split i x y s t) where
  inputs := rfl
  outputs := rfl
  mentions name := by
    have hmentions : Declarations.mentions (r.split i x y s t) = Declarations.mentions r := by
      rw [Declarations.mentions, body_flatMap_split fun _ _ _ => rfl]
      rfl
    rw [hmentions]

section Split

variable (hg : ControlGraph.faults r = []) (h : r.Splits i x y)
  (hp : Block.Parts r.body i pre post u v) (s t : Span)
include hg h hp

/-- What holds of both halves if and only if it holds of the block arises in neither routine or in
both. -/
theorem arises_split_iff {C C' : Nat → Prop}
    (hC : ∀ d ∈ (ControlGraph.ofRoutine r).ids,
      (C' (firstPart pre.length d) ↔ C d) ∧ (C' (lastPart pre.length d) ↔ C d)) :
    (ControlGraph.ofRoutine (r.split i x y s t)).Arises C' ↔
      (ControlGraph.ofRoutine r).Arises C := by
  have hpred (d : Nat) := ControlGraph.origin_congr
    (ControlGraph.predecessors_firstPart hg h hp s t d) fun c hc => (hC c hc).2
  have hwhole := hC _ (ControlGraph.length_mem_ids hp)
  rw [ControlGraph.firstPart_self, ControlGraph.lastPart_self] at hwhole
  constructor
  · rintro ⟨e, he, hCe, horigin⟩
    rcases ControlGraph.eq_or_firstPart_whole pre.length e with rfl | heq
    · -- the second half has what its only predecessor has
      rw [ControlGraph.predecessors_secondHalf hg h hp] at horigin
      simp only [List.mem_singleton, forall_eq, exists_eq_left, or_self] at horigin
      exact (horigin (hwhole.1.mpr (hwhole.2.mp hCe))).elim
    · rw [← heq] at he hCe horigin
      have hd := (ControlGraph.firstPart_mem_ids_iff hg h hp s t).mp he
      exact ⟨_, hd, (hC _ hd).1.mp hCe, (hpred _).mp horigin⟩
  · rintro ⟨d, hd, hCd, horigin⟩
    exact ⟨firstPart pre.length d, (ControlGraph.firstPart_mem_ids_iff hg h hp s t).mpr hd,
      (hC d hd).1.mpr hCd, (hpred d).mpr horigin⟩

theorem conflictNames_split (l : Layout Ty) :
    (r.split i x y s t).conflictNames l = r.conflictNames l := by
  have hg' := (ControlGraph.runsOf_split hg h hp s t).2
  obtain ⟨ins, outs, hs⟩ := r.exists_solves_problem l hg
  obtain ⟨ins', outs', hs'⟩ := (r.split i x y s t).exists_solves_problem l hg'
  obtain ⟨hparts, hmid, -⟩ := solution_split hg h hp s t hs hs'
  refine conflictNames_congr (alike_split s t) hs hs' fun leaves => ?_
  refine arises_split_iff hg h hp s t fun d hd => ⟨?_, by rw [(hparts d hd).2]⟩
  by_cases hne : d = pre.length
  · subst hne
    rw [ControlGraph.firstPart_self, hmid, Snapshot.disagrees_foldl_apply_iff,
      (hs.satisfies _ hd).2, OccupancyProblem.transfer, Snapshot.disagrees_foldl_apply_iff]
  · rw [← ControlGraph.lastPart_of_ne hne, (hparts d hd).2]

theorem solve_split (l : Layout Ty) :
    (∀ d, ((r.split i x y s t).problem l).solve.input? (firstPart pre.length d) =
        (r.problem l).solve.input? d ∧
      ((r.split i x y s t).problem l).solve.output? (lastPart pre.length d) =
        (r.problem l).solve.output? d) ∧
    ((r.split i x y s t).problem l).solve.output? pre.length =
      ((r.problem l).solve.input? pre.length).map
        ((u.flatMap Instruction.actions).foldl SlotAction.apply) ∧
    ((r.split i x y s t).problem l).solve.input? (pre.length + 1) =
      ((r.problem l).solve.input? pre.length).map
        ((u.flatMap Instruction.actions).foldl SlotAction.apply) := by
  obtain ⟨ins, outs, hs⟩ := r.exists_solves_problem l hg
  obtain ⟨ins', outs', hs'⟩ := (r.split i x y s t).exists_solves_problem l
    (ControlGraph.runsOf_split hg h hp s t).2
  obtain ⟨hparts, hmid, hnext⟩ := solution_split hg h hp s t hs hs'
  have hwhole : (r.problem l).solve.input? pre.length = some (ins pre.length) :=
    hs.input? (ControlGraph.length_mem_ids hp)
  have hfirst := (ControlGraph.firstPart_mem_ids_iff hg h hp s t).mpr
    (ControlGraph.length_mem_ids hp)
  have hsecond := (ControlGraph.lastPart_mem_ids_iff hg h hp s t).mpr
    (ControlGraph.length_mem_ids hp)
  rw [ControlGraph.firstPart_self] at hfirst
  rw [ControlGraph.lastPart_self] at hsecond
  refine ⟨fun d => ?_, ?_, ?_⟩
  · exact ⟨hs.input?_congr hs' (ControlGraph.firstPart_mem_ids_iff hg h hp s t)
        fun hd => (hparts d hd).1,
      hs.output?_congr hs' (ControlGraph.lastPart_mem_ids_iff hg h hp s t)
        fun hd => (hparts d hd).2⟩
  · rw [hwhole, Option.map_some, ← hmid]
    exact hs'.output? hfirst
  · rw [hwhole, Option.map_some, ← hmid, ← hnext]
    exact hs'.input? hsecond

/-- The findings of the blocks, in three parts: before the place of the split, in the second half,
and after it. The two routines share the first part and the last one. -/
theorem findings_blocks_split (hs : (r.problem l).Solves ins outs)
    (hs' : ((r.split i x y s t).problem l).Solves ins' outs') :
    ∃ early late,
      ((ControlGraph.ofRoutine r).ids.flatMap fun b =>
        SlotAction.findings (ins b) ((r.problem l).actions b)) =
        early ++ SlotAction.findings (ins pre.length) (u.flatMap Instruction.actions) ++
          SlotAction.findings (SlotAction.replayed (ins pre.length) (u.flatMap Instruction.actions))
            (v.flatMap Instruction.actions) ++ late ∧
      ((ControlGraph.ofRoutine (r.split i x y s t)).ids.flatMap fun b =>
        SlotAction.findings (ins' b) (((r.split i x y s t).problem l).actions b)) =
        early ++ SlotAction.findings (ins pre.length) (u.flatMap Instruction.actions) ++
          SlotAction.findings
            ((u.flatMap Instruction.actions).foldl SlotAction.apply (ins pre.length))
            (v.flatMap Instruction.actions) ++ late := by
  obtain ⟨hparts, hmid, hnext⟩ := solution_split hg h hp s t hs hs'
  obtain ⟨low, high, hids, hne, hids'⟩ := ControlGraph.ids_split hg h hp s t
  have hother : ∀ d ∈ low ++ high,
      SlotAction.findings (ins' (firstPart pre.length d))
          (((r.split i x y s t).problem l).actions (firstPart pre.length d)) =
        SlotAction.findings (ins d) ((r.problem l).actions d) := by
    intro d hd
    have hmem : d ∈ (r.problem l).graph.ids := by
      change d ∈ (ControlGraph.ofRoutine r).ids
      rw [hids]
      simp only [List.mem_append, List.mem_cons] at hd ⊢
      exact hd.imp_right .inr
    rw [(hparts d hmem).1, actions_split_of_ne hg h hp s t (hne d hd)]
  obtain ⟨hlow, hhigh⟩ := List.forall_mem_append.mp hother
  have hbefore := (hparts _ (ControlGraph.length_mem_ids hp)).1
  rw [ControlGraph.firstPart_self] at hbefore
  refine ⟨low.flatMap fun d => SlotAction.findings (ins d) ((r.problem l).actions d),
    high.flatMap fun d => SlotAction.findings (ins d) ((r.problem l).actions d), ?_, ?_⟩
  · rw [hids, List.flatMap_append, List.flatMap_cons, actions_whole hp, SlotAction.findings_append]
    simp only [List.append_assoc]
  · rw [hids', List.flatMap_append, List.flatMap_cons, List.flatMap_cons, List.flatMap_map,
      List.flatMap_map, List.flatMap_congr hlow, List.flatMap_congr hhigh, hbefore, hnext, hmid,
      actions_firstHalf hg h hp, actions_secondHalf hg h hp]
    simp only [List.append_assoc]

/-- What is found over a layout is the same, unless there is no conflict and something is found in
the first half. -/
theorem layoutFindings_split (env : Environment) (l : Layout Ty) :
    (r.split i x y s t).layoutFindings env l = r.layoutFindings env l ∨
      ∃ σ, r.conflictNames l = [] ∧ (r.problem l).solve.input? pre.length = some σ ∧
        SlotAction.Diverge σ (u.flatMap Instruction.actions) (v.flatMap Instruction.actions)
          (r.layoutFindings env l) ((r.split i x y s t).layoutFindings env l) := by
  have hg' := (ControlGraph.runsOf_split hg h hp s t).2
  obtain ⟨ins, outs, hs⟩ := r.exists_solves_problem l hg
  obtain ⟨ins', outs', hs'⟩ := (r.split i x y s t).exists_solves_problem l hg'
  have hlast : outs' (ControlGraph.ofRoutine (r.split i x y s t)).last =
      outs (ControlGraph.ofRoutine r).last := by
    rw [ControlGraph.last_split hg h hp]
    exact ((solution_split hg h hp s t hs hs').1 _ (last_mem_ids r)).2
  have hbody : (r.split i x y s t).body.flatMap
        (·.memoryFindings ⟨env.types, l.map MarkTable.slotTree⟩) =
      r.body.flatMap (·.memoryFindings ⟨env.types, l.map MarkTable.slotTree⟩) :=
    body_flatMap_split (fun direction label span =>
      Instruction.memoryFindings_jump direction label span env.types l) s t
  rw [layoutFindings, layoutFindings, hbody, map_finding_solve hs, map_finding_solve hs',
    conflictNames_split hg h hp s t, hlast,
    OccupancySolution.endFindings_congr (alike_split s t).symm]
  by_cases hc : r.conflictNames l = []
  · rw [if_pos hc, if_pos hc]
    obtain ⟨early, late, heq, heq'⟩ := findings_blocks_split hg h hp s t hs hs'
    rw [heq, heq']
    by_cases hfirst : SlotAction.findings (ins pre.length) (u.flatMap Instruction.actions) = []
    · -- a replay that finds nothing comes to where the actions lead
      rw [SlotAction.replayed_eq (List.map_eq_nil_iff.mp hfirst)]
      exact .inl rfl
    · have hin : (r.problem l).solve.input? pre.length = some (ins pre.length) :=
        hs.input? (ControlGraph.length_mem_ids hp)
      refine .inr ⟨ins pre.length, hc, hin, hfirst, early, late ++
        (OccupancySolution.endFindings (outs (ControlGraph.ofRoutine r).last) (.ofRoutine r) ++
          r.body.flatMap (·.memoryFindings ⟨env.types, l.map MarkTable.slotTree⟩)), ?_, ?_⟩
      · simp only [List.append_assoc]
      · simp only [List.append_assoc]
  · rw [if_neg hc, if_neg hc]
    exact .inl rfl

end Split

/-- Splitting a block gives a graph without faults again, in which the block has become two. The
blocks keep their snapshots, and the two halves meet in the snapshot that the actions of the first
half lead to. Without a limit, the findings are the same unless something is found in the first
half; then only those of the second half can differ. Either both routines are accepted or none. -/
theorem verify_split (env : Environment) (hg : ControlGraph.faults r = []) (h : r.Splits i x y)
    (s t : Span) :
    ∃ pre post u v, Block.Parts r.body i pre post u v ∧
      ControlGraph.faults (r.split i x y s t) = [] ∧
      Block.runsOf (r.split i x y s t).body =
        pre ++ (u ++ [.jump .forward x s]) :: (.jump .backward y t :: v) :: post ∧
      (∀ d, ((r.split i x y s t).occupancyProblem env).map
          (·.solve.input? (firstPart pre.length d)) =
        (r.occupancyProblem env).map (·.solve.input? d)) ∧
      (∀ d, ((r.split i x y s t).occupancyProblem env).map
          (·.solve.output? (lastPart pre.length d)) =
        (r.occupancyProblem env).map (·.solve.output? d)) ∧
      ((r.split i x y s t).occupancyProblem env).map (·.solve.output? pre.length) =
        (r.occupancyProblem env).map (fun p => (p.solve.input? pre.length).map
          ((u.flatMap Instruction.actions).foldl SlotAction.apply)) ∧
      ((r.split i x y s t).occupancyProblem env).map (·.solve.input? (pre.length + 1)) =
        (r.occupancyProblem env).map (fun p => (p.solve.input? pre.length).map
          ((u.flatMap Instruction.actions).foldl SlotAction.apply)) ∧
      (((r.split i x y s t).verify env .unlimited).findings = (r.verify env .unlimited).findings ∨
        ∃ l σ, env.layout = .ok l ∧ Declarations.faults r env = [] ∧ r.conflictNames l = [] ∧
          (r.problem l).solve.input? pre.length = some σ ∧
          SlotAction.Diverge σ (u.flatMap Instruction.actions) (v.flatMap Instruction.actions)
            (r.verify env .unlimited).findings
            ((r.split i x y s t).verify env .unlimited).findings) ∧
      ((r.split i x y s t).verify env .unlimited).isAccepted =
        (r.verify env .unlimited).isAccepted := by
  obtain ⟨hgram, hflat⟩ := ControlGraph.faults_eq_nil_iff.mp hg
  obtain ⟨pre, post, u, v, hp⟩ := Block.exists_parts hgram.ne_nil hflat i
  obtain ⟨hruns, hg'⟩ := ControlGraph.runsOf_split hg h hp s t
  have hfindings := findings_rel (R := fun fs' fs => fs' = fs ∨ ∃ l σ, env.layout = .ok l ∧
    Declarations.faults r env = [] ∧ r.conflictNames l = [] ∧
    (r.problem l).solve.input? pre.length = some σ ∧
    SlotAction.Diverge σ (u.flatMap Instruction.actions) (v.flatMap Instruction.actions) fs fs')
    (fun _ => .inl rfl) (alike_split s t) hg hg' fun l hl hd =>
      (layoutFindings_split hg h hp s t env l).imp_right fun ⟨σ, hc, hin, hdiv⟩ =>
        ⟨l, σ, hl, hd, hc, hin, hdiv⟩
  have hinputs : (r.split i x y s t).inputs = r.inputs := rfl
  have hsolve := solve_split hg h hp s t
  refine ⟨pre, post, u, v, hp, hg', hruns, fun d => ?_, fun d => ?_, ?_, ?_, hfindings, ?_⟩
  · refine map_occupancyProblem_congr hinputs (fun l => ?_) env
    exact ((hsolve l).1 d).1
  · refine map_occupancyProblem_congr hinputs (fun l => ?_) env
    exact ((hsolve l).1 d).2
  · refine map_occupancyProblem_congr hinputs (fun l => ?_) env
    exact (hsolve l).2.1
  · refine map_occupancyProblem_congr hinputs (fun l => ?_) env
    exact (hsolve l).2.2
  · rw [RoutineReport.isAccepted_eq, RoutineReport.isAccepted_eq]
    rcases hfindings with heq | ⟨l, σ, -, -, -, -, hdiv⟩
    · rw [heq]
    · rw [List.isEmpty_eq_false_iff.mpr hdiv.ne_nil.1, List.isEmpty_eq_false_iff.mpr hdiv.ne_nil.2]

end Routine

namespace Seam

open Sample (span drop)

/-- A routine that empties `x` twice and never fills it. -/
def routine : Routine where
  id := ⟨"seam", span 0⟩
  inputs := []
  outputs := []
  body := [drop "x" 1, drop "x" 2]
  span := span 0

def env : Environment where
  types := ∅
  vars := (∅ : NameMap Ty).insert "x" .int

def split : Routine := routine.split 1 ⟨"mid", span 3⟩ ⟨"mid", span 4⟩ (span 3) (span 4)

theorem splits : routine.Splits 1 ⟨"mid", span 3⟩ ⟨"mid", span 4⟩ where
  name_eq := rfl
  fresh := by decide
  not_exit := by simp [routine, drop, Instruction.isExitPoint, Instruction.controlDirection]
  not_entry := by simp [routine, drop, Instruction.isEntryPoint, Instruction.controlDirection]

theorem faults_routine : ControlGraph.faults routine = [] := by decide +kernel

/-- Without the jump the second action finds `x` as the first one has found it, and with the jump
it finds `x` emptied. -/
theorem messages : (routine.verify env .unlimited).findings.map (·.2) =
      ["cannot finalize `x` as it has not been initialized",
        "cannot finalize `x` as it has not been initialized"] ∧
    (split.verify env .unlimited).findings.map (·.2) =
      ["cannot finalize `x` as it has not been initialized",
        "cannot finalize `x` as it has already been finalized"] := by
  decide +kernel

theorem findings_ne :
    (split.verify env .unlimited).findings ≠ (routine.verify env .unlimited).findings := by
  intro heq
  have hmessages := messages.2
  rw [heq, messages.1] at hmessages
  exact absurd hmessages (by decide)

/-- Splitting a block can change what is found in the second half. -/
theorem split_visible : ControlGraph.faults routine = [] ∧
    routine.Splits 1 ⟨"mid", span 3⟩ ⟨"mid", span 4⟩ ∧
    (split.verify env .unlimited).findings ≠ (routine.verify env .unlimited).findings :=
  ⟨faults_routine, splits, findings_ne⟩

/-- The two routines differ as they have to: something is found in the first half. -/
theorem verify_split_seam : ControlGraph.faults routine = [] ∧
    routine.Splits 1 ⟨"mid", span 3⟩ ⟨"mid", span 4⟩ ∧ ControlGraph.faults split = [] ∧
    (split.verify env .unlimited).isAccepted = (routine.verify env .unlimited).isAccepted ∧
    ∃ σ acts acts', SlotAction.Diverge σ acts acts' (routine.verify env .unlimited).findings
      (split.verify env .unlimited).findings := by
  obtain ⟨pre, post, u, v, -, hg', -, -, -, -, -, hfindings, haccepted⟩ :=
    Routine.verify_split env faults_routine splits (span 3) (span 4)
  refine ⟨faults_routine, splits, hg', haccepted, ?_⟩
  obtain ⟨l, σ, -, -, -, -, hdiverge⟩ := hfindings.resolve_left findings_ne
  exact ⟨σ, _, _, hdiverge⟩

end Seam

end Reversible
