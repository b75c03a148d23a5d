import Reversible.Proofs.Verify.Replay

/-! # Checking and transferring a block in step

What instructions do to slots is carried out twice: by the transfer of their block, which asks
nothing, and by the check of the block, which carries out an action only if nothing is wrong with
it. As long as the check reports nothing, both are in the same snapshot after each instruction, and
at the end of the block in the one that the solver has after it. This holds in every graph, also in
one with faults.
-/

namespace Reversible

namespace SlotAction

variable {s : Snapshot} {a : SlotAction} {acts : List SlotAction}

theorem foldl_apply_of_isReading (h : ∀ a ∈ acts, a.isReading) (s : Snapshot) :
    acts.foldl apply s = s := by
  induction acts with
  | nil => rfl
  | cons a acts ih =>
    obtain ⟨ha, hacts⟩ := List.forall_mem_cons.mp h
    cases a with
    | reading path span => exact ih hacts
    | _ => cases ha

theorem shape_applyChecked (s : Snapshot) (a : SlotAction) :
    Layout.shape (a.applyChecked s) = Layout.shape s := by
  unfold applyChecked
  split
  · exact shape_apply s a
  · rfl

theorem shape_replayed (s : Snapshot) (acts : List SlotAction) :
    Layout.shape (replayed s acts) = Layout.shape s := by
  induction acts generalizing s with
  | nil => rfl
  | cons a acts ih => exact (ih (a.applyChecked s)).trans (shape_applyChecked s a)

theorem replayed_concat_of_fault? (h : a.fault? (replayed s acts) ≠ none) :
    replayed s (acts ++ [a]) = replayed s acts := by
  obtain ⟨fault, hf⟩ := Option.ne_none_iff_exists'.mp h
  simp only [replayed, List.foldl_append, List.foldl_cons, List.foldl_nil, applyChecked] at hf ⊢
  simp only [hf]

end SlotAction

namespace Snapshot

variable {s : Snapshot} {done rest : List Instruction}

/-- The snapshot that the transfer of a block has come to after some instructions: each of them
finalizes what it destroys and then initializes what it creates. -/
def transferred (s : Snapshot) (done : List Instruction) : Snapshot :=
  done.foldl (fun s i => i.initializations.foldl SlotAction.apply
    (i.finalizations.foldl SlotAction.apply s)) s

def checked (s : Snapshot) (done : List Instruction) : Snapshot :=
  SlotAction.replayed s (done.flatMap Instruction.actions)

theorem foldl_apply_actions (s : Snapshot) (i : Instruction) :
    i.actions.foldl SlotAction.apply s =
      i.initializations.foldl SlotAction.apply (i.finalizations.foldl SlotAction.apply s) := by
  simp only [Instruction.actions, List.foldl_append,
    SlotAction.foldl_apply_of_isReading fun _ => Instruction.isReading_of_mem_followed,
    SlotAction.foldl_apply_of_isReading fun _ => Instruction.isReading_of_mem_reads]

theorem transferred_eq_foldl_apply (s : Snapshot) (done : List Instruction) :
    s.transferred done = (done.flatMap Instruction.actions).foldl SlotAction.apply s := by
  simp only [transferred, List.foldl_flatMap, foldl_apply_actions]

theorem checked_eq_transferred
    (h : SlotAction.replay s ((done ++ rest).flatMap Instruction.actions) = []) :
    s.checked done = s.transferred done := by
  rw [List.flatMap_append] at h
  rw [checked, transferred_eq_foldl_apply, SlotAction.replayed_eq (SlotAction.replay_prefix h).1]

end Snapshot

namespace OccupancyProblem

variable {g : ControlGraph} {env : Environment} {inputs : List Ident} {p : OccupancyProblem}
  {b : Nat}

theorem transfer_eq_transferred (p : OccupancyProblem) (s : Snapshot) (b : Nat) :
    p.transfer s b = s.transferred (p.graph.instructions b) :=
  (s.transferred_eq_foldl_apply _).symm

/-- Whatever the graph, the solver has snapshots of the layout before and after each block, and the
one after a block is transferred from the one before it. -/
theorem exists_solve_eq (g : ControlGraph) (l : Layout Ty) (inputs : List Ident) (hb : b ∈ g.ids) :
    ∃ s, (ofLayout g l inputs).solve.input? b = some s ∧ Layout.shape s = l.shape ∧
      (ofLayout g l inputs).solve.output? b = some (s.transferred (g.instructions b)) := by
  obtain ⟨hr, hok⟩ := (closed_admits g l inputs).solve (ofLayout g l inputs).height
  obtain ⟨c, hc⟩ := FlowState.exists_cell?_of_mem (hr.mem_nodes_iff.mpr hb)
  have hi := FlowState.input?_of_cell? hc
  have ho := FlowState.output?_of_cell? hc
  have heq := (ofLayout g l inputs).flow.transferred_solve _ b _ _ List.not_mem_nil hi ho
  refine ⟨c.input, hi, (shape_of_admits ((hok b _).1 hi)).symm, ho.trans ?_⟩
  exact congrArg some (heq.trans (transfer_eq_transferred _ _ _))

/-- As long as the check of a block reports nothing, it goes through the snapshots of the transfer
and ends in the one that the solver has after the block. Whatever it reports, it keeps to the
layout, and an action that it reports leaves every leaf as it is. -/
theorem check_agrees_transfer (hp : build g env inputs = .ok p) (config : QueueConfig)
    (hb : b ∈ g.ids) :
    ∃ l s t, env.layout = .ok l ∧ p.solve.input? b = some s ∧ p.solve.output? b = some t ∧
      ((Queue.ofList config ((SlotAction.replay s (p.actions b)).map (·.diagnostic))).flushed = [] →
        (∀ done rest, g.instructions b = done ++ rest → s.checked done = s.transferred done) ∧
        s.checked (g.instructions b) = t) ∧
      (∀ done rest, p.actions b = done ++ rest →
        Layout.shape (SlotAction.replayed s done) = l.shape) ∧
      ∀ done a rest, p.actions b = done ++ a :: rest →
        a.fault? (SlotAction.replayed s done) ≠ none →
        SlotAction.replayed s (done ++ [a]) = SlotAction.replayed s done := by
  obtain ⟨l, hl, rfl⟩ := exists_layout_of_build hp
  obtain ⟨s, hi, hs, ho⟩ := exists_solve_eq g l inputs hb
  refine ⟨l, s, _, hl, hi, ho, fun hsilent => ?_, fun done _ _ => ?_, fun done a _ _ => ?_⟩
  · have hreplay : SlotAction.replay s ((g.instructions b).flatMap Instruction.actions) = [] :=
      List.map_eq_nil_iff.mp (Queue.flushed_ofList_eq_nil_iff.mp hsilent)
    constructor
    · intro done rest hsplit
      rw [hsplit] at hreplay
      exact Snapshot.checked_eq_transferred hreplay
    · rw [← List.append_nil (g.instructions b)] at hreplay
      exact Snapshot.checked_eq_transferred hreplay
  · exact (SlotAction.shape_replayed s done).trans hs
  · exact SlotAction.replayed_concat_of_fault?

end OccupancyProblem

namespace Loose

open Carry (env layout)
open Sample (span)

/-- The loop that carries a pair around, without the block that it is left for. -/
def routine : Routine := { Carry.routine with body := Carry.routine.body.take 6 }

def problem : OccupancyProblem := .ofLayout (.ofRoutine routine) layout [⟨"p", span 1⟩]

theorem check_agrees_transfer_loose :
    ControlGraph.faults routine ≠ [] ∧
      OccupancyProblem.build (.ofRoutine routine) env [⟨"p", span 1⟩] = .ok problem ∧
      1 ∈ (ControlGraph.ofRoutine routine).ids ∧
      ∃ s t, problem.solve.input? 1 = some s ∧ problem.solve.output? 1 = some t ∧ s ≠ t ∧
        s.checked ((ControlGraph.ofRoutine routine).instructions 1) = t := by
  have hp : OccupancyProblem.build (.ofRoutine routine) env [⟨"p", span 1⟩] = .ok problem :=
    (OccupancyProblem.build_eq_ok_iff (by decide +kernel)).mpr ⟨by decide +kernel, rfl⟩
  have hb : 1 ∈ (ControlGraph.ofRoutine routine).ids := by decide +kernel
  have hmoved : problem.solve.input? 1 ≠ problem.solve.output? 1 := by decide +kernel
  have hsilent : (problem.solve.input? 1).map (SlotAction.replay · (problem.actions 1)) =
      some [] := by
    decide +kernel
  obtain ⟨l, s, t, -, hi, ho, hagree, -⟩ :=
    OccupancyProblem.check_agrees_transfer hp .standard hb
  rw [hi, ho] at hmoved
  rw [hi, Option.map_some, Option.some.injEq] at hsilent
  refine ⟨by decide +kernel, hp, hb, s, t, hi, ho, fun heq => hmoved (congrArg some heq), ?_⟩
  exact (hagree (by rw [hsilent]; rfl)).2

end Loose

end Reversible
