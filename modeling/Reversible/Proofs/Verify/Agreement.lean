import Reversible.Proofs.Occupancy.Checks

/-! # Agreement of walks

In a routine that is accepted, two walks to one block agree on whether a leaf is initialized, as
long as both operate on the leaf and it has a path of its own. Both conditions are needed. A walk
that leaves a leaf alone says nothing about it, and a leaf whose path leads to an earlier leaf of
the same name is never looked at for conflicts.
-/

namespace Reversible

namespace Routine

variable {r : Routine} {env : Environment} {config : QueueConfig} {l : Layout Ty}
  {bs bs₁ bs₂ : List Nat} {b k : Nat} {path : ResourcePath}

theorem exists_mention_of_history (h : r.history l bs k ≠ []) :
    ∃ x, (∃ id ∈ Declarations.mentions r, id.name = x) ∧ k ∈ l.leavesAt (.ofVariable x) := by
  have hbody : ∀ i ∈ r.body, ∀ e, e ∈ i.created ∨ e ∈ i.destroyed → ∀ p ∈ e.resourcePaths,
      k ∈ l.leavesAt p →
      ∃ x, (∃ id ∈ Declarations.mentions r, id.name = x) ∧ k ∈ l.leavesAt (.ofVariable x) :=
    fun i hi e he p hp hk =>
      ⟨p.root, Declarations.exists_mention_of_mem_body hi he hp, Layout.leavesAt_subset_variable hk⟩
  obtain ⟨op, hop⟩ := List.exists_mem_of_ne_nil _ h
  rcases List.mem_append.mp hop with hop | hop
  · rw [arrival] at hop
    split at hop
    · next ha =>
      obtain ⟨q, hq, hk⟩ := ha
      exact ⟨q.id.name, Declarations.exists_mention_of_mem_params (.inl hq), hk⟩
    · cases hop
  · obtain ⟨c, -, hop⟩ := List.mem_flatMap.mp hop
    obtain ⟨i, hi, hop⟩ := List.mem_flatMap.mp hop
    have hi := ControlGraph.mem_body_of_mem_instructions hi
    rcases List.mem_append.mp hop with hop | hop
    · obtain ⟨p, hp, hop⟩ := List.mem_filterMap.mp hop
      obtain ⟨e, he, hp⟩ := List.mem_flatMap.mp hp
      exact hbody i hi e (.inr he) p hp (by simpa using (Option.ite_none_right_eq_some.mp hop).1)
    · obtain ⟨p, hp, hop⟩ := List.mem_filterMap.mp hop
      obtain ⟨e, he, hp⟩ := List.mem_flatMap.mp hp
      exact hbody i hi e (.inl he) p hp (by simpa using (Option.ite_none_right_eq_some.mp hop).1)

theorem exists_mention_of_leafAt (hk : (l.numberFrom 0).leafAt path = .ok k)
    (h : r.history l bs k ≠ []) :
    ∃ id ∈ Declarations.mentions r, id.name = path.root := by
  obtain ⟨x, hx, hkx⟩ := exists_mention_of_history h
  have hroot : k ∈ l.leavesAt (.ofVariable path.root) := by
    apply Layout.leavesAt_subset_variable
    rw [Layout.leavesAt_of_leafAt hk]
    exact List.mem_singleton.mpr rfl
  rwa [Layout.variable_unique hkx hroot] at hx

/-- If nothing is reported for a routine, two walks to one block leave a leaf in the same state,
provided that both operate on it and that the leaf has a path of its own. -/
theorem history_agrees (h : (r.verify env config).diagnostics = []) (hl : env.layout = .ok l)
    (hw₁ : (ControlGraph.ofRoutine r).Walk bs₁ b) (hw₂ : (ControlGraph.ofRoutine r).Walk bs₂ b)
    (hk : (l.numberFrom 0).leafAt path = .ok k) (h₁ : r.history l bs₁ k ≠ [])
    (h₂ : r.history l bs₂ k ≠ []) :
    (r.history l bs₁ k).getLast? = some .initialization ↔
      (r.history l bs₂ k).getLast? = some .initialization := by
  obtain ⟨hd, hg, hocc, -⟩ := diagnostics_eq_nil_iff.mp h
  obtain ⟨hc, -, -⟩ := (occupancyPass_eq_nil_iff hl hd).mp hocc
  obtain ⟨ins, outs, hs⟩ := r.exists_solves_problem l hg
  have hno := not_conflict_of_walk hs hc hg hw₁ (exists_mention_of_leafAt hk h₁) hk
  have hcov₁ := covers_walk (k := k) hs hg hw₁
  have hcov₂ := covers_walk (k := k) hs hg hw₂
  constructor
  · intro hi
    refine (Operation.getLast?_of_ne_nil h₂).resolve_right fun hf => ?_
    exact hno ⟨hcov₁.1 hi, hcov₂.2 hf⟩
  · intro hi
    refine (Operation.getLast?_of_ne_nil h₁).resolve_right fun hf => ?_
    exact hno ⟨hcov₂.1 hi, hcov₁.2 hf⟩

end Routine

/-- Once around the loop or twice, the first member of the pair is back in its slot. -/
theorem Carry.history_agrees_carry :
    (Carry.routine.verify Carry.env .standard).diagnostics = [] ∧
      (Carry.layout.numberFrom 0).leafAt ⟨"p", ["x"]⟩ = .ok 0 ∧
      ((Carry.routine.history Carry.layout [0, 1] 0).getLast? = some .initialization ↔
        (Carry.routine.history Carry.layout [0, 1, 1] 0).getLast? = some .initialization) := by
  have h : (Carry.routine.verify Carry.env .standard).diagnostics = [] := by decide +kernel
  have hl : Carry.env.layout = .ok Carry.layout := by decide +kernel
  have hk : (Carry.layout.numberFrom 0).leafAt ⟨"p", ["x"]⟩ = .ok 0 := by decide +kernel
  have hw₁ : (ControlGraph.ofRoutine Carry.routine).Walk [0, 1] 1 :=
    ControlGraph.Walk.start.step (by decide +kernel)
  have hw₂ : (ControlGraph.ofRoutine Carry.routine).Walk [0, 1, 1] 1 :=
    hw₁.step (by decide +kernel)
  exact ⟨h, hk, Routine.history_agrees h hl hw₁ hw₂ hk (by decide +kernel) (by decide +kernel)⟩

namespace Split

open Sample (span slot condition)

/-- One branch initializes `t`, the other leaves it alone, and `t` is finalized where they have
joined. -/
def routine : Routine where
  id := ⟨"split", span 0⟩
  inputs := []
  outputs := []
  body := [
    .branch .forward ⟨"fill", span 1⟩ ⟨"skip", span 1⟩ (condition 1) (span 1),
    .jump .backward ⟨"fill", span 2⟩ (span 2),
    .assign (slot "t" 3) (.int 5 (span 4)) none (span 3),
    .jump .forward ⟨"filled", span 5⟩ (span 5),
    .jump .backward ⟨"skip", span 6⟩ (span 6),
    .jump .forward ⟨"skipped", span 7⟩ (span 7),
    .branch .backward ⟨"filled", span 8⟩ ⟨"skipped", span 8⟩ (condition 8) (span 8),
    .jump .forward ⟨"leave", span 9⟩ (span 9),
    .jump .backward ⟨"leave", span 10⟩ (span 10),
    .assign (.int 5 (span 11)) (slot "t" 12) none (span 11)]
  span := span 0

def env : Environment where
  types := ∅
  vars := (∅ : NameMap Ty).insert "t" .int

def layout : Layout Ty := .leaf "t" .int .nil

end Split

namespace Shadow

open Sample (span slot member condition)

/-- One branch finalizes all of `p`, the other only the first of its two members `x`. The blocks
that follow run in a loop for ever, and no walk comes to the end. -/
def routine : Routine where
  id := ⟨"shadow", span 0⟩
  inputs := [⟨⟨"p", span 1⟩, none, span 1⟩]
  outputs := []
  body := [
    .branch .forward ⟨"whole", span 2⟩ ⟨"part", span 2⟩ (condition 2) (span 2),
    .jump .backward ⟨"whole", span 3⟩ (span 3),
    .assignMany [] [slot "p" 4] (span 4),
    .jump .forward ⟨"wholly", span 5⟩ (span 5),
    .jump .backward ⟨"part", span 6⟩ (span 6),
    .assignMany [] [member "p" "x" 7] (span 7),
    .jump .forward ⟨"partly", span 8⟩ (span 8),
    .branch .backward ⟨"wholly", span 9⟩ ⟨"partly", span 9⟩ (condition 9) (span 9),
    .jump .forward ⟨"enter", span 10⟩ (span 10),
    .branch .backward ⟨"enter", span 11⟩ ⟨"again", span 11⟩ (condition 11) (span 11),
    .jump .forward ⟨"again", span 12⟩ (span 12),
    .jump .backward ⟨"apart", span 13⟩ (span 13),
    .branch .forward ⟨"apart", span 14⟩ ⟨"leave", span 14⟩ (condition 14) (span 14),
    .jump .backward ⟨"leave", span 15⟩ (span 15),
    .assignMany [slot "p" 16] [] (span 16),
    .assignMany [] [slot "p" 17] (span 17)]
  span := span 0

def env : Environment where
  types := ∅
  vars := (∅ : NameMap Ty).insert "p" (.record [("x", .int), ("x", .int)])

def layout : Layout Ty := .node "p" (.leaf "x" .int (.leaf "x" .int .nil)) .nil

end Shadow

/-- Without the two conditions walks to one block need not agree, though nothing is reported. A
walk may leave alone what another one initializes. And where two members of a variable share their
name, both walks may operate on the second one and leave it in different states. -/
theorem Routine.history_disagrees :
    ((Split.routine.verify Split.env .standard).diagnostics = [] ∧
      Split.env.layout = .ok Split.layout ∧
      (ControlGraph.ofRoutine Split.routine).Walk [0, 1, 3] 3 ∧
      (ControlGraph.ofRoutine Split.routine).Walk [0, 2, 3] 3 ∧
      (Split.layout.numberFrom 0).leafAt (.ofVariable "t") = .ok 0 ∧
      (Split.routine.history Split.layout [0, 1, 3] 0).getLast? = some .initialization ∧
      Split.routine.history Split.layout [0, 2, 3] 0 = []) ∧
    ((Shadow.routine.verify Shadow.env .standard).diagnostics = [] ∧
      Shadow.env.layout = .ok Shadow.layout ∧
      (ControlGraph.ofRoutine Shadow.routine).Walk [0, 2, 3] 3 ∧
      (ControlGraph.ofRoutine Shadow.routine).Walk [0, 1, 3] 3 ∧
      (Shadow.routine.history Shadow.layout [0, 2, 3] 1).getLast? = some .initialization ∧
      (Shadow.routine.history Shadow.layout [0, 1, 3] 1).getLast? = some .finalization) := by
  constructor
  · refine ⟨by decide +kernel, by decide +kernel, ?_, ?_, by decide +kernel, by decide +kernel,
      by decide +kernel⟩
    · exact (ControlGraph.Walk.start.step (c := 1) (by decide +kernel)).step (by decide +kernel)
    · exact (ControlGraph.Walk.start.step (c := 2) (by decide +kernel)).step (by decide +kernel)
  · refine ⟨by decide +kernel, by decide +kernel, ?_, ?_, by decide +kernel, by decide +kernel⟩
    · exact (ControlGraph.Walk.start.step (c := 2) (by decide +kernel)).step (by decide +kernel)
    · exact (ControlGraph.Walk.start.step (c := 1) (by decide +kernel)).step (by decide +kernel)

end Reversible
