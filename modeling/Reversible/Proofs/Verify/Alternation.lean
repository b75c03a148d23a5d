import Mathlib.Data.List.Chain
import Reversible.Proofs.Occupancy.Checks

/-! # Alternation

In a routine that is accepted, initializations and finalizations of a leaf alternate along every
walk. Where the walk ends with the routine, the leaves of outputs are left initialized and those of
all other declared variables finalized.
-/

namespace Reversible

namespace Snapshot

variable {l : Layout Ty} {k : Nat} {s : Snapshot} {a : SlotAction} {ops : List Operation}

theorem Covers.ne_of_fault? {op last : Operation} (hs : Layout.shape s = l.shape)
    (hc : s.HasCauses) (hcov : s.Covers k ops) (hf : a.fault? s = none)
    (ho : a.operationOn? l k = some op) (hlast : ops.getLast? = some last) : last ≠ op := by
  have hk : k ∈ Layout.leavesAt s a.path := by
    rw [Layout.leavesAt_congr hs]
    by_contra hk
    simp [SlotAction.operationOn?, hk] at ho
  rw [SlotAction.operationOn?, ← Layout.leavesAt_congr hs, if_pos hk] at ho
  have hfit := SlotAction.fits_of_fault? hc hk hf
  rintro rfl
  cases a with
  | finalizing path span =>
    cases ho
    exact hfit.2 k hk (hcov.2 hlast)
  | reading path span => cases ho
  | initializing path span =>
    cases ho
    exact hfit k hk (hcov.1 hlast)

/-- Actions that are allowed in turn keep the operations on a leaf alternating. -/
theorem Covers.isChain_of_replay {acts : List SlotAction} (hs : Layout.shape s = l.shape)
    (hc : s.HasCauses) (hcov : s.Covers k ops) (hchain : ops.IsChain (· ≠ ·))
    (hr : SlotAction.replay s acts = []) :
    (ops ++ acts.filterMap (SlotAction.operationOn? l k)).IsChain (· ≠ ·) := by
  induction acts generalizing s ops with
  | nil => simpa using hchain
  | cons a acts ih =>
    obtain ⟨hf, hr⟩ := SlotAction.replay_cons_eq_nil_iff.mp hr
    rw [SlotAction.filterMap_operationOn?_cons, ← List.append_assoc]
    refine ih (by rw [SlotAction.shape_apply, hs]) (SlotAction.hasCauses_apply a hc)
      (hcov.apply hs) ?_ hr
    cases ho : a.operationOn? l k with
    | none => simpa using hchain
    | some op =>
      refine hchain.append (List.isChain_singleton op) fun last hlast op' hop => ?_
      obtain rfl : op = op' := by simpa using hop
      exact hcov.ne_of_fault? hs hc hf ho hlast

end Snapshot

namespace Routine

variable {r : Routine} {env : Environment} {config : QueueConfig} {l : Layout Ty}
  {ins outs : Nat → Snapshot} {bs : List Nat} {b k : Nat}

theorem history_append_singleton (r : Routine) (l : Layout Ty) (bs : List Nat) (b k : Nat) :
    r.history l (bs ++ [b]) k = r.history l bs k ++
      ((ControlGraph.ofRoutine r).trail [b]).filterMap (SlotAction.operationOn? l k) := by
  rw [history_eq, history_eq, ControlGraph.trail_append, List.filterMap_append, List.append_assoc]

theorem isChain_history (h : (r.problem l).Solves ins outs) (hg : ControlGraph.faults r = [])
    (hr : OccupancySolution.replay (.ofRoutine r) (r.problem l).solve = [])
    (hw : (ControlGraph.ofRoutine r).Walk bs b) : (r.history l bs k).IsChain (· ≠ ·) := by
  have hstep : ∀ bs b, b ∈ (ControlGraph.ofRoutine r).ids →
      (ins b).Covers k (r.history l bs k) → (r.history l bs k).IsChain (· ≠ ·) →
      (r.history l (bs ++ [b]) k).IsChain (· ≠ ·) := by
    intro bs b hb hcov hchain
    obtain ⟨hs, hc⟩ := ins_hasCauses h hb
    rw [history_append_singleton]
    exact hcov.isChain_of_replay hs hc hchain ((replay_solve_eq_nil_iff h).mp hr b hb)
  induction hw with
  | start =>
    refine hstep [] _ ControlGraph.Walk.start.mem_ids ?_ ?_
    · rw [history_nil]
      exact covers_first h
    · rw [history_nil, arrival]
      split
      · exact List.isChain_singleton _
      · exact List.isChain_nil
  | step hw hp ih =>
    exact hstep _ _ (hw.step hp).mem_ids (covers_pred h hg hp (covers_walk h hg hw)) ih

theorem getLast?_history (h : (r.problem l).Solves ins outs) (hg : ControlGraph.faults r = [])
    (hl : env.layout = .ok l) (hd : Declarations.faults r env = [])
    (he : OccupancySolution.ending (.ofRoutine r) (r.problem l).solve (.ofRoutine r) = [])
    (hw : (ControlGraph.ofRoutine r).Walk bs (ControlGraph.ofRoutine r).last) {x : Name}
    (hx : ∃ id ∈ Declarations.mentions r, id.name = x) (hk : k ∈ l.leavesAt (.ofVariable x))
    {op : Operation} (hop : (r.history l bs k).getLast? = some op) :
    op = if (Declarations.ofRoutine r).isOutput x then .initialization else .finalization := by
  have hend := (ending_solve_eq_nil_iff h hl hd).mp he x hx
  have hcov := covers_walk (k := k) h hg hw
  cases op with
  | initialization =>
    split at hend
    · next ho => rw [if_pos ho]
    · exact absurd (hcov.1 hop) (hend.2 k hk)
  | finalization =>
    split at hend
    · exact absurd (hcov.2 hop) (hend.2 k hk)
    · next ho => rw [if_neg ho]

/-- If nothing is reported for a routine, the operations on each leaf alternate along every walk.
At the end of the routine the last operation on a leaf, if there is one, is an initialization if
the leaf belongs to an output, and a finalization if it belongs to another declared variable. -/
theorem history_alternates (h : (r.verify env config).diagnostics = []) (hl : env.layout = .ok l)
    (hw : (ControlGraph.ofRoutine r).Walk bs b) (k : Nat) :
    (r.history l bs k).IsChain (· ≠ ·) ∧
      (b = (ControlGraph.ofRoutine r).last → ∀ x, k ∈ l.leavesAt (.ofVariable x) →
        ∀ op, (r.history l bs k).getLast? = some op →
          ((∃ q ∈ r.outputs, q.id.name = x) → op = .initialization) ∧
          ((∃ id ∈ Declarations.mentions r, id.name = x) → (¬ ∃ q ∈ r.outputs, q.id.name = x) →
            op = .finalization)) := by
  obtain ⟨hd, hg, hocc, -⟩ := diagnostics_eq_nil_iff.mp h
  obtain ⟨-, hr, he⟩ := (occupancyPass_eq_nil_iff hl hd).mp hocc
  obtain ⟨ins, outs, hs⟩ := r.exists_solves_problem l hg
  refine ⟨isChain_history hs hg hr hw, ?_⟩
  rintro rfl x hk op hop
  constructor
  · intro hout
    obtain ⟨q, hq, rfl⟩ := hout
    have hx := Declarations.exists_mention_of_mem_params (r := r) (.inr hq)
    rw [getLast?_history hs hg hl hd he hw hx hk hop,
      if_pos (Declarations.isOutput_iff.mpr ⟨q, hq, rfl⟩)]
  · intro hx hout
    rw [getLast?_history hs hg hl hd he hw hx hk hop,
      if_neg (mt Declarations.isOutput_iff.mp hout)]

end Routine

namespace Carry

/-- Twice around the loop: the pair leaves its slot and comes back, and at last it is handed to
the output. -/
theorem history_alternates_carry :
    (routine.verify env .standard).diagnostics = [] ∧ env.layout = .ok layout ∧
      (ControlGraph.ofRoutine routine).Walk [0, 1, 1, 2] 2 ∧
      routine.history layout [0, 1, 1, 2] 0 =
        [.initialization, .finalization, .initialization, .finalization, .initialization,
          .finalization] ∧
      (routine.history layout [0, 1, 1, 2] 0).IsChain (· ≠ ·) := by
  have h : (routine.verify env .standard).diagnostics = [] := by decide +kernel
  have hl : env.layout = .ok layout := by decide +kernel
  have hw : (ControlGraph.ofRoutine routine).Walk [0, 1, 1, 2] 2 :=
    ((ControlGraph.Walk.start.step (c := 1) (by decide +kernel)).step (c := 1)
      (by decide +kernel)).step (by decide +kernel)
  exact ⟨h, hl, hw, by decide +kernel, (Routine.history_alternates h hl hw 0).1⟩

end Carry

end Reversible
