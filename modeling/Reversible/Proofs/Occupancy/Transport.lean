import Mathlib.Logic.Equiv.Defs
import Reversible.Proofs.Verify.Findings

/-! # Carrying a solution over to another problem

Two occupancy problems may correspond block by block, with a map of snapshots that turns the
equations of the first into those of the second. Then it turns the snapshots of the solver for the
first problem into those for the second: their images satisfy the equations, and all that the solver
does on the way to them can be repeated below the second solution.
-/

namespace Reversible

namespace OccupancyProblem

/-- The block `b` of the second problem is the block `π b` of the first, and `f` turns the snapshots
of the first into snapshots of the second. -/
structure Carries (p p' : OccupancyProblem) (f : Snapshot → Snapshot) (π : Equiv.Perm Nat) :
    Prop where
  mem_ids_iff : ∀ {b}, b ∈ p'.graph.ids ↔ π b ∈ p.graph.ids
  predecessors_eq : ∀ b, p'.graph.predecessors b = (p.graph.predecessors (π b)).map π.symm
  blank_eq : f p.blank = p'.blank
  initialIn_eq : ∀ b, f (p.initialIn (π b)) = p'.initialIn b
  meet_eq : ∀ s t, f (s.meet t) = (f s).meet (f t)
  transfer_eq : ∀ s b, f (p.transfer s (π b)) = p'.transfer (f s) b

section Carries

variable {p p' : OccupancyProblem} {f : Snapshot → Snapshot} {π : Equiv.Perm Nat}
  {ins outs ins' outs' : Nat → Snapshot} {b : Nat}

theorem Carries.foldl_meet_eq (hc : p.Carries p' f π) (s : Snapshot) (ts : List Snapshot) :
    f (ts.foldl Snapshot.meet s) = (ts.map f).foldl Snapshot.meet (f s) := by
  induction ts generalizing s with
  | nil => rfl
  | cons t ts ih => rw [List.foldl_cons, ih, List.map_cons, List.foldl_cons, hc.meet_eq]

theorem Carries.satisfies (hc : p.Carries p' f π) (h : p.Satisfies ins outs) :
    p'.Satisfies (fun b => f (ins (π b))) fun b => f (outs (π b)) := by
  intro b hb
  obtain ⟨hin, hout⟩ := h (π b) (hc.mem_ids_iff.mp hb)
  constructor
  · have hmap : (p'.graph.predecessors b).map (fun c => f (outs (π c))) =
        ((p.graph.predecessors (π b)).map outs).map f := by
      rw [hc.predecessors_eq, List.map_map, List.map_map]
      exact List.map_congr_left fun c _ => by simp
    rw [hmap, ← hc.initialIn_eq, ← hc.foldl_meet_eq]
    exact congrArg f hin
  · rw [← hc.transfer_eq]
    exact congrArg f hout

variable {g g' : ControlGraph} {l l' : Layout Ty} {inputs inputs' : List Ident}
  (hc : (ofLayout g l inputs).Carries (ofLayout g' l' inputs') f π)
  (hg' : ∀ i j, j ∈ g'.predecessors i → i ∈ g'.successors j)
  (h' : (ofLayout g' l' inputs').Solves ins' outs')
include hc hg' h'

/-- Whatever the solver for the first problem comes to has its image below the second solution. -/
theorem Carries.closed :
    (ofLayout g l inputs).flow.Closed (fun c s => (f s).Le (ins' (π.symm c)))
      (fun c s => (f s).Le (outs' (π.symm c))) := by
  have hids : ∀ {c}, c ∈ g.ids → π.symm c ∈ g'.ids := fun hm =>
    hc.mem_ids_iff.mpr (by rwa [Equiv.apply_symm_apply])
  constructor
  · intro c hm
    have hinit := hc.initialIn_eq (π.symm c)
    rw [Equiv.apply_symm_apply] at hinit
    change (f ((ofLayout g l inputs).initialIn c)).Le _
    rw [hinit]
    exact h'.initialIn_le (hids hm)
  · intro c hm
    change (f (ofLayout g l inputs).blank).Le _
    rw [hc.blank_eq]
    exact (h'.of_closed (hids hm) (lawful_blank_le hg').closed).2
  · intro n m v w hn hm hmn hv hw
    have hpred : π.symm m ∈ g'.predecessors (π.symm n) := by
      have heq : g'.predecessors (π.symm n) = (g.predecessors n).map π.symm := by
        rw [← π.apply_symm_apply n, Equiv.symm_apply_apply]
        exact hc.predecessors_eq _
      rw [heq]
      exact List.mem_map_of_mem hmn
    change (f (v.meet w)).Le _
    rw [hc.meet_eq]
    exact Layout.zipWith_le (fun _ _ _ => Occupancy.meet_le) hv
      (hw.trans (h'.pred_le (hids hn) hg' hpred))
  · intro n v hn hv
    have htransfer := hc.transfer_eq v (π.symm n)
    rw [Equiv.apply_symm_apply] at htransfer
    change (f ((ofLayout g l inputs).transfer v n)).Le _
    rw [htransfer, (h'.satisfies _ (hids hn)).2]
    exact hv.foldl_apply _

/-- The solution of the second problem is the image of the solution of the first. -/
theorem Carries.solution_eq (h : (ofLayout g l inputs).Solves ins outs) (hb : b ∈ g'.ids) :
    ins' b = f (ins (π b)) ∧ outs' b = f (outs (π b)) := by
  have hbelow := h.of_closed (hc.mem_ids_iff.mp hb) (hc.closed hg' h')
  have habove := h'.le_of_satisfies hg' (hc.satisfies h.satisfies) hb
  rw [Equiv.symm_apply_apply] at hbelow
  exact ⟨habove.1.antisymm hbelow.1, habove.2.antisymm hbelow.2⟩

end Carries

end OccupancyProblem

theorem ControlGraph.arises_iff_of_perm {g g' : ControlGraph} {π : Equiv.Perm Nat}
    {C C' : Nat → Prop} (hids : ∀ {b}, b ∈ g'.ids ↔ π b ∈ g.ids)
    (hpred : ∀ b, g'.predecessors b = (g.predecessors (π b)).map π.symm)
    (hC : ∀ b ∈ g'.ids, C' b ↔ C (π b)) : g'.Arises C' ↔ g.Arises C := by
  have hσ : ∀ c ∈ g.ids, C' (π.symm c) ↔ C c := fun c hc => by
    have hc' : π.symm c ∈ g'.ids := hids.mpr (by rwa [π.apply_symm_apply])
    rw [hC _ hc', π.apply_symm_apply]
  have hat (b : Nat) (hb : b ∈ g'.ids) := and_congr (hC b hb) (origin_congr (hpred b) hσ)
  constructor
  · rintro ⟨b, hb, harises⟩
    exact ⟨π b, hids.mp hb, (hat b hb).mp harises⟩
  · rintro ⟨c, hc, harises⟩
    obtain ⟨b, rfl⟩ := π.surjective c
    exact ⟨b, hids.mpr hc, (hat b (hids.mpr hc)).mpr harises⟩

namespace Routine

variable {r r' : Routine} {l : Layout Ty} {ins outs ins' outs' : Nat → Snapshot}
  {f : Snapshot → Snapshot} {π : Equiv.Perm Nat}

theorem conflictNames_eq_of_carries (hc : (r.problem l).Carries (r'.problem l) f π)
    (ha : Declarations.Alike r r') (hg' : ControlGraph.faults r' = [])
    (h : (r.problem l).Solves ins outs) (h' : (r'.problem l).Solves ins' outs')
    (hf : ∀ (s : Snapshot) leaves, (f s).Disagrees leaves ↔ s.Disagrees leaves) :
    r'.conflictNames l = r.conflictNames l := by
  have hlink := ControlGraph.mem_successors_of_mem_predecessors hg'
  refine conflictNames_congr ha h h' fun leaves => ?_
  refine ControlGraph.arises_iff_of_perm hc.mem_ids_iff hc.predecessors_eq fun b hb => ?_
  rw [(hc.solution_eq hlink h' h hb).2, hf]

end Routine

end Reversible
