import Mathlib.Algebra.Group.Action.Defs
import Mathlib.Algebra.Order.BigOperators.Group.List
import Mathlib.Algebra.Order.Ring.Nat
import Reversible.Proofs.Flow.Fixpoint

/-! # Termination of the worklist solver

If results can only rise a bounded number of times, no node waits after the budget of visits. Each
visit either takes a node off the worklist or uses up one of the rises that are left.
-/

namespace Reversible

namespace FlowProblem

variable {Node Value : Type} {s : FlowState Node Value} {rank : Value → Nat} {height : Nat}

/-- How often results can still rise, if no rank is above `height`. -/
def slack (rank : Value → Nat) (height : Nat) (s : FlowState Node Value) : Nat :=
  (s.cells.map fun c => height - rank c.output).sum

variable [DecidableEq Node]

theorem slack_start_le (p : FlowProblem Node Value) (rank : Value → Nat) (height : Nat) :
    slack rank height p.start ≤ p.nodes.length * height := by
  have hlen : p.start.cells.length ≤ p.nodes.length := by
    rw [start, List.length_map]
    exact ((nodup_firsts p.nodes).subperm fun n hn => mem_firsts.mp hn).length_le
  have hle : slack rank height p.start ≤ p.start.cells.length * height := by
    have h := List.sum_le_card_nsmul (p.start.cells.map fun c => height - rank c.output) height
      fun k hk => by
        obtain ⟨c, -, rfl⟩ := List.mem_map.mp hk
        exact Nat.sub_le _ _
    rwa [List.length_map, smul_eq_mul] at h
  exact hle.trans (Nat.mul_le_mul_right height hlen)

variable {p : FlowProblem Node Value} {n : Node} {c : FlowCell Node Value}

theorem height_sub_rank_visit_le (h : s.Tidy) (hc : s.cell? n = some c)
    (hle : rank c.output ≤ rank (p.transfer (p.gather s n c.input) n)) {d : FlowCell Node Value}
    (hd : d ∈ s.cells) :
    height - rank (if d.node = n then
      ⟨n, p.gather s n c.input, p.transfer (p.gather s n c.input) n⟩ else d).output ≤
      height - rank d.output := by
  by_cases hdn : d.node = n
  · obtain rfl := h.eq_of_node hc hd hdn
    rw [if_pos hdn]
    exact Nat.sub_le_sub_left hle height
  · rw [if_neg hdn]

variable [DecidableEq Value] {rest : List Node}

theorem slack_visit_le (h : s.Tidy) (hc : s.cell? n = some c)
    (hle : rank c.output ≤ rank (p.transfer (p.gather s n c.input) n)) :
    slack rank height (p.visit s n rest) ≤ slack rank height s := by
  rw [slack, cells_visit hc, FlowState.setCell, List.map_map]
  exact List.sum_le_sum fun d hd => height_sub_rank_visit_le h hc hle hd

theorem slack_visit_lt (h : s.Tidy) (hc : s.cell? n = some c)
    (hlt : rank c.output < rank (p.transfer (p.gather s n c.input) n))
    (hle : rank (p.transfer (p.gather s n c.input) n) ≤ height) :
    slack rank height (p.visit s n rest) < slack rank height s := by
  rw [slack, cells_visit hc, FlowState.setCell, List.map_map]
  refine List.sum_lt_sum _ _ (fun d hd => height_sub_rank_visit_le h hc hlt.le hd) ?_
  refine ⟨c, List.mem_of_find?_eq_some hc, ?_⟩
  have hn : c.node = n := by simpa using List.find?_some hc
  simp only [Function.comp_apply, hn, if_true]
  omega

/-- A bound on the visits that are made before no node waits. -/
def remaining (rank : Value → Nat) (height : Nat) (s : FlowState Node Value) : Nat :=
  s.pending.length + s.nodes.length * slack rank height s

variable {le : Value → Value → Prop} {ok : Value → Prop}

theorem remaining_visit_lt (hL : p.Lawful le ok)
    (hrank : ∀ v w, ok v → ok w → le v w → v ≠ w → rank v < rank w)
    (hheight : ∀ v, ok v → rank v ≤ height) (h : p.Settling le ok s)
    (hp : s.pending = n :: rest) (hc : s.cell? n = some c) :
    remaining rank height (p.visit s n rest) < remaining rank height s := by
  have hpend : s.pending.length = rest.length + 1 := by rw [hp, List.length_cons]
  rw [remaining, remaining, nodes_visit hc, hpend]
  by_cases ho : c.output = p.transfer (p.gather s n c.input) n
  · have hslack : slack rank height (p.visit s n rest) ≤ slack rank height s :=
      slack_visit_le h.toTidy hc (congrArg rank ho).le
    have hmul := Nat.mul_le_mul_left s.nodes.length hslack
    rw [pending_visit_of_eq hc ho]
    omega
  · have hn := h.mem_of_cell? hc
    have hold := (h.ok n c.output).2 (FlowState.output?_of_cell? hc)
    have hin := (h.ok n c.input).1 (FlowState.input?_of_cell? hc)
    have hnew := hL.ok_transfer n _ hn (hL.closed.gather h.toReached h.ok hn hin)
    have hlt := hrank _ _ hold hnew (h.le_transfer_gather hL hc) ho
    have hslack : slack rank height (p.visit s n rest) + 1 ≤ slack rank height s :=
      slack_visit_lt h.toTidy hc hlt (hheight _ hnew)
    have hmul := Nat.mul_le_mul_left s.nodes.length hslack
    rw [Nat.mul_add, Nat.mul_one] at hmul
    have hlen := length_pending_visit_le (p := p) h.toTidy hp hc
    omega

theorem pending_run_eq_nil (hL : p.Lawful le ok)
    (hrank : ∀ v w, ok v → ok w → le v w → v ≠ w → rank v < rank w)
    (hheight : ∀ v, ok v → rank v ≤ height) {budget : Nat} (h : p.Settling le ok s)
    (hb : remaining rank height s ≤ budget) : (p.run budget s).pending = [] := by
  induction budget generalizing s with
  | zero =>
    have : s.pending.length = 0 := by
      rw [remaining] at hb
      omega
    exact List.length_eq_zero_iff.mp this
  | succ budget ih =>
    rw [run]
    split
    · assumption
    · next n rest hp =>
      obtain ⟨c, hc⟩ := FlowState.exists_cell?_of_mem
        (h.pending_mem n (hp ▸ List.mem_cons_self))
      have hlt := remaining_visit_lt hL hrank hheight h hp hc
      exact ih (h.visit hL hp hc) (by omega)

/-- If results rise at most `height` times, the solver ends with no node waiting. -/
theorem pending_solve_eq_nil (hL : p.Lawful le ok)
    (hrank : ∀ v w, ok v → ok w → le v w → v ≠ w → rank v < rank w)
    (hheight : ∀ v, ok v → rank v ≤ height) : (p.solve height).pending = [] := by
  refine pending_run_eq_nil hL hrank hheight (settling_start hL) ?_
  have hs := slack_start_le p rank height
  have hn : p.start.nodes.length ≤ p.nodes.length := by
    rw [nodes_start]
    exact ((nodup_firsts p.nodes).subperm fun n hn => mem_firsts.mp hn).length_le
  have hmul := Nat.mul_le_mul hn hs
  rw [remaining, budget, Nat.mul_add, Nat.mul_one]
  have hpend : p.start.pending.length = p.nodes.length := rfl
  omega

end FlowProblem

end Reversible
