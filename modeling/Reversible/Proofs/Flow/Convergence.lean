import Mathlib.Data.DFinsupp.WellFounded
import Reversible.Proofs.Flow.Fixpoint

/-! # The solver on monotone problems

A problem is monotone if its values form a semilattice without infinite ascents and its transfers
preserve the order. No bound on the length of ascents is needed. Each visit raises the results or
shortens the worklist, so the solver ends on every monotone problem, in either direction. It ends in
the least solution of the equations, which depends on the nodes and their neighbours but not on the
order in which they are listed.
-/

namespace Reversible

variable {Node Value : Type}

theorem Direction.choose_choose {α : Type} (d : Direction) (a b : α) :
    d.choose (d.choose a b) (d.choose b a) = a := by
  cases d <;> rfl

namespace FlowProblem

/-- A value is below another if combining it with that adds nothing. -/
def Le (p : FlowProblem Node Value) (v w : Value) : Prop := p.combine v w = w

/-- What the solver relies on: `combine` is the join of a semilattice in which no ascent is
infinite, transfers are monotone, results start as identities of `combine`, and a node is a target
of each of its sources. -/
structure IsMonotone (p : FlowProblem Node Value) : Prop where
  combine_assoc : ∀ u v w, p.combine (p.combine u v) w = p.combine u (p.combine v w)
  combine_comm : ∀ v w, p.combine v w = p.combine w v
  combine_self : ∀ v, p.combine v v = v
  transfer_le : ∀ n ∈ p.nodes, ∀ v w, p.Le v w → p.Le (p.transfer v n) (p.transfer w n)
  not_ascending : ∀ f : Nat → Value, ¬ ∀ k, p.Le (f k) (f (k + 1)) ∧ f k ≠ f (k + 1)
  initialOutput_combine : ∀ n ∈ p.nodes, ∀ v, p.combine (p.initialOutput n) v = v
  mem_targets : ∀ m ∈ p.nodes, ∀ n ∈ p.nodes, m ∈ p.sources n → n ∈ p.targets m

namespace IsMonotone

variable {p : FlowProblem Node Value} (h : p.IsMonotone)
include h

theorem lawful : p.Lawful p.Le fun _ => True where
  refl := h.combine_self
  trans u v w huv hvw := by
    calc p.combine u w = p.combine u (p.combine v w) := by rw [hvw]
      _ = p.combine (p.combine u v) w := (h.combine_assoc u v w).symm
      _ = w := by rw [huv, hvw]
  antisymm v w hvw hwv := by
    calc v = p.combine w v := hwv.symm
      _ = p.combine v w := h.combine_comm w v
      _ = w := hvw
  ok_input _ _ := trivial
  ok_output _ _ := trivial
  ok_combine _ _ _ _ := trivial
  ok_transfer _ _ _ _ := trivial
  le_combine_left v w _ _ := by
    unfold Le
    rw [← h.combine_assoc, h.combine_self]
  le_combine_right v w _ _ := by
    unfold Le
    rw [h.combine_comm v w, ← h.combine_assoc, h.combine_self]
  combine_le u v w hu hv := by
    unfold Le
    rw [h.combine_assoc, hv, hu]
  transfer_le n v w hn := h.transfer_le n hn v w
  output_le n v hn _ := h.initialOutput_combine n hn v
  mem_targets m n hm hn := h.mem_targets m hm n hn

theorem wellFounded : WellFounded fun v w => p.Le w v ∧ w ≠ v :=
  wellFounded_iff_isEmpty_descending_chain.mpr ⟨fun ⟨f, hf⟩ => h.not_ascending f hf⟩

theorem rightCommutative : RightCommutative p.combine where
  right_comm u v w := by
    rw [h.combine_assoc, h.combine_comm v w, h.combine_assoc]

end IsMonotone

variable {p q : FlowProblem Node Value}

/-- Two problems that differ only in the order in which nodes and neighbours are listed. -/
structure Reorders (p q : FlowProblem Node Value) : Prop where
  direction : q.direction = p.direction
  nodes : q.nodes.Perm p.nodes
  predecessors : ∀ n, (q.predecessors n).Perm (p.predecessors n)
  successors : ∀ n, (q.successors n).Perm (p.successors n)
  initialIn : q.initialIn = p.initialIn
  initialOut : q.initialOut = p.initialOut
  combine : q.combine = p.combine
  transfer : q.transfer = p.transfer

namespace Reorders

variable (h : p.Reorders q)
include h

theorem sources (n : Node) : (q.sources n).Perm (p.sources n) := by
  unfold FlowProblem.sources
  rw [h.direction]
  cases p.direction with
  | forward => exact h.predecessors n
  | backward => exact h.successors n

theorem targets (n : Node) : (q.targets n).Perm (p.targets n) := by
  unfold FlowProblem.targets
  rw [h.direction]
  cases p.direction with
  | forward => exact h.successors n
  | backward => exact h.predecessors n

theorem initialInput : q.initialInput = p.initialInput := by
  ext n
  unfold FlowProblem.initialInput
  rw [h.direction, h.initialIn, h.initialOut]

theorem initialOutput : q.initialOutput = p.initialOutput := by
  ext n
  unfold FlowProblem.initialOutput
  rw [h.direction, h.initialIn, h.initialOut]

theorem le_eq : q.Le = p.Le := by
  unfold Le
  rw [h.combine]

theorem isMonotone (hp : p.IsMonotone) : q.IsMonotone where
  combine_assoc := h.combine ▸ hp.combine_assoc
  combine_comm := h.combine ▸ hp.combine_comm
  combine_self := h.combine ▸ hp.combine_self
  transfer_le n hn := by
    rw [h.le_eq, h.transfer]
    exact hp.transfer_le n (h.nodes.mem_iff.mp hn)
  not_ascending := h.le_eq ▸ hp.not_ascending
  initialOutput_combine n hn := by
    rw [h.combine, h.initialOutput]
    exact hp.initialOutput_combine n (h.nodes.mem_iff.mp hn)
  mem_targets m hm n hn hs := by
    have ht := hp.mem_targets m (h.nodes.mem_iff.mp hm) n (h.nodes.mem_iff.mp hn)
    exact (h.targets m).mem_iff.mpr (ht ((h.sources n).mem_iff.mp hs))

end Reorders

variable [DecidableEq Node] {s : FlowState Node Value} {le : Value → Value → Prop}
  {ok : Value → Prop} {n : Node}

/-- The equations of a problem: what a node takes in is its initial value with the results of those
of its sources that are nodes of the problem, and its result is transferred from that. -/
def Balances (p : FlowProblem Node Value) (inputs outputs : Node → Value) : Prop :=
  ∀ n ∈ p.nodes,
    inputs n =
        (((p.sources n).filter (· ∈ p.nodes)).map outputs).foldl p.combine (p.initialInput n) ∧
      outputs n = p.transfer (inputs n) n

/-- Values before and after nodes that satisfy the equations. Along a backward problem a node takes
in the value after it. -/
def Satisfies (p : FlowProblem Node Value) (ins outs : Node → Value) : Prop :=
  p.Balances (p.direction.choose ins outs) (p.direction.choose outs ins)

/-- Values that satisfy the equations and are below all others that do. -/
structure IsLeastSolution (p : FlowProblem Node Value) (ins outs : Node → Value) : Prop where
  satisfies : p.Satisfies ins outs
  le : ∀ ins' outs', p.Satisfies ins' outs' → ∀ n ∈ p.nodes,
    p.Le (ins n) (ins' n) ∧ p.Le (outs n) (outs' n)

def results (p : FlowProblem Node Value) (s : FlowState Node Value) (n : { n // n ∈ p.nodes }) :
    Value :=
  (s.output? n).getD (p.initialOutput n)

namespace Reorders

variable (h : p.Reorders q)
include h

/-- The equations do not depend on the order of nodes and neighbours. -/
theorem balances_iff (hp : p.IsMonotone) (inputs outputs : Node → Value) :
    q.Balances inputs outputs ↔ p.Balances inputs outputs := by
  have := hp.rightCommutative
  unfold Balances
  refine forall_congr' fun n => imp_congr h.nodes.mem_iff (and_congr ?_ (by rw [h.transfer]))
  have hfilter : (q.sources n).filter (· ∈ q.nodes) = (q.sources n).filter (· ∈ p.nodes) := by
    simp only [h.nodes.mem_iff]
  rw [h.combine, h.initialInput, hfilter, (((h.sources n).filter _).map outputs).foldl_eq]

theorem isLeastSolution (hp : p.IsMonotone) {ins outs : Node → Value}
    (hl : p.IsLeastSolution ins outs) : q.IsLeastSolution ins outs := by
  have hsat : ∀ ins outs, q.Satisfies ins outs ↔ p.Satisfies ins outs := by
    intro ins outs
    unfold Satisfies
    rw [h.direction, h.balances_iff hp]
  refine ⟨(hsat ins outs).mpr hl.satisfies, fun ins' outs' h' n hn => ?_⟩
  rw [h.le_eq]
  exact hl.le ins' outs' ((hsat ins' outs').mp h') n (h.nodes.mem_iff.mp hn)

end Reorders

theorem IsLeastSolution.unique (hp : p.IsMonotone) {ins outs ins' outs' : Node → Value}
    (h : p.IsLeastSolution ins outs) (h' : p.IsLeastSolution ins' outs') (hn : n ∈ p.nodes) :
    ins n = ins' n ∧ outs n = outs' n := by
  obtain ⟨hi, ho⟩ := h.le _ _ h'.satisfies n hn
  obtain ⟨hi', ho'⟩ := h'.le _ _ h.satisfies n hn
  exact ⟨hp.lawful.antisymm _ _ hi hi', hp.lawful.antisymm _ _ ho ho'⟩

variable [DecidableEq Value] {rest : List Node} {c : FlowCell Node Value}

theorem run_add (p : FlowProblem Node Value) (a b : Nat) (s : FlowState Node Value) :
    p.run (a + b) s = p.run b (p.run a s) := by
  induction a generalizing s with
  | zero => rw [Nat.zero_add, run]
  | succ a ih =>
    rw [Nat.add_right_comm, run, run]
    cases hp : s.pending with
    | nil => cases b <;> simp [run, hp]
    | cons n rest => exact ih (p.visit s n rest)

theorem run_of_pending (p : FlowProblem Node Value) (b : Nat) (hs : s.pending = []) :
    p.run b s = s := by
  cases b <;> simp [run, hs]

/-- The solver ends in a state: after some visits it is there, and no node waits. -/
def EndsIn (p : FlowProblem Node Value) (s : FlowState Node Value) : Prop :=
  s.pending = [] ∧ ∃ visits, p.run visits p.start = s

/-- All heights from some point on are enough for a solver that ends. -/
theorem EndsIn.exists_solve_eq (h : p.EndsIn s) :
    ∃ bound, ∀ height ≥ bound, p.solve height = s := by
  obtain ⟨hs, visits, rfl⟩ := h
  refine ⟨visits, fun height hh => ?_⟩
  by_cases hn : p.nodes = []
  · have hstart : p.start.pending = [] := hn
    rw [solve, p.run_of_pending _ hstart, p.run_of_pending _ hstart]
  · have hb : visits ≤ p.budget height := by
      have hlen := List.length_pos_iff.mpr hn
      calc visits ≤ p.nodes.length * height := hh.trans (Nat.le_mul_of_pos_left height hlen)
        _ ≤ p.nodes.length * height + 1 := Nat.le_succ _
        _ ≤ p.budget height := Nat.le_mul_of_pos_left _ hlen
    obtain ⟨more, hmore⟩ := Nat.exists_eq_add_of_le hb
    rw [solve, hmore, run_add, p.run_of_pending more hs]

theorem EndsIn.unique {t : FlowState Node Value} (h : p.EndsIn s) (h' : p.EndsIn t) : s = t := by
  obtain ⟨b, hb⟩ := h.exists_solve_eq
  obtain ⟨b', hb'⟩ := h'.exists_solve_eq
  rw [← hb (max b b') (le_max_left ..), ← hb' (max b b') (le_max_right ..)]

theorem results_visit (hc : s.cell? n = some c) (m : { n // n ∈ p.nodes }) :
    p.results (p.visit s n rest) m =
      if m = n then p.transfer (p.gather s n c.input) n else p.results s m := by
  unfold results
  rw [output?_visit hc]
  split <;> rfl

/-- The solver ends from every state it can come to, if no ascent of values is infinite. -/
theorem Settling.exists_run (h : p.Settling le ok s) (hL : p.Lawful le ok)
    (hwf : WellFounded fun v w => le w v ∧ w ≠ v) : ∃ visits, (p.run visits s).pending = [] := by
  -- Higher values come first in this order, so results descend in it.
  let _ : PartialOrder Value :=
    { le := fun v w => le w v
      le_refl := hL.refl
      le_trans := fun u v w huv hvw => hL.trans w v u hvw huv
      le_antisymm := fun v w hvw hwv => hL.antisymm v w hwv hvw }
  have hlt : ∀ {v w : Value}, v < w → le w v ∧ w ≠ v := fun h => ⟨h.le, h.ne'⟩
  have : WellFoundedLT Value := ⟨Subrelation.wf hlt hwf⟩
  have : Finite { n // n ∈ p.nodes } := p.nodes.finite_toSet
  induction hf : p.results s using WellFoundedLT.induction generalizing s with
  | _ f ihf =>
    -- As long as the results stay, the worklist gets shorter.
    induction hk : s.pending.length generalizing s with
    | zero => exact ⟨0, List.length_eq_zero_iff.mp hk⟩
    | succ k ihk =>
      obtain ⟨n, rest, hp⟩ := List.exists_cons_of_length_eq_add_one hk
      have hn : n ∈ s.nodes := h.pending_mem n (hp ▸ List.mem_cons_self)
      obtain ⟨c, hc⟩ := FlowState.exists_cell?_of_mem hn
      suffices hnext : ∃ visits, (p.run visits (p.visit s n rest)).pending = [] by
        obtain ⟨visits, hv⟩ := hnext
        refine ⟨visits + 1, ?_⟩
        rwa [run, hp]
      have hold : ∀ m : { n // n ∈ p.nodes }, m = n → p.results s m = c.output := by
        rintro m rfl
        rw [results, FlowState.output?_of_cell? hc, Option.getD_some]
      by_cases ho : c.output = p.transfer (p.gather s n c.input) n
      · apply ihk (h.visit hL hp hc)
        · rw [← hf]
          ext m
          rw [results_visit hc]
          split
          · next hm => rw [hold m hm, ho]
          · rfl
        · rw [pending_visit_of_eq hc ho]
          rwa [hp, List.length_cons, Nat.add_right_cancel_iff] at hk
      · refine ihf _ ?_ (h.visit hL hp hc) rfl
        rw [← hf, Pi.lt_def]
        constructor
        · intro m
          rw [results_visit hc]
          split
          · next hm =>
            rw [hold m hm]
            exact h.le_transfer_gather hL hc
          · exact le_rfl
        · refine ⟨⟨n, h.mem_of_cell? hc⟩, lt_of_le_of_ne ?_ ?_⟩
          · rw [results_visit hc, if_pos rfl, hold _ rfl]
            exact h.le_transfer_gather hL hc
          · rw [results_visit hc, if_pos rfl, hold _ rfl]
            exact Ne.symm ho

theorem Balances.solve_le (hp : p.IsMonotone) {inputs outputs : Node → Value}
    (h : p.Balances inputs outputs) (height : Nat) :
    (p.solve height).Holds (fun n v => p.Le v (inputs n)) fun n w => p.Le w (outputs n) := by
  have hL := hp.lawful
  have hsum : ∀ n ∈ p.nodes, p.Le (p.initialInput n) (inputs n) ∧
      ∀ m ∈ p.nodes, m ∈ p.sources n → p.Le (outputs m) (inputs n) := by
    intro n hn
    obtain ⟨hi, hs⟩ := hL.le_foldl_combine (v := p.initialInput n) trivial
      fun (w : Value) (_ : w ∈ ((p.sources n).filter (· ∈ p.nodes)).map outputs) => trivial
    rw [(h n hn).1]
    refine ⟨hi, fun m hm hs' => hs _ (List.mem_map_of_mem ?_)⟩
    exact List.mem_filter.mpr ⟨hs', decide_eq_true hm⟩
  apply FlowProblem.solve_le hL height
  · exact fun n hn => (hsum n hn).1
  · exact fun n hn => hL.output_le n _ hn trivial
  · exact fun n hn => (hsum n hn).2
  · intro n hn
    rw [(h n hn).2]
    exact hL.refl _

/-- Where the solver ends, nodes have the values of the least solution, and nothing else has a
value. -/
theorem EndsIn.exists_isLeastSolution (h : p.EndsIn s) (hp : p.IsMonotone) :
    ∃ ins outs, p.IsLeastSolution ins outs ∧
      (∀ n, p.inAt? s n = if n ∈ p.nodes then some (ins n) else none) ∧
      ∀ n, p.outAt? s n = if n ∈ p.nodes then some (outs n) else none := by
  obtain ⟨height, hsolve⟩ := h.exists_solve_eq
  obtain rfl := hsolve height le_rfl
  have hset := Settling.solve hp.lawful height
  obtain ⟨inputs, outputs, hin, hout⟩ := hset.exists_values
  have hbal : p.Balances inputs outputs := fun n hn => hset.equations hp.lawful h.1 hn hin hout
  have hle : ∀ inputs' outputs', p.Balances inputs' outputs' → ∀ n ∈ p.nodes,
      p.Le (inputs n) (inputs' n) ∧ p.Le (outputs n) (outputs' n) := by
    intro inputs' outputs' hbal' n hn
    obtain ⟨hi, ho⟩ := hbal'.solve_le hp height n (inputs n)
    refine ⟨hi ?_, (hbal'.solve_le hp height n (outputs n)).2 ?_⟩
    · rw [hin, if_pos hn]
    · rw [hout, if_pos hn]
  refine ⟨p.direction.choose inputs outputs, p.direction.choose outputs inputs, ⟨?_, ?_⟩, ?_, ?_⟩
  · unfold Satisfies
    rwa [Direction.choose_choose, Direction.choose_choose]
  · intro ins' outs' h' n hn
    have hn' := hle _ _ h' n hn
    cases hd : p.direction with
    | forward => simpa [hd, Direction.choose] using hn'
    | backward => simpa [hd, Direction.choose] using hn'.symm
  · intro n
    unfold inAt?
    cases p.direction with
    | forward => exact hin n
    | backward => exact hout n
  · intro n
    unfold outAt?
    cases p.direction with
    | forward => exact hout n
    | backward => exact hin n

theorem IsMonotone.exists_endsIn (hp : p.IsMonotone) : ∃ s, p.EndsIn s := by
  obtain ⟨visits, hv⟩ := (settling_start hp.lawful).exists_run hp.lawful hp.wellFounded
  exact ⟨p.run visits p.start, hv, visits, rfl⟩

/-- On a monotone problem the solver ends, given enough visits, and there the values before and
after the nodes are the least ones that satisfy the equations. For a problem that lists nodes and
neighbours in another order it ends with the same values. -/
theorem endsIn_least (hp : p.IsMonotone) :
    ∃ s, p.EndsIn s ∧ (∃ bound, ∀ height ≥ bound, p.solve height = s) ∧
      (∃ ins outs, p.IsLeastSolution ins outs ∧
        (∀ n, p.inAt? s n = if n ∈ p.nodes then some (ins n) else none) ∧
        ∀ n, p.outAt? s n = if n ∈ p.nodes then some (outs n) else none) ∧
      ∀ q, p.Reorders q → ∃ t, q.EndsIn t ∧ q.inAt? t = p.inAt? s ∧ q.outAt? t = p.outAt? s := by
  obtain ⟨s, hs⟩ := hp.exists_endsIn
  obtain ⟨ins, outs, hleast, hin, hout⟩ := hs.exists_isLeastSolution hp
  refine ⟨s, hs, hs.exists_solve_eq, ⟨ins, outs, hleast, hin, hout⟩, fun q hq => ?_⟩
  have hq' := hq.isMonotone hp
  obtain ⟨t, ht⟩ := hq'.exists_endsIn
  obtain ⟨ins', outs', hleast', hin', hout'⟩ := ht.exists_isLeastSolution hq'
  have hsame : ∀ n ∈ p.nodes, ins' n = ins n ∧ outs' n = outs n := fun n hn =>
    hleast'.unique hq' (hq.isLeastSolution hp hleast) (hq.nodes.mem_iff.mpr hn)
  refine ⟨t, ht, ?_, ?_⟩
  · ext1 n
    rw [hin', hin]
    simp only [hq.nodes.mem_iff]
    exact ite_congr rfl (fun hn => by rw [(hsame n hn).1]) fun _ => rfl
  · ext1 n
    rw [hout', hout]
    simp only [hq.nodes.mem_iff]
    exact ite_congr rfl (fun hn => by rw [(hsame n hn).2]) fun _ => rfl

end FlowProblem

/-! Distances to a goal. Ascents have no common bound here, since the first distance found may be
improved any number of times. -/

namespace Distance

/-- Node `n` has length `n + 1`. Node 1 leads to itself, and node 2 back to it. -/
def successors : Nat → List Nat
  | 0 => [1, 3]
  | 1 => [2, 1]
  | 2 => [1, 4]
  | 3 => [4, 7]
  | _ => []

/-- The distance from the start of a node to the end of node 4, which comes in from behind, if a way
is known. -/
def problem : FlowProblem Nat (Option Nat) where
  direction := .backward
  nodes := [0, 1, 2, 3, 4, 2]
  predecessors n := [0, 1, 2, 3, 4].filter fun m => n ∈ successors m
  successors := successors
  initialIn _ := none
  initialOut n := if n = 4 then some 0 else none
  combine := Option.merge min
  transfer v n := v.map (· + (n + 1))

theorem le_iff {v w : Option Nat} : problem.Le v w ↔ ∀ a ∈ v, ∃ b ∈ w, b ≤ a := by
  cases v with
  | none => simp [FlowProblem.Le, problem]
  | some a => cases w <;> simp [FlowProblem.Le, problem]

theorem isMonotone : problem.IsMonotone where
  combine_assoc := (inferInstance : Std.Associative (Option.merge (min (α := Nat)))).assoc
  combine_comm := (inferInstance : Std.Commutative (Option.merge (min (α := Nat)))).comm
  combine_self := (inferInstance : Std.IdempotentOp (Option.merge (min (α := Nat)))).idempotent
  transfer_le n _ v w h := by
    rw [le_iff] at h ⊢
    rintro a ha
    obtain ⟨a, hv, rfl⟩ := Option.mem_map.mp ha
    obtain ⟨b, hw, hle⟩ := h a hv
    exact ⟨_, Option.mem_map_of_mem _ hw, Nat.add_le_add_right hle _⟩
  not_ascending f hf := by
    have hsome : ∀ k, ∃ d, f (k + 1) = some d := by
      intro k
      cases hk : f (k + 1) with
      | some d => exact ⟨d, rfl⟩
      | none =>
        refine absurd (Option.eq_none_iff_forall_not_mem.mpr fun a ha => ?_) (hk ▸ (hf k).2)
        obtain ⟨b, hb, -⟩ := le_iff.mp (hf k).1 a ha
        simp [hk] at hb
    choose d hd using hsome
    have hanti : StrictAnti d := strictAnti_nat_of_succ_lt fun k => by
      obtain ⟨b, hb, hle⟩ := le_iff.mp (hf (k + 1)).1 (d k) (hd k)
      have hbd : b = d (k + 1) := Option.some.inj (hb.symm.trans (hd (k + 1)))
      have hne : d k ≠ d (k + 1) := fun he => (hf (k + 1)).2 (by rw [hd, hd, he])
      omega
    exact not_strictAnti_of_wellFoundedLT d hanti
  initialOutput_combine _ _ v := by cases v <;> rfl
  mem_targets := by decide

/-- The same problem with its nodes and neighbours listed the other way round. -/
def reversed : FlowProblem Nat (Option Nat) where
  direction := .backward
  nodes := problem.nodes.reverse
  predecessors n := (problem.predecessors n).reverse
  successors n := (problem.successors n).reverse
  initialIn := problem.initialIn
  initialOut := problem.initialOut
  combine := problem.combine
  transfer := problem.transfer

theorem reorders : problem.Reorders reversed where
  direction := rfl
  nodes := List.reverse_perm _
  predecessors _ := List.reverse_perm _
  successors _ := List.reverse_perm _
  initialIn := rfl
  initialOut := rfl
  combine := rfl
  transfer := rfl

theorem endsIn_least_distance : problem.IsMonotone ∧ problem.Reorders reversed ∧
    ∃ s t, problem.EndsIn s ∧ reversed.EndsIn t ∧ reversed.inAt? t = problem.inAt? s ∧
      problem.inAt? s 0 = some (some 10) := by
  obtain ⟨s, hs, -, -, hq⟩ := FlowProblem.endsIn_least isMonotone
  obtain ⟨t, ht, hin, -⟩ := hq reversed reorders
  refine ⟨isMonotone, reorders, s, t, hs, ht, hin, ?_⟩
  have hend : problem.EndsIn (problem.run 12 problem.start) := ⟨by decide +kernel, 12, rfl⟩
  rw [hs.unique hend]
  decide +kernel

end Distance

end Reversible
