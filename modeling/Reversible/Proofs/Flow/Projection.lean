import Reversible.Proofs.Flow.Convergence

/-! # Projecting a problem

A map of values may turn one problem into another over the same graph. If it tells apart the values
that the solver comes to, the solver takes the same steps on both problems: it visits the same nodes
in the same order, and the values on the way are mapped onto each other.
-/

namespace Reversible

variable {Node Value Value' : Type}

def FlowCell.map (f : Value → Value') (c : FlowCell Node Value) : FlowCell Node Value' :=
  ⟨c.node, f c.input, f c.output⟩

def Visit.map (f : Value → Value') (v : Visit Node Value) : Visit Node Value' :=
  ⟨v.node, f v.input, f v.output, v.changed⟩

namespace FlowState

variable {f : Value → Value'} {s : FlowState Node Value} {n : Node}

def map (f : Value → Value') (s : FlowState Node Value) : FlowState Node Value' where
  cells := s.cells.map (·.map f)
  pending := s.pending
  queued := s.queued
  visits := s.visits.map (·.map f)

variable [DecidableEq Node]

theorem cell?_map : (s.map f).cell? n = (s.cell? n).map (·.map f) := by
  unfold cell? map
  rw [List.find?_map]
  rfl

theorem input?_map : (s.map f).input? n = (s.input? n).map f := by
  rw [input?, input?, cell?_map, Option.map_map, Option.map_map]
  rfl

theorem output?_map : (s.map f).output? n = (s.output? n).map f := by
  rw [output?, output?, cell?_map, Option.map_map, Option.map_map]
  rfl

theorem map_enqueue (s : FlowState Node Value) (n : Node) :
    (s.enqueue n).map f = (s.map f).enqueue n := by
  have hcell : ((s.map f).cell? n).isSome = (s.cell? n).isSome := by
    rw [cell?_map, Option.isSome_map]
  unfold enqueue
  rw [hcell, apply_ite (map f)]
  rfl

theorem map_foldl_enqueue (targets : List Node) (s : FlowState Node Value) :
    (targets.foldl enqueue s).map f = targets.foldl enqueue (s.map f) := by
  induction targets generalizing s with
  | nil => rfl
  | cons n targets ih => rw [List.foldl_cons, ih, map_enqueue, List.foldl_cons]

theorem map_setCell (cells : List (FlowCell Node Value)) (new : FlowCell Node Value) :
    (setCell cells new).map (·.map f) = setCell (cells.map (·.map f)) (new.map f) := by
  unfold setCell
  rw [List.map_map, List.map_map]
  refine List.map_congr_left fun c _ => ?_
  exact apply_ite (FlowCell.map f) (c.node = new.node) new c

end FlowState

namespace FlowProblem

variable {p : FlowProblem Node Value} {q : FlowProblem Node Value'} {f : Value → Value'}
  {ok : Value → Prop} {s : FlowState Node Value} {n : Node} {rest : List Node}
  {c : FlowCell Node Value}

/-- The map turns the equations of `p` into those of `q`, as long as values are `ok`, and tells such
values apart. -/
structure Projects (p : FlowProblem Node Value) (q : FlowProblem Node Value')
    (f : Value → Value') (ok : Value → Prop) : Prop where
  nodes_eq : q.nodes = p.nodes
  sources_eq : ∀ n, q.sources n = p.sources n
  targets_eq : ∀ n, q.targets n = p.targets n
  input : ∀ n, ok (p.initialInput n) ∧ f (p.initialInput n) = q.initialInput n
  output : ∀ n, ok (p.initialOutput n) ∧ f (p.initialOutput n) = q.initialOutput n
  combine : ∀ v w, ok v → ok w →
    ok (p.combine v w) ∧ f (p.combine v w) = q.combine (f v) (f w)
  transfer : ∀ v n, ok v → ok (p.transfer v n) ∧ f (p.transfer v n) = q.transfer (f v) n
  injective : ∀ v w, ok v → ok w → f v = f w → v = w

namespace Projects

variable (h : p.Projects q f ok)
include h

theorem closed : p.Closed (fun _ => ok) fun _ => ok where
  input n _ := (h.input n).1
  output n _ := (h.output n).1
  combine _ _ v w _ _ _ hv hw := (h.combine v w hv hw).1
  transfer n v _ hv := (h.transfer v n hv).1

theorem foldl_combine_eq {v : Value} {ws : List Value} (hv : ok v) (hws : ∀ w ∈ ws, ok w) :
    f (ws.foldl p.combine v) = (ws.map f).foldl q.combine (f v) := by
  induction ws generalizing v with
  | nil => rfl
  | cons w ws ih =>
    obtain ⟨hw, hws⟩ := List.forall_mem_cons.mp hws
    obtain ⟨hok, heq⟩ := h.combine v w hv hw
    rw [List.foldl_cons, ih hok hws, heq, List.map_cons, List.foldl_cons]

variable [DecidableEq Node]

theorem map_start : p.start.map f = q.start := by
  unfold start FlowState.map
  rw [h.nodes_eq, List.map_map]
  congr 1
  refine List.map_congr_left fun n _ => ?_
  simp [FlowCell.map, (h.input n).2, (h.output n).2]

theorem gather_eq (hs : s.Holds (fun _ => ok) fun _ => ok) {v : Value} (hv : ok v) :
    f (p.gather s n v) = q.gather (s.map f) n (f v) := by
  have hout : (q.sources n).filterMap (s.map f).output? =
      ((p.sources n).filterMap s.output?).map f := by
    rw [h.sources_eq, List.map_filterMap]
    exact congrArg (List.filterMap · _) (funext fun m => FlowState.output?_map)
  unfold gather
  rw [hout]
  refine h.foldl_combine_eq hv fun w hw => ?_
  obtain ⟨m, -, hm⟩ := List.mem_filterMap.mp hw
  exact (hs m w).2 hm

variable [DecidableEq Value] [DecidableEq Value']

theorem map_visit (hr : p.Reached s) (hs : s.Holds (fun _ => ok) fun _ => ok)
    (hc : s.cell? n = some c) : (p.visit s n rest).map f = q.visit (s.map f) n rest := by
  have hin : ok c.input := (hs n c.input).1 (FlowState.input?_of_cell? hc)
  have hout : ok c.output := (hs n c.output).2 (FlowState.output?_of_cell? hc)
  have hgather : ok (p.gather s n c.input) := h.closed.gather hr hs (hr.mem_of_cell? hc) hin
  obtain ⟨hok, htransfer⟩ := h.transfer (p.gather s n c.input) n hgather
  rw [h.gather_eq hs hin] at htransfer
  -- the result is new on one side if and only if it is new on the other
  have hnew : (c.map f).output = q.transfer (q.gather (s.map f) n (c.map f).input) n ↔
      c.output = p.transfer (p.gather s n c.input) n := by
    rw [FlowCell.map, ← htransfer]
    exact ⟨h.injective _ _ hout hok, congrArg f⟩
  have hsettle : (p.settle s n rest c).map f = q.settle (s.map f) n rest (c.map f) := by
    have hflag : ((c.map f).output != q.transfer (q.gather (s.map f) n (c.map f).input) n) =
        (c.output != p.transfer (p.gather s n c.input) n) := by
      rw [Bool.eq_iff_iff, bne_iff_ne, bne_iff_ne, Ne, Ne, hnew]
    unfold settle
    dsimp only
    rw [hflag]
    unfold FlowState.map
    rw [FlowState.map_setCell, List.map_append]
    simp only [FlowCell.map, List.map_cons, List.map_nil, Visit.map, htransfer,
      h.gather_eq hs hin]
    rfl
  rw [visit_eq hc, visit_eq (c := c.map f) (by rw [FlowState.cell?_map, hc]; rfl)]
  by_cases heq : c.output = p.transfer (p.gather s n c.input) n
  · rw [if_pos heq, if_pos (hnew.mpr heq), hsettle]
  · rw [if_neg heq, if_neg (mt hnew.mp heq), FlowState.map_foldl_enqueue, hsettle, h.targets_eq]

theorem map_run (budget : Nat) (hr : p.Reached s) (hs : s.Holds (fun _ => ok) fun _ => ok) :
    (p.run budget s).map f = q.run budget (s.map f) := by
  induction budget generalizing s with
  | zero => rfl
  | succ budget ih =>
    rw [run, run]
    cases hp : s.pending with
    | nil => rw [show (s.map f).pending = [] from hp]
    | cons n rest =>
      obtain ⟨c, hc⟩ := FlowState.exists_cell?_of_mem (hr.pending_mem n (hp ▸ List.mem_cons_self))
      rw [show (s.map f).pending = n :: rest from hp, ih (hr.visit hp hc) (h.closed.visit hr hs hc),
        h.map_visit hr hs hc]

theorem endsIn_map (he : p.EndsIn s) : q.EndsIn (s.map f) := by
  obtain ⟨hp, visits, rfl⟩ := he
  refine ⟨hp, visits, ?_⟩
  rw [h.map_run visits (reached_start p) h.closed.start, h.map_start]

end Projects

end FlowProblem

end Reversible
