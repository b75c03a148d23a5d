import Mathlib.Data.List.Nodup
import Mathlib.Data.List.Perm.Subperm
import Reversible.Flow.Solver

/-! # One visit of the worklist solver

What a visit does is said once, through the values at each node and the nodes that wait: it sets
the values of the visited node, keeps the others that wait, and makes the targets wait if the
result is new.
-/

namespace Reversible

variable {Node Value : Type} [DecidableEq Node]

namespace FlowState

def nodes (s : FlowState Node Value) : List Node := s.cells.map (·.node)

/-- Every node that waits has a cell, and every node that counts as queued waits. -/
structure Tidy (s : FlowState Node Value) : Prop where
  nodup : s.nodes.Nodup
  pending_mem : ∀ n ∈ s.pending, n ∈ s.nodes
  queued_mem : ∀ n ∈ s.queued, n ∈ s.pending
  queued_nodup : s.queued.Nodup

variable {s : FlowState Node Value} {n m : Node} {c : FlowCell Node Value}

theorem cell?_eq_none_iff : s.cell? n = none ↔ n ∉ s.nodes := by
  simp [cell?, nodes]

theorem isSome_cell?_iff : (s.cell? n).isSome ↔ n ∈ s.nodes := by
  rw [← not_iff_not, Bool.not_eq_true, Option.isSome_eq_false_iff, Option.isNone_iff_eq_none]
  exact cell?_eq_none_iff

theorem exists_cell?_of_mem (h : n ∈ s.nodes) : ∃ c, s.cell? n = some c :=
  Option.isSome_iff_exists.mp (isSome_cell?_iff.mpr h)

theorem mem_nodes_of_cell? (h : s.cell? n = some c) : n ∈ s.nodes :=
  isSome_cell?_iff.mp (by simp [h])

theorem mem_nodes_of_input? {v : Value} (h : s.input? n = some v) : n ∈ s.nodes := by
  obtain ⟨c, hc, -⟩ := Option.map_eq_some_iff.mp h
  exact mem_nodes_of_cell? hc

theorem mem_nodes_of_output? {v : Value} (h : s.output? n = some v) : n ∈ s.nodes := by
  obtain ⟨c, hc, -⟩ := Option.map_eq_some_iff.mp h
  exact mem_nodes_of_cell? hc

theorem Tidy.eq_of_node (h : s.Tidy) (hc : s.cell? n = some c) {d : FlowCell Node Value}
    (hd : d ∈ s.cells) (hn : d.node = n) : d = c := by
  have hcn : c.node = n := by simpa using List.find?_some hc
  exact List.inj_on_of_nodup_map h.nodup hd (List.mem_of_find?_eq_some hc) (hn.trans hcn.symm)

theorem input?_of_cell? (h : s.cell? n = some c) : s.input? n = some c.input := by
  rw [input?, h, Option.map_some]

theorem output?_of_cell? (h : s.cell? n = some c) : s.output? n = some c.output := by
  rw [output?, h, Option.map_some]

theorem find?_setCell (cells : List (FlowCell Node Value)) (new : FlowCell Node Value) (m : Node) :
    (setCell cells new).find? (·.node = m) =
      if m = new.node then (cells.find? (·.node = m)).map fun _ => new
      else cells.find? (·.node = m) := by
  induction cells with
  | nil => simp [setCell]
  | cons c rest ih =>
    rw [setCell] at ih ⊢
    by_cases hm : m = new.node
    · subst hm
      by_cases hc : c.node = new.node
      · simp [hc]
      · simpa [hc] using ih
    · by_cases hc : c.node = new.node
      · have hn : c.node ≠ m := fun h => hm (h.symm.trans hc)
        have hn' : new.node ≠ m := fun h => hm h.symm
        simpa [hc, hm, hn, hn'] using ih
      · by_cases hcm : c.node = m
        · simp [hm, hcm]
        · simpa [hc, hm, hcm] using ih

theorem map_node_setCell (cells : List (FlowCell Node Value)) (new : FlowCell Node Value) :
    (setCell cells new).map (·.node) = cells.map (·.node) := by
  rw [setCell, List.map_map]
  refine List.map_congr_left fun c _ => ?_
  by_cases hc : c.node = new.node
  · simp [hc]
  · simp [hc]

@[simp] theorem cells_enqueue (s : FlowState Node Value) (n : Node) :
    (s.enqueue n).cells = s.cells := by
  rw [enqueue]
  split <;> rfl

theorem Tidy.enqueue (h : s.Tidy) (n : Node) : (s.enqueue n).Tidy := by
  rw [FlowState.enqueue]
  split
  · next hn =>
    simp only [Bool.and_eq_true, isSome_cell?_iff, Bool.not_eq_true', List.contains_eq_mem,
      decide_eq_false_iff_not] at hn
    refine ⟨h.nodup, ?_, ?_, List.nodup_cons.mpr ⟨hn.2, h.queued_nodup⟩⟩
    · intro m hm
      rcases List.mem_append.mp hm with hm | hm
      · exact h.pending_mem m hm
      · obtain rfl := List.mem_singleton.mp hm
        exact hn.1
    · intro m hm
      rcases List.mem_cons.mp hm with rfl | hm
      · exact List.mem_append_right _ (List.mem_singleton.mpr rfl)
      · exact List.mem_append_left _ (h.queued_mem m hm)
  · exact h

theorem pending_prefix_enqueue (s : FlowState Node Value) (n : Node) :
    s.pending <+: (s.enqueue n).pending := by
  rw [FlowState.enqueue]
  split
  · exact List.prefix_append _ _
  · exact List.prefix_rfl

theorem mem_pending_enqueue (h : s.Tidy) (hn : n ∈ s.nodes) : n ∈ (s.enqueue n).pending := by
  rw [FlowState.enqueue]
  split
  · exact List.mem_append_right _ (List.mem_singleton.mpr rfl)
  · next hq =>
    rw [Bool.and_eq_true, isSome_cell?_iff] at hq
    have : n ∈ s.queued := by simpa [hn] using hq
    exact h.queued_mem n this

theorem length_pending_enqueue (s : FlowState Node Value) (n : Node) :
    (s.enqueue n).pending.length + s.queued.length =
      s.pending.length + (s.enqueue n).queued.length := by
  rw [FlowState.enqueue]
  split
  · simp only [List.length_append, List.length_cons, List.length_nil]
    omega
  · rfl

section EnqueueAll

variable (targets : List Node)

theorem cells_foldl_enqueue (s : FlowState Node Value) :
    (targets.foldl enqueue s).cells = s.cells := by
  induction targets generalizing s with
  | nil => rfl
  | cons t rest ih => rw [List.foldl_cons, ih, cells_enqueue]

theorem Tidy.foldl_enqueue (h : s.Tidy) : (targets.foldl FlowState.enqueue s).Tidy := by
  induction targets generalizing s with
  | nil => exact h
  | cons t rest ih => exact ih (h.enqueue t)

theorem pending_prefix_foldl_enqueue (s : FlowState Node Value) :
    s.pending <+: (targets.foldl enqueue s).pending := by
  induction targets generalizing s with
  | nil => exact List.prefix_rfl
  | cons t rest ih => exact (s.pending_prefix_enqueue t).trans (ih (s.enqueue t))

theorem mem_pending_foldl_enqueue (h : s.Tidy) (hm : m ∈ targets) (hn : m ∈ s.nodes) :
    m ∈ (targets.foldl enqueue s).pending := by
  induction targets generalizing s with
  | nil => simp at hm
  | cons t rest ih =>
    rcases List.mem_cons.mp hm with rfl | hm
    · exact (pending_prefix_foldl_enqueue rest _).subset (mem_pending_enqueue h hn)
    · refine ih (h.enqueue t) hm ?_
      rwa [nodes, cells_enqueue]

theorem length_pending_foldl_enqueue (s : FlowState Node Value) :
    (targets.foldl enqueue s).pending.length + s.queued.length =
      s.pending.length + (targets.foldl enqueue s).queued.length := by
  induction targets generalizing s with
  | nil => rfl
  | cons t rest ih =>
    have h₁ := ih (s.enqueue t)
    have h₂ := s.length_pending_enqueue t
    simp only [List.foldl_cons]
    omega

theorem length_pending_foldl_enqueue_le (h : s.Tidy) :
    (targets.foldl enqueue s).pending.length ≤ s.pending.length + s.nodes.length := by
  have hl := length_pending_foldl_enqueue targets s
  have ht := h.foldl_enqueue targets
  have hs : (targets.foldl enqueue s).queued ⊆ s.nodes := fun n hn => by
    have := ht.pending_mem n (ht.queued_mem n hn)
    rwa [nodes, cells_foldl_enqueue] at this
  have := (ht.queued_nodup.subperm hs).length_le
  omega

end EnqueueAll

end FlowState

namespace FlowProblem

theorem nodes_start (p : FlowProblem Node Value) : p.start.nodes = firsts id p.nodes := by
  rw [FlowState.nodes, start, List.map_map]
  exact List.map_id _

theorem tidy_start (p : FlowProblem Node Value) : p.start.Tidy where
  nodup := by
    rw [nodes_start]
    exact nodup_firsts _
  pending_mem n hn := by
    rw [nodes_start]
    exact mem_firsts.mpr hn
  queued_mem n hn := mem_firsts.mp hn
  queued_nodup := nodup_firsts _

theorem cell?_start (p : FlowProblem Node Value) {n : Node} (hn : n ∈ p.nodes) :
    p.start.cell? n = some ⟨n, p.initialInput n, p.initialOutput n⟩ := by
  have hn' : n ∈ p.start.nodes := by
    rw [nodes_start]
    exact mem_firsts.mpr hn
  obtain ⟨c, hc⟩ := FlowState.exists_cell?_of_mem hn'
  obtain ⟨m, -, rfl⟩ := List.mem_map.mp (List.mem_of_find?_eq_some hc)
  obtain rfl : m = n := by simpa using List.find?_some hc
  exact hc

variable [DecidableEq Value] {p : FlowProblem Node Value} {s : FlowState Node Value}
  {n m : Node} {rest : List Node} {c : FlowCell Node Value}

/-- The state after the values of a visited node are set, before its targets are put on the
worklist. -/
def settle (p : FlowProblem Node Value) (s : FlowState Node Value) (n : Node) (rest : List Node)
    (c : FlowCell Node Value) : FlowState Node Value :=
  let input := p.gather s n c.input
  let output := p.transfer input n
  { cells := FlowState.setCell s.cells ⟨n, input, output⟩
    pending := rest
    queued := s.queued.filter (· ≠ n)
    visits := s.visits ++ [⟨n, input, output, c.output != output⟩] }

theorem visit_eq (hc : s.cell? n = some c) :
    p.visit s n rest =
      if c.output = p.transfer (p.gather s n c.input) n then p.settle s n rest c
      else (p.targets n).foldl FlowState.enqueue (p.settle s n rest c) := by
  have hc' : ({ s with pending := rest, queued := s.queued.filter (· ≠ n) } :
    FlowState Node Value).cell? n = some c := hc
  rw [visit]
  simp only [hc']
  change (if c.output != p.transfer (p.gather s n c.input) n then
    (p.targets n).foldl FlowState.enqueue (p.settle s n rest c) else p.settle s n rest c) = _
  by_cases ho : c.output = p.transfer (p.gather s n c.input) n
  · rw [if_pos ho, if_neg (by simpa using ho)]
  · rw [if_neg ho, if_pos (by simpa using ho)]

theorem cells_visit (hc : s.cell? n = some c) :
    (p.visit s n rest).cells = FlowState.setCell s.cells
      ⟨n, p.gather s n c.input, p.transfer (p.gather s n c.input) n⟩ := by
  rw [visit_eq hc]
  split
  · rfl
  · rw [FlowState.cells_foldl_enqueue]
    rfl

theorem nodes_visit (hc : s.cell? n = some c) : (p.visit s n rest).nodes = s.nodes := by
  rw [FlowState.nodes, cells_visit hc, FlowState.map_node_setCell]
  rfl

theorem cell?_visit (hc : s.cell? n = some c) (m : Node) :
    (p.visit s n rest).cell? m =
      if m = n then some ⟨n, p.gather s n c.input, p.transfer (p.gather s n c.input) n⟩
      else s.cell? m := by
  rw [FlowState.cell?, cells_visit hc, FlowState.find?_setCell]
  by_cases hm : m = n
  · subst hm
    rw [FlowState.cell?] at hc
    simp [hc]
  · rw [if_neg hm, if_neg hm]
    rfl

theorem input?_visit (hc : s.cell? n = some c) (m : Node) :
    (p.visit s n rest).input? m = if m = n then some (p.gather s n c.input) else s.input? m := by
  rw [FlowState.input?, cell?_visit hc]
  split <;> rfl

theorem output?_visit (hc : s.cell? n = some c) (m : Node) :
    (p.visit s n rest).output? m =
      if m = n then some (p.transfer (p.gather s n c.input) n) else s.output? m := by
  rw [FlowState.output?, cell?_visit hc]
  split <;> rfl

theorem input?_visit_cases (hc : s.cell? n = some c) {v : Value}
    (hv : (p.visit s n rest).input? m = some v) :
    (m = n ∧ v = p.gather s n c.input) ∨ (m ≠ n ∧ s.input? m = some v) := by
  rw [input?_visit hc] at hv
  by_cases hm : m = n
  · rw [if_pos hm] at hv
    exact .inl ⟨hm, (Option.some.inj hv).symm⟩
  · rw [if_neg hm] at hv
    exact .inr ⟨hm, hv⟩

theorem output?_visit_cases (hc : s.cell? n = some c) {w : Value}
    (hw : (p.visit s n rest).output? m = some w) :
    (m = n ∧ w = p.transfer (p.gather s n c.input) n) ∨ (m ≠ n ∧ s.output? m = some w) := by
  rw [output?_visit hc] at hw
  by_cases hm : m = n
  · rw [if_pos hm] at hw
    exact .inl ⟨hm, (Option.some.inj hw).symm⟩
  · rw [if_neg hm] at hw
    exact .inr ⟨hm, hw⟩

theorem tidy_settle (h : s.Tidy) (hp : s.pending = n :: rest) : (p.settle s n rest c).Tidy := by
  have hn : (p.settle s n rest c).nodes = s.nodes := FlowState.map_node_setCell _ _
  refine ⟨hn ▸ h.nodup, ?_, ?_, h.queued_nodup.filter _⟩
  · intro m hm
    rw [hn]
    exact h.pending_mem m (hp ▸ List.mem_cons_of_mem n hm)
  · intro m hm
    obtain ⟨hm, hne⟩ := List.mem_filter.mp hm
    have := hp ▸ h.queued_mem m hm
    exact (List.mem_cons.mp this).resolve_left (by simpa using hne)

theorem tidy_visit (h : s.Tidy) (hp : s.pending = n :: rest) (hc : s.cell? n = some c) :
    (p.visit s n rest).Tidy := by
  rw [visit_eq hc]
  split
  · exact tidy_settle h hp
  · exact (tidy_settle h hp).foldl_enqueue _

theorem rest_prefix_pending_visit (hc : s.cell? n = some c) :
    rest <+: (p.visit s n rest).pending := by
  rw [visit_eq hc]
  split
  · exact List.prefix_rfl
  · exact FlowState.pending_prefix_foldl_enqueue _ (p.settle s n rest c)

theorem mem_pending_visit_of_mem_targets (h : s.Tidy) (hp : s.pending = n :: rest)
    (hc : s.cell? n = some c) (ho : c.output ≠ p.transfer (p.gather s n c.input) n)
    (ht : m ∈ p.targets n) (hm : m ∈ s.nodes) : m ∈ (p.visit s n rest).pending := by
  rw [visit_eq hc, if_neg ho]
  refine FlowState.mem_pending_foldl_enqueue _ (tidy_settle h hp) ht ?_
  rwa [FlowState.nodes, settle, FlowState.map_node_setCell]

theorem pending_visit_of_eq (hc : s.cell? n = some c)
    (ho : c.output = p.transfer (p.gather s n c.input) n) : (p.visit s n rest).pending = rest := by
  rw [visit_eq hc, if_pos ho]
  rfl

theorem length_pending_visit_le (h : s.Tidy) (hp : s.pending = n :: rest)
    (hc : s.cell? n = some c) :
    (p.visit s n rest).pending.length ≤ rest.length + s.nodes.length := by
  rw [visit_eq hc]
  split
  · exact Nat.le_add_right _ _
  · have hn : (p.settle s n rest c).nodes = s.nodes := FlowState.map_node_setCell _ _
    exact hn ▸ FlowState.length_pending_foldl_enqueue_le _ (tidy_settle h hp)

/-- What holds at the start and after each visit holds of every run. -/
theorem run_induction {I : FlowState Node Value → Prop} (hI : ∀ s, I s → s.Tidy)
    (hv : ∀ s n rest c, I s → s.pending = n :: rest → s.cell? n = some c → I (p.visit s n rest))
    (budget : Nat) (hs : I s) : I (p.run budget s) := by
  induction budget generalizing s with
  | zero => exact hs
  | succ budget ih =>
    rw [run]
    split
    · exact hs
    · next n rest hp =>
      have hn : n ∈ s.nodes := (hI s hs).pending_mem n (hp ▸ List.mem_cons_self)
      obtain ⟨c, hc⟩ := FlowState.exists_cell?_of_mem hn
      exact ih (hv s n rest c hs hp hc)

end FlowProblem

end Reversible
