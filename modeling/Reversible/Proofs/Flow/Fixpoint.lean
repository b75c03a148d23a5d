import Reversible.Proofs.Flow.Visit

/-! # The least solution

For a monotone problem the worklist solver approaches the least solution of the equations from
below. When no node waits it has reached it: what a node takes in is its initial value combined
with the results of its sources, and its result is transferred from that.
-/

namespace Reversible

variable {Node Value : Type}

namespace FlowProblem

/-- What the least solution needs: values that pass `ok` are ordered so that `combine` gives least
upper bounds, results are transferred monotonically and start at the bottom, and a node is a target
of each of its sources. -/
structure Lawful (p : FlowProblem Node Value) (le : Value → Value → Prop) (ok : Value → Prop) :
    Prop where
  refl : ∀ v, le v v
  trans : ∀ u v w, le u v → le v w → le u w
  antisymm : ∀ v w, le v w → le w v → v = w
  ok_input : ∀ n ∈ p.nodes, ok (p.initialInput n)
  ok_output : ∀ n ∈ p.nodes, ok (p.initialOutput n)
  ok_combine : ∀ v w, ok v → ok w → ok (p.combine v w)
  ok_transfer : ∀ n v, n ∈ p.nodes → ok v → ok (p.transfer v n)
  le_combine_left : ∀ v w, ok v → ok w → le v (p.combine v w)
  le_combine_right : ∀ v w, ok v → ok w → le w (p.combine v w)
  combine_le : ∀ u v w, le u w → le v w → le (p.combine u v) w
  transfer_le : ∀ n v w, n ∈ p.nodes → le v w → le (p.transfer v n) (p.transfer w n)
  output_le : ∀ n v, n ∈ p.nodes → ok v → le (p.initialOutput n) v
  mem_targets : ∀ m n, m ∈ p.nodes → n ∈ p.nodes → m ∈ p.sources n → n ∈ p.targets m

namespace Lawful

variable {p : FlowProblem Node Value} {le : Value → Value → Prop} {ok : Value → Prop}
  {u v : Value} {ws : List Value}

theorem foldl_combine_le (hL : p.Lawful le ok) (hv : le v u) (hw : ∀ w ∈ ws, le w u) :
    le (ws.foldl p.combine v) u := by
  induction ws generalizing v with
  | nil => exact hv
  | cons w ws ih =>
    apply ih (hL.combine_le v w u hv (hw w List.mem_cons_self))
    intro w' hw'
    exact hw w' (List.mem_cons_of_mem w hw')

theorem le_foldl_combine (hL : p.Lawful le ok) (hv : ok v) (hw : ∀ w ∈ ws, ok w) :
    le v (ws.foldl p.combine v) ∧ ∀ w ∈ ws, le w (ws.foldl p.combine v) := by
  induction ws generalizing v with
  | nil => exact ⟨hL.refl v, by simp⟩
  | cons w ws ih =>
    have hwv := hw w List.mem_cons_self
    obtain ⟨h₁, h₂⟩ := ih (hL.ok_combine v w hv hwv) fun w' hw' =>
      hw w' (List.mem_cons_of_mem w hw')
    constructor
    · exact hL.trans _ _ _ (hL.le_combine_left v w hv hwv) h₁
    · intro w' hw'
      rcases List.mem_cons.mp hw' with rfl | hw'
      · exact hL.trans _ _ _ (hL.le_combine_right v w' hv hwv) h₁
      · exact h₂ w' hw'

end Lawful

/-- The values that satisfy `P` before and `Q` after nodes include the initial ones and are closed
under the equations. -/
structure Closed (p : FlowProblem Node Value) (P Q : Node → Value → Prop) : Prop where
  input : ∀ n ∈ p.nodes, P n (p.initialInput n)
  output : ∀ n ∈ p.nodes, Q n (p.initialOutput n)
  combine : ∀ n m v w, n ∈ p.nodes → m ∈ p.nodes → m ∈ p.sources n → P n v → Q m w →
    P n (p.combine v w)
  transfer : ∀ n v, n ∈ p.nodes → P n v → Q n (p.transfer v n)

theorem Lawful.closed {p : FlowProblem Node Value} {le : Value → Value → Prop} {ok : Value → Prop}
    (hL : p.Lawful le ok) : p.Closed (fun _ => ok) (fun _ => ok) where
  input := hL.ok_input
  output := hL.ok_output
  combine _ _ v w _ _ _ := hL.ok_combine v w
  transfer := hL.ok_transfer

end FlowProblem

variable [DecidableEq Node]

namespace FlowState

/-- Every value before a node satisfies `P` and every value after it `Q`. -/
def Holds (P Q : Node → Value → Prop) (s : FlowState Node Value) : Prop :=
  ∀ n v, (s.input? n = some v → P n v) ∧ (s.output? n = some v → Q n v)

end FlowState

namespace FlowProblem

/-- A state that has a cell for each node of the problem. -/
structure Reached (p : FlowProblem Node Value) (s : FlowState Node Value) : Prop
    extends s.Tidy where
  nodes_eq : s.nodes = firsts id p.nodes

namespace Reached

variable {p : FlowProblem Node Value} {s : FlowState Node Value} {n : Node} {v : Value}

theorem mem_nodes_iff (h : p.Reached s) : n ∈ s.nodes ↔ n ∈ p.nodes := by
  rw [h.nodes_eq, mem_firsts]

theorem mem_of_output? (h : p.Reached s) (ho : s.output? n = some v) : n ∈ p.nodes :=
  h.mem_nodes_iff.mp (FlowState.mem_nodes_of_output? ho)

theorem mem_of_cell? {c : FlowCell Node Value} (h : p.Reached s) (hc : s.cell? n = some c) :
    n ∈ p.nodes :=
  h.mem_nodes_iff.mp (FlowState.mem_nodes_of_cell? hc)

theorem exists_values (h : p.Reached s) : ∃ ins outs : Node → Value,
    (∀ n, s.input? n = if n ∈ p.nodes then some (ins n) else none) ∧
      ∀ n, s.output? n = if n ∈ p.nodes then some (outs n) else none := by
  refine ⟨fun n => (s.input? n).getD (p.initialInput n),
    fun n => (s.output? n).getD (p.initialOutput n), ?_, ?_⟩
  · intro n
    split
    · next hn =>
      obtain ⟨c, hc⟩ := FlowState.exists_cell?_of_mem (h.mem_nodes_iff.mpr hn)
      simp [FlowState.input?_of_cell? hc]
    · next hn =>
      rw [FlowState.input?, FlowState.cell?_eq_none_iff.mpr (mt h.mem_nodes_iff.mp hn),
        Option.map_none]
  · intro n
    split
    · next hn =>
      obtain ⟨c, hc⟩ := FlowState.exists_cell?_of_mem (h.mem_nodes_iff.mpr hn)
      simp [FlowState.output?_of_cell? hc]
    · next hn =>
      rw [FlowState.output?, FlowState.cell?_eq_none_iff.mpr (mt h.mem_nodes_iff.mp hn),
        Option.map_none]

end Reached

variable {p : FlowProblem Node Value}

theorem reached_start (p : FlowProblem Node Value) : p.Reached p.start :=
  ⟨p.tidy_start, p.nodes_start⟩

theorem input?_start_eq {n : Node} {v : Value} (h : p.start.input? n = some v) :
    n ∈ p.nodes ∧ v = p.initialInput n := by
  have hn : n ∈ p.nodes :=
    (reached_start p).mem_nodes_iff.mp (FlowState.mem_nodes_of_input? h)
  rw [FlowState.input?, cell?_start p hn] at h
  exact ⟨hn, (Option.some.inj h).symm⟩

theorem output?_start_eq {n : Node} {v : Value} (h : p.start.output? n = some v) :
    n ∈ p.nodes ∧ v = p.initialOutput n := by
  have hn := (reached_start p).mem_of_output? h
  rw [FlowState.output?, cell?_start p hn] at h
  exact ⟨hn, (Option.some.inj h).symm⟩

variable {s : FlowState Node Value} {P Q : Node → Value → Prop}

theorem Closed.gather (hC : p.Closed P Q) (hr : p.Reached s) (h : s.Holds P Q) {n : Node}
    (hn : n ∈ p.nodes) {v : Value} (hv : P n v) : P n (p.gather s n v) := by
  have hl : ∀ l : List Node, (∀ m ∈ l, m ∈ p.sources n) → ∀ v, P n v →
      P n ((l.filterMap s.output?).foldl p.combine v) := by
    intro l
    induction l with
    | nil => exact fun _ v hv => hv
    | cons m l ih =>
      intro hm v hv
      have hm' := fun k hk => hm k (List.mem_cons_of_mem m hk)
      cases ho : s.output? m with
      | none => simpa [List.filterMap_cons, ho] using ih hm' v hv
      | some w =>
        have hw : P n (p.combine v w) := hC.combine n m v w hn (hr.mem_of_output? ho)
          (hm m List.mem_cons_self) hv ((h m w).2 ho)
        simpa [List.filterMap_cons, ho] using ih hm' _ hw
  exact hl (p.sources n) (fun _ hm => hm) v hv

theorem Closed.start (hC : p.Closed P Q) : p.start.Holds P Q := by
  intro n v
  constructor
  · intro hv
    obtain ⟨hn, rfl⟩ := input?_start_eq hv
    exact hC.input n hn
  · intro hv
    obtain ⟨hn, rfl⟩ := output?_start_eq hv
    exact hC.output n hn

variable {le : Value → Value → Prop} {ok : Value → Prop} {n : Node}

/-- How far the solver has come: values before nodes lie between the initial ones and the combined
results of the sources, and where a node does not wait its equations hold. -/
structure Settling (p : FlowProblem Node Value) (le : Value → Value → Prop) (ok : Value → Prop)
    (s : FlowState Node Value) : Prop extends p.Reached s where
  ok : s.Holds (fun _ => ok) fun _ => ok
  le_input : ∀ n v, s.input? n = some v → le (p.initialInput n) v
  input_le : ∀ n v u, s.input? n = some v → le (p.initialInput n) u →
    (∀ m ∈ p.sources n, ∀ w, s.output? m = some w → le w u) → le v u
  output_le : ∀ n v w, s.input? n = some v → s.output? n = some w → le w (p.transfer v n)
  output_eq : ∀ n v w, n ∉ s.pending → s.input? n = some v → s.output? n = some w →
    w = p.transfer v n
  source_le : ∀ n v m w, n ∉ s.pending → s.input? n = some v → m ∈ p.sources n →
    s.output? m = some w → le w v

theorem settling_start (hL : p.Lawful le ok) : p.Settling le ok p.start where
  toReached := reached_start p
  ok := hL.closed.start
  le_input n v hv := by
    obtain ⟨-, rfl⟩ := input?_start_eq hv
    exact hL.refl _
  input_le n v u hv hu _ := by
    obtain ⟨-, rfl⟩ := input?_start_eq hv
    exact hu
  output_le n v w hv hw := by
    obtain ⟨hn, rfl⟩ := input?_start_eq hv
    obtain ⟨-, rfl⟩ := output?_start_eq hw
    exact hL.output_le n _ hn (hL.ok_transfer n _ hn (hL.ok_input n hn))
  output_eq n v w hn hv _ := absurd (input?_start_eq hv).1 hn
  source_le n v m w hn hv _ _ := absurd (input?_start_eq hv).1 hn

theorem gather_le (hL : p.Lawful le ok) {u v : Value} (hv : le v u)
    (hs : ∀ m ∈ p.sources n, ∀ w, s.output? m = some w → le w u) : le (p.gather s n v) u := by
  refine hL.foldl_combine_le hv fun w hw => ?_
  obtain ⟨m, hm, ho⟩ := List.mem_filterMap.mp hw
  exact hs m hm w ho

theorem le_gather (hL : p.Lawful le ok) (h : s.Holds (fun _ => ok) fun _ => ok) {v : Value}
    (hv : ok v) : le v (p.gather s n v) ∧
      ∀ m ∈ p.sources n, ∀ w, s.output? m = some w → le w (p.gather s n v) := by
  have hw : ∀ w ∈ (p.sources n).filterMap s.output?, ok w := fun w hw => by
    obtain ⟨m, -, ho⟩ := List.mem_filterMap.mp hw
    exact (h m w).2 ho
  obtain ⟨h₁, h₂⟩ := hL.le_foldl_combine hv hw
  exact ⟨h₁, fun m hm w ho => h₂ w (List.mem_filterMap.mpr ⟨m, hm, ho⟩)⟩

theorem Settling.le_transfer_gather (h : p.Settling le ok s) (hL : p.Lawful le ok)
    {c : FlowCell Node Value} (hc : s.cell? n = some c) :
    le c.output (p.transfer (p.gather s n c.input) n) := by
  have hi := FlowState.input?_of_cell? hc
  refine hL.trans _ _ _ (h.output_le n _ _ hi (FlowState.output?_of_cell? hc)) ?_
  exact hL.transfer_le n _ _ (h.mem_of_cell? hc) (le_gather hL h.ok ((h.ok n _).1 hi)).1

theorem Settling.input_eq (h : p.Settling le ok s) (hL : p.Lawful le ok) (hp : s.pending = [])
    {v : Value} (hv : s.input? n = some v) : v = p.gather s n (p.initialInput n) := by
  have hn : n ∈ p.nodes := h.mem_nodes_iff.mp (FlowState.mem_nodes_of_input? hv)
  obtain ⟨hi, hs⟩ := le_gather (n := n) hL h.ok (hL.ok_input n hn)
  refine hL.antisymm _ _ (h.input_le n v _ hv hi hs) ?_
  exact gather_le hL (h.le_input n v hv) fun m hm w => h.source_le n v m w (by simp [hp]) hv hm

theorem Settling.equations (h : p.Settling le ok s) (hL : p.Lawful le ok) (hp : s.pending = [])
    {ins outs : Node → Value} (hn : n ∈ p.nodes)
    (hin : ∀ n, s.input? n = if n ∈ p.nodes then some (ins n) else none)
    (hout : ∀ n, s.output? n = if n ∈ p.nodes then some (outs n) else none) :
    ins n =
        (((p.sources n).filter (· ∈ p.nodes)).map outs).foldl p.combine (p.initialInput n) ∧
      outs n = p.transfer (ins n) n := by
  have hi : s.input? n = some (ins n) := by rw [hin, if_pos hn]
  have ho : s.output? n = some (outs n) := by rw [hout, if_pos hn]
  refine ⟨?_, h.output_eq n _ _ (by simp [hp]) hi ho⟩
  have hf : (p.sources n).filterMap s.output? =
      ((p.sources n).filter (· ∈ p.nodes)).map outs := by
    rw [← List.filterMap_eq_map, List.filterMap_filter]
    refine List.filterMap_congr fun m _ => ?_
    rw [hout]
    simp only [decide_eq_true_eq, Function.comp_apply]
  rw [h.input_eq hL hp hi, gather, hf]

variable [DecidableEq Value]

theorem Reached.visit {n : Node} {rest : List Node} {c : FlowCell Node Value} (h : p.Reached s)
    (hp : s.pending = n :: rest) (hc : s.cell? n = some c) : p.Reached (p.visit s n rest) :=
  ⟨tidy_visit h.toTidy hp hc, by rw [nodes_visit hc, h.nodes_eq]⟩

theorem Closed.visit (hC : p.Closed P Q) (hr : p.Reached s) (h : s.Holds P Q) {n : Node}
    {rest : List Node} {c : FlowCell Node Value} (hc : s.cell? n = some c) :
    (p.visit s n rest).Holds P Q := by
  have hn := hr.mem_of_cell? hc
  have hg := hC.gather hr h hn ((h n c.input).1 (FlowState.input?_of_cell? hc))
  intro m v
  constructor
  · intro hv
    rcases input?_visit_cases hc hv with ⟨rfl, rfl⟩ | ⟨-, hv⟩
    · exact hg
    · exact (h m v).1 hv
  · intro hv
    rcases output?_visit_cases hc hv with ⟨rfl, rfl⟩ | ⟨-, hv⟩
    · exact hC.transfer m _ hn hg
    · exact (h m v).2 hv

/-- What is closed under the equations holds of every value that the solver reaches. -/
theorem Closed.solve (hC : p.Closed P Q) (height : Nat) :
    p.Reached (p.solve height) ∧ (p.solve height).Holds P Q := by
  refine run_induction (I := fun s => p.Reached s ∧ s.Holds P Q) (fun s h => h.1.toTidy) ?_ _ ?_
  · rintro s n rest c ⟨hr, h⟩ hp hc
    exact ⟨hr.visit hp hc, hC.visit hr h hc⟩
  · exact ⟨reached_start p, hC.start⟩

/-- The result of each node that is not in `todo` is transferred from what the node took in. -/
def Transferred (p : FlowProblem Node Value) (s : FlowState Node Value) (todo : List Node) : Prop :=
  ∀ n v w, n ∉ todo → s.input? n = some v → s.output? n = some w → w = p.transfer v n

theorem Transferred.visit {todo rest : List Node} {c : FlowCell Node Value}
    (h : p.Transferred s (n :: todo)) (hc : s.cell? n = some c) :
    p.Transferred (p.visit s n rest) todo := by
  intro m v w hm hv hw
  rcases input?_visit_cases hc hv with ⟨rfl, rfl⟩ | ⟨hne, hv⟩
  · exact ((output?_visit_cases hc hw).resolve_right fun h => h.1 rfl).2
  · have hw := (output?_visit_cases hc hw).resolve_left fun h => hne h.1
    exact h m v w (List.not_mem_cons_of_ne_of_not_mem hne hm) hv hw.2

/-- When all nodes that wait at the front have been visited, every result is a transferred one, and
later visits keep it so. No order of values is needed for this, and no end of the run. -/
theorem Transferred.run {todo : List Node} {budget : Nat} (h : p.Transferred s todo) (hs : s.Tidy)
    (hp : todo <+: s.pending) (hb : todo.length ≤ budget) :
    p.Transferred (p.run budget s) [] := by
  induction budget generalizing s todo with
  | zero =>
    obtain rfl := List.length_eq_zero_iff.mp (Nat.le_zero.mp hb)
    exact h
  | succ budget ih =>
    rw [FlowProblem.run]
    split
    · next hnil =>
      rw [hnil, List.prefix_nil] at hp
      exact hp ▸ h
    · next n rest hn =>
      obtain ⟨c, hc⟩ := FlowState.exists_cell?_of_mem (hs.pending_mem n (hn ▸ List.mem_cons_self))
      have hfront : todo.tail <+: rest ∧ p.Transferred s (n :: todo.tail) := by
        cases todo with
        | nil => exact ⟨List.nil_prefix, fun m v w _ => h m v w List.not_mem_nil⟩
        | cons k todo =>
          obtain ⟨rfl, hp⟩ := List.cons_prefix_cons.mp (hn ▸ hp)
          exact ⟨hp, h⟩
      refine ih (hfront.2.visit hc) (tidy_visit hs hn hc)
        (hfront.1.trans (rest_prefix_pending_visit hc)) ?_
      rw [List.length_tail]
      omega

theorem transferred_solve (p : FlowProblem Node Value) (height : Nat) :
    p.Transferred (p.solve height) [] := by
  have hstart : p.Transferred p.start p.nodes := by
    intro n v w hn hv _
    exact absurd (input?_start_eq hv).1 hn
  exact hstart.run p.tidy_start List.prefix_rfl (Nat.le_mul_of_pos_right _ (Nat.succ_pos _))

theorem Settling.visit {rest : List Node} {c : FlowCell Node Value} (h : p.Settling le ok s)
    (hL : p.Lawful le ok) (hp : s.pending = n :: rest) (hc : s.cell? n = some c) :
    p.Settling le ok (p.visit s n rest) := by
  have hi := FlowState.input?_of_cell? hc
  have ho := FlowState.output?_of_cell? hc
  obtain ⟨hg, hgs⟩ := le_gather (n := n) hL h.ok ((h.ok n _).1 hi)
  have hwait : ∀ m, m ≠ n → m ∉ (p.visit s n rest).pending → m ∉ s.pending := by
    intro m hm hm' hmp
    exact hm' ((rest_prefix_pending_visit hc).subset
      ((List.mem_cons.mp (hp ▸ hmp)).resolve_left hm))
  refine ⟨h.toReached.visit hp hc, hL.closed.visit h.toReached h.ok hc, ?_, ?_, ?_, ?_, ?_⟩
  · intro m v hv
    rcases input?_visit_cases hc hv with ⟨rfl, rfl⟩ | ⟨-, hv⟩
    · exact hL.trans _ _ _ (h.le_input m _ hi) hg
    · exact h.le_input m v hv
  · intro m v u hv hu hs
    have hs' : ∀ k ∈ p.sources m, ∀ w, s.output? k = some w → le w u := by
      intro k hk w hw
      by_cases hkn : k = n
      · subst hkn
        obtain rfl := Option.some.inj (ho.symm.trans hw)
        have hnew := hs k hk _ (by rw [output?_visit hc, if_pos rfl])
        exact hL.trans _ _ _ (h.le_transfer_gather hL hc) hnew
      · exact hs k hk w (by rwa [output?_visit hc, if_neg hkn])
    rcases input?_visit_cases hc hv with ⟨rfl, rfl⟩ | ⟨-, hv⟩
    · exact gather_le hL (h.input_le m _ u hi hu hs') hs'
    · exact h.input_le m v u hv hu hs'
  · intro m v w hv hw
    rcases input?_visit_cases hc hv with ⟨rfl, rfl⟩ | ⟨hm, hv⟩
    · obtain ⟨-, rfl⟩ := (output?_visit_cases hc hw).resolve_right fun h => h.1 rfl
      exact hL.refl _
    · exact h.output_le m v w hv ((output?_visit_cases hc hw).resolve_left fun h => hm h.1).2
  · have hrest : p.Transferred (p.visit s n rest) rest :=
      Transferred.visit (fun m v w hm => h.output_eq m v w (hp ▸ hm)) hc
    exact fun m v w hmp => hrest m v w fun hm => hmp ((rest_prefix_pending_visit hc).subset hm)
  · intro m v k w hmp hv hk hw
    have hold : s.output? k = some w := by
      rcases output?_visit_cases hc hw with ⟨rfl, rfl⟩ | ⟨-, hw⟩
      · -- the result has not changed, since `m` reads it and does not wait
        by_contra hne
        have hm : m ∈ s.nodes := by
          have := FlowState.mem_nodes_of_input? hv
          rwa [nodes_visit hc] at this
        have ht := hL.mem_targets k m (h.mem_of_cell? hc) (h.mem_nodes_iff.mp hm) hk
        exact hmp (mem_pending_visit_of_mem_targets h.toTidy hp hc
          (fun he => hne (he ▸ ho)) ht hm)
      · exact hw
    rcases input?_visit_cases hc hv with ⟨rfl, rfl⟩ | ⟨hm, hv⟩
    · exact hgs k hk w hold
    · exact h.source_le m v k w (hwait m hm hmp) hv hk hold

theorem Settling.solve (hL : p.Lawful le ok) (height : Nat) :
    p.Settling le ok (p.solve height) :=
  run_induction (fun _ h => h.toTidy) (fun _ _ _ _ h hp hc => h.visit hL hp hc) _
    (settling_start hL)

theorem solve_le (hL : p.Lawful le ok) {ins outs : Node → Value} (height : Nat)
    (hi : ∀ n ∈ p.nodes, le (p.initialInput n) (ins n))
    (ho : ∀ n ∈ p.nodes, le (p.initialOutput n) (outs n))
    (hs : ∀ n ∈ p.nodes, ∀ m ∈ p.nodes, m ∈ p.sources n → le (outs m) (ins n))
    (ht : ∀ n ∈ p.nodes, le (p.transfer (ins n) n) (outs n)) :
    (p.solve height).Holds (fun n v => le v (ins n)) fun n w => le w (outs n) := by
  refine (Closed.solve ⟨hi, ho, ?_, ?_⟩ height).2
  · intro n m v w hn hmn hm hv hw
    exact hL.combine_le v w _ hv (hL.trans _ _ _ hw (hs n hn m hmn hm))
  · intro n v hn hv
    exact hL.trans _ _ _ (hL.transfer_le n v _ hn hv) (ht n hn)

end FlowProblem

end Reversible
