import Mathlib.Tactic.Common
import Reversible.Proofs.Occupancy.History

/-! # Routes and what is known after them

A route passes blocks, each a predecessor of the next, and may begin at any block. Taking its blocks
one after the other gives a single snapshot, which never comes into conflict. The snapshots of the
solver lie above those of all routes. As long as a leaf is not in conflict the solver knows nothing
else about it: each cause comes from some route. So a leaf comes into conflict only at a block where
one way to come in leaves it initialized and another one finalized.
-/

namespace Reversible

/-- The blocks `bs` lead to `b`, each a predecessor of the next. A route may begin at any block. -/
inductive ControlGraph.Route (g : ControlGraph) : List Nat → Nat → Prop where
  | start {b : Nat} : b ∈ g.ids → g.Route [b] b
  | step {bs : List Nat} {b c : Nat} : g.Route bs b → b ∈ g.predecessors c → g.Route (bs ++ [c]) c

theorem ControlGraph.Route.mem_ids {g : ControlGraph} {bs : List Nat} {b : Nat}
    (h : g.Route bs b) : b ∈ g.ids := by
  cases h with
  | start hb => exact hb
  | step _ hb => exact List.mem_range.mpr (lt_size_of_mem_predecessors hb).1

namespace OccupancyProblem

/-- What is known after some blocks, taken one after the other from where the first one begins. -/
def along (p : OccupancyProblem) : List Nat → Snapshot
  | [] => p.blank
  | b :: bs => (b :: bs).foldl p.transfer (p.initialIn b)

/-- What can be known on coming to a block: what is known where it begins, and what is known after
each route to a predecessor. -/
inductive Arrives (p : OccupancyProblem) (b : Nat) : Snapshot → Prop where
  | initial : p.Arrives b (p.initialIn b)
  | route {bs : List Nat} {c : Nat} :
      p.graph.Route bs c → c ∈ p.graph.predecessors b → p.Arrives b (p.along bs)

def Leaves (p : OccupancyProblem) (b : Nat) (s : Snapshot) : Prop :=
  ∃ bs, p.graph.Route bs b ∧ s = p.along bs

variable {p : OccupancyProblem} {bs : List Nat} {b c : Nat} {s : Snapshot}

theorem along_concat (h : p.graph.Route bs b) (c : Nat) :
    p.along (bs ++ [c]) = p.transfer (p.along bs) c := by
  have hne : bs ≠ [] := by cases h <;> simp
  obtain ⟨d, ds, rfl⟩ := List.exists_cons_of_ne_nil hne
  rw [along, List.cons_append, along, ← List.cons_append, List.foldl_concat]

theorem Arrives.leaves (h : p.Arrives b s) (hb : b ∈ p.graph.ids) :
    p.Leaves b (p.transfer s b) := by
  cases h with
  | initial => exact ⟨[b], .start hb, rfl⟩
  | route hr hc => exact ⟨_, hr.step hc, (along_concat hr b).symm⟩

theorem Leaves.arrives (h : p.Leaves c s) (hc : c ∈ p.graph.predecessors b) : p.Arrives b s := by
  obtain ⟨bs, hr, rfl⟩ := h
  exact .route hr hc

end OccupancyProblem

namespace Occupancy

variable {a b o : Occupancy} {op : Operation}

/-- The places at which some way last operates on a slot, by the kind of the operation. -/
def causes (o : Occupancy) : Operation → Causes
  | .initialization => o.initializers
  | .finalization => o.finalizers

@[simp] theorem causes_unknown (op : Operation) : unknown.causes op = ∅ := by cases op <;> rfl

@[simp] theorem causes_meet (a b : Occupancy) (op : Operation) :
    (a.meet b).causes op = a.causes op ∪ b.causes op := by
  cases op with
  | initialization => exact initializers_meet a b
  | finalization => exact finalizers_meet a b

theorem causes_subset (h : a ≤ b) (op : Operation) : a.causes op ⊆ b.causes op := by
  cases op with
  | initialization => exact initializers_subset h
  | finalization => exact finalizers_subset h

theorem isInitialized_of_mem {c : Span} (hc : c ∈ o.causes .initialization)
    (ho : ¬ o.isConflict) : o.isInitialized := by
  cases o <;> simp_all [causes, initializers, isInitialized, isConflict]

theorem isFinalized_of_mem {c : Span} (hc : c ∈ o.causes .finalization) (ho : ¬ o.isConflict) :
    o.isFinalized := by
  cases o <;> simp_all [causes, finalizers, isFinalized, isConflict]

theorem HasCauses.eq_unknown (h : o.HasCauses) (ho : ∀ op c, c ∉ o.causes op) : o = unknown := by
  have hi := ho .initialization
  have hf := ho .finalization
  cases o <;> simp_all [HasCauses, causes, initializers, finalizers]

end Occupancy

namespace SlotAction

variable {a : SlotAction} {o : Occupancy} {op : Operation} {c : Span} {s : Snapshot} {k : Nat}

@[simp] theorem isConflict_change (a : SlotAction) (o : Occupancy) :
    (a.change o).isConflict = o.isConflict := by
  cases a <;> cases o <;> rfl

theorem span_mem_causes_change (h : a.operation? = some op) (o : Occupancy) :
    a.span ∈ (a.change o).causes op := by
  cases a with
  | reading path span => cases h
  | finalizing path span =>
    obtain rfl := Option.some.inj h
    exact Occupancy.finalizers_subset (Occupancy.le_overwrite_finalized o _) span
      (SortedSet.mem_singleton.mpr rfl)
  | initializing path span =>
    obtain rfl := Option.some.inj h
    exact Occupancy.initializers_subset (Occupancy.le_overwrite_initialized o _) span
      (SortedSet.mem_singleton.mpr rfl)

theorem mem_causes_change_of_mem (h : a.operation? = some op) (hc : c ∈ o.causes op) :
    c ∈ (a.change o).causes op := by
  cases a with
  | reading path span => cases h
  | finalizing path span =>
    obtain rfl := Option.some.inj h
    cases o <;> simp_all [change, Occupancy.overwrite, Occupancy.finalizedAt, Occupancy.causes,
      Occupancy.finalizers]
  | initializing path span =>
    obtain rfl := Option.some.inj h
    cases o <;> simp_all [change, Occupancy.overwrite, Occupancy.initializedAt, Occupancy.causes,
      Occupancy.initializers]

theorem of_mem_causes_change (ho : ¬ o.isConflict) (ha : a.isReading = false)
    (hc : c ∈ (a.change o).causes op) :
    a.operation? = some op ∧ (c ∈ o.causes op ∨ c = a.span) := by
  cases a with
  | reading path place => cases ha
  | finalizing path place =>
    cases o <;> cases op <;> simp_all [change, Occupancy.overwrite, Occupancy.finalizedAt,
      Occupancy.causes, Occupancy.initializers, Occupancy.finalizers, Occupancy.isConflict,
      operation?, span]
  | initializing path place =>
    cases o <;> cases op <;> simp_all [change, Occupancy.overwrite, Occupancy.initializedAt,
      Occupancy.causes, Occupancy.initializers, Occupancy.finalizers, Occupancy.isConflict,
      operation?, span]

/-- Without a conflict, a cause after an action is there in whatever state the slot was, or it was
there before and would have stayed in any state. -/
theorem mem_causes_change (ho : ¬ o.isConflict) (hc : c ∈ (a.change o).causes op) :
    (∀ o', c ∈ (a.change o').causes op) ∨
      (c ∈ o.causes op ∧ ∀ o', c ∈ o'.causes op → c ∈ (a.change o').causes op) := by
  by_cases ha : a.isReading
  · cases a with
    | reading path span => exact .inr ⟨hc, fun _ h => h⟩
    | _ => cases ha
  · obtain ⟨hop, hc | rfl⟩ := of_mem_causes_change ho (by simpa using ha) hc
    · exact .inr ⟨hc, fun _ => mem_causes_change_of_mem hop⟩
    · exact .inl (span_mem_causes_change hop)

end SlotAction

namespace Snapshot

variable {s t : Snapshot} {k : Nat} {op : Operation} {c : Span} {known : Snapshot → Prop}
  {a : SlotAction}

/-- On some way the last operation on a leaf is `op`, at `c`. -/
def HasCause (s : Snapshot) (k : Nat) (op : Operation) (c : Span) : Prop :=
  ∃ o, s.values[k]? = some o ∧ c ∈ o.causes op

def Conflicts (s : Snapshot) (k : Nat) : Prop := ∃ o, s.values[k]? = some o ∧ o.isConflict

/-- Each cause for the state of a leaf is one in some snapshot that is `known`. -/
def Traced (s : Snapshot) (k : Nat) (known : Snapshot → Prop) : Prop :=
  ∀ op c, s.HasCause k op c → ∃ t, known t ∧ t.HasCause k op c

theorem HasCause.mono (h : s.Le t) (hs : Layout.shape s = Layout.shape t)
    (hc : s.HasCause k op c) : t.HasCause k op c := by
  obtain ⟨o, ho, hm⟩ := hc
  obtain ⟨o', ho', hle⟩ := h.getElem? hs ho
  exact ⟨o', ho', Occupancy.causes_subset hle op c hm⟩

theorem Conflicts.mono (h : s.Le t) (hs : Layout.shape s = Layout.shape t) (hc : s.Conflicts k) :
    t.Conflicts k := by
  obtain ⟨o, ho, hm⟩ := hc
  obtain ⟨o', ho', hle⟩ := h.getElem? hs ho
  refine ⟨o', ho', ?_⟩
  rcases Occupancy.le_cases hle with rfl | ⟨_, _, rfl, rfl, -⟩ | ⟨_, _, rfl, rfl, -⟩ |
    ⟨_, _, _, rfl, rfl, -⟩ | ⟨_, _, _, rfl, rfl, -⟩ | ⟨_, _, _, _, rfl, rfl, -, -⟩
  all_goals simp_all [Occupancy.isConflict]

theorem Conflicts.exists_hasCause (h : s.Conflicts k) (hs : s.HasCauses) (op : Operation) :
    ∃ c, s.HasCause k op c := by
  obtain ⟨o, ho, hc⟩ := h
  obtain ⟨⟨c, hc⟩, d, hd⟩ := (Occupancy.isConflict_iff (hs o (List.mem_of_getElem? ho))).mp hc
  cases op with
  | initialization => exact ⟨c, o, ho, hc⟩
  | finalization => exact ⟨d, o, ho, hd⟩

theorem not_hasCause_blank {l : Layout Ty} : ¬ HasCause (l.map fun _ => .unknown) k op c := by
  rintro ⟨o, ho, hc⟩
  rw [Layout.values_map, List.getElem?_map, Option.map_eq_some_iff] at ho
  obtain ⟨v, -, rfl⟩ := ho
  simp at hc

theorem not_conflicts_blank {l : Layout Ty} : ¬ Conflicts (l.map fun _ => .unknown) k := by
  rintro ⟨o, ho, hc⟩
  rw [Layout.values_map, List.getElem?_map, Option.map_eq_some_iff] at ho
  obtain ⟨v, -, rfl⟩ := ho
  cases hc

theorem conflicts_apply_iff : Conflicts (a.apply s) k ↔ s.Conflicts k := by
  rw [Conflicts, SlotAction.getElem?_values_apply]
  split
  · constructor
    · rintro ⟨o, ho, hc⟩
      obtain ⟨o', ho', rfl⟩ := Option.map_eq_some_iff.mp ho
      exact ⟨o', ho', by rwa [SlotAction.isConflict_change] at hc⟩
    · rintro ⟨o, ho, hc⟩
      exact ⟨a.change o, by rw [ho, Option.map_some], by rwa [SlotAction.isConflict_change]⟩
  · rfl

theorem conflicts_foldl_apply_iff (acts : List SlotAction) :
    Conflicts (acts.foldl SlotAction.apply s) k ↔ s.Conflicts k := by
  induction acts generalizing s with
  | nil => rfl
  | cons a acts ih => exact ih.trans conflicts_apply_iff

theorem Traced.meet (h : Layout.shape s = Layout.shape t) (hs : s.Traced k known)
    (ht : t.Traced k known) : (s.meet t).Traced k known := by
  rintro op c ⟨o, ho, hc⟩
  obtain ⟨a, b, ha, hb, rfl⟩ := exists_of_getElem?_meet h ho
  rw [Occupancy.causes_meet, SortedSet.mem_union] at hc
  rcases hc with hc | hc
  · exact hs op c ⟨a, ha, hc⟩
  · exact ht op c ⟨b, hb, hc⟩

/-- An action on a leaf that is not in conflict takes each cause with it from the snapshot where it
is known, and adds its own to all of them. -/
theorem Traced.apply (h : s.Traced k known) (hs : ¬ s.Conflicts k)
    (hk : ∀ t, known t → Layout.shape t = Layout.shape s) (hne : ∃ t, known t) :
    Traced (a.apply s) k fun u => ∃ t, known t ∧ u = a.apply t := by
  rintro op c ⟨o, ho, hc⟩
  by_cases hl : k ∈ Layout.leavesAt s a.path
  · have hmem : ∀ t, known t → k ∈ Layout.leavesAt t a.path := fun t ht => by
      rwa [Layout.leavesAt_congr (hk t ht)]
    obtain ⟨o', ho', hchange⟩ := SlotAction.exists_getElem?_of_mem hl
    obtain rfl := Option.some.inj (hchange.symm.trans ho)
    rcases SlotAction.mem_causes_change (fun hc => hs ⟨o', ho', hc⟩) hc with hall | ⟨hc, hkeep⟩
    · obtain ⟨t, ht⟩ := hne
      obtain ⟨o₁, -, hv⟩ := SlotAction.exists_getElem?_of_mem (hmem t ht)
      exact ⟨_, ⟨t, ht, rfl⟩, _, hv, hall o₁⟩
    · obtain ⟨t, ht, o₁, ho₁, hc₁⟩ := h op c ⟨o', ho', hc⟩
      obtain ⟨o₂, ho₂, hv⟩ := SlotAction.exists_getElem?_of_mem (hmem t ht)
      obtain rfl := Option.some.inj (ho₁.symm.trans ho₂)
      exact ⟨_, ⟨t, ht, rfl⟩, _, hv, hkeep o₁ hc₁⟩
  · rw [SlotAction.getElem?_values_apply_of_not_mem hl] at ho
    obtain ⟨t, ht, o₁, ho₁, hc₁⟩ := h op c ⟨o, ho, hc⟩
    refine ⟨_, ⟨t, ht, rfl⟩, o₁, ?_, hc₁⟩
    rwa [SlotAction.getElem?_values_apply_of_not_mem (by rwa [Layout.leavesAt_congr (hk t ht)])]

theorem Traced.foldl_apply (h : s.Traced k known) (hs : ¬ s.Conflicts k)
    (hk : ∀ t, known t → Layout.shape t = Layout.shape s) (hne : ∃ t, known t)
    (acts : List SlotAction) :
    Traced (acts.foldl SlotAction.apply s) k fun u =>
      ∃ t, known t ∧ u = acts.foldl SlotAction.apply t := by
  induction acts generalizing s known with
  | nil => simpa using h
  | cons a acts ih =>
    obtain ⟨t, ht⟩ := hne
    have := ih (h.apply (a := a) hs hk ⟨t, ht⟩) (mt conflicts_apply_iff.mp hs) ?_ ⟨_, t, ht, rfl⟩
    · simpa using this
    · rintro _ ⟨u, hu, rfl⟩
      rw [SlotAction.shape_apply, SlotAction.shape_apply, hk u hu]

end Snapshot

namespace Routine

variable {r : Routine} {env : Environment} {l : Layout Ty} {p : OccupancyProblem}
  {ins outs : Nat → Snapshot} {bs : List Nat} {b c k : Nat} {s : Snapshot} {op : Operation}

theorem exists_layout_of_occupancyProblem (hp : r.occupancyProblem env = .ok p) :
    ∃ l, env.layout = .ok l ∧ p = r.problem l :=
  OccupancyProblem.exists_layout_of_build hp

/-- What holds where blocks begin, and is kept by actions, holds after every route. -/
theorem along_induction {P : Snapshot → Prop} (hi : ∀ b, P ((r.problem l).initialIn b))
    (ha : ∀ (acts : List SlotAction) s, P s → P (acts.foldl SlotAction.apply s))
    (hr : (r.problem l).graph.Route bs b) : P ((r.problem l).along bs) := by
  induction hr with
  | start hb => exact ha _ _ (hi _)
  | step hr hc ih =>
    rw [OccupancyProblem.along_concat hr]
    exact ha _ _ ih

theorem shape_initialIn (b : Nat) : Layout.shape ((r.problem l).initialIn b) = l.shape := by
  rw [OccupancyProblem.initialIn]
  split
  · exact (SlotAction.shape_foldl_apply _ _).trans (Layout.shape_map _ l)
  · exact Layout.shape_map _ l

theorem shape_along (hr : (r.problem l).graph.Route bs b) :
    Layout.shape ((r.problem l).along bs) = l.shape :=
  along_induction (P := fun s => Layout.shape s = l.shape) shape_initialIn
    (fun acts s hs => (SlotAction.shape_foldl_apply acts s).trans hs) hr

theorem shape_of_arrives (hs : (r.problem l).Arrives b s) : Layout.shape s = l.shape := by
  cases hs with
  | initial => exact shape_initialIn b
  | route hr _ => exact shape_along hr

theorem not_conflicts_initialIn (b : Nat) : ¬ ((r.problem l).initialIn b).Conflicts k := by
  rw [OccupancyProblem.initialIn]
  split
  · exact mt (Snapshot.conflicts_foldl_apply_iff _).mp Snapshot.not_conflicts_blank
  · exact Snapshot.not_conflicts_blank

theorem not_conflicts_of_arrives (hs : (r.problem l).Arrives b s) : ¬ s.Conflicts k := by
  cases hs with
  | initial => exact not_conflicts_initialIn b
  | route hr _ =>
    exact along_induction (P := fun s => ¬ s.Conflicts k) not_conflicts_initialIn
      (fun acts s hs => mt (Snapshot.conflicts_foldl_apply_iff acts).mp hs) hr

/-- As long as a leaf is not in conflict before any block, it is not in conflict after one either,
and all that the solver knows about it can be traced to routes. -/
theorem closed_traced {I O : Nat → Snapshot → Prop} (hC : (r.problem l).flow.Closed I O)
    (hI : ∀ b s, I b s → Layout.shape s = l.shape) (hO : ∀ b s, O b s → Layout.shape s = l.shape)
    (hno : ∀ b s, b ∈ (r.problem l).graph.ids → I b s → s.Traced k ((r.problem l).Arrives b) →
      ¬ s.Conflicts k) :
    (r.problem l).flow.Closed (fun b s => I b s ∧ s.Traced k ((r.problem l).Arrives b))
      (fun b s => O b s ∧ ¬ s.Conflicts k ∧ s.Traced k ((r.problem l).Leaves b)) := by
  constructor
  · intro b hb
    exact ⟨hC.input b hb, fun op c hc => ⟨_, .initial, hc⟩⟩
  · intro b hb
    exact ⟨hC.output b hb, Snapshot.not_conflicts_blank,
      fun op c hc => absurd hc Snapshot.not_hasCause_blank⟩
  · rintro b c s t hb hc hcb ⟨hs, hst⟩ ⟨ht, -, htt⟩
    refine ⟨hC.combine b c s t hb hc hcb hs ht, hst.meet ((hI b s hs).trans (hO c t ht).symm) ?_⟩
    intro op d hd
    obtain ⟨u, hu, hd⟩ := htt op d hd
    exact ⟨u, hu.arrives hcb, hd⟩
  · rintro b s hb ⟨hs, hst⟩
    have hsc := hno b s hb hs hst
    refine ⟨hC.transfer b s hb hs, mt (Snapshot.conflicts_foldl_apply_iff _).mp hsc, ?_⟩
    intro op d hd
    have htr := hst.foldl_apply hsc (fun t ht => (shape_of_arrives ht).trans (hI b s hs).symm)
      ⟨_, .initial⟩ ((r.problem l).actions b)
    obtain ⟨_, ⟨t, ht, rfl⟩, hd⟩ := htr op d hd
    exact ⟨_, ht.leaves hb, hd⟩

section Solution

variable (h : (r.problem l).Solves ins outs)
include h

theorem conflicts_ins_iff (hb : b ∈ (ControlGraph.ofRoutine r).ids) :
    (ins b).Conflicts k ↔ (outs b).Conflicts k := by
  rw [(h.satisfies b hb).2]
  exact (Snapshot.conflicts_foldl_apply_iff _).symm

/-- A route adds nothing to the snapshot after the block it leads to. -/
theorem along_le (hg : ControlGraph.faults r = []) (hr : (r.problem l).graph.Route bs b) :
    ((r.problem l).along bs).Le (outs b) := by
  induction hr with
  | @start b hb =>
    rw [(h.satisfies b hb).2]
    exact (h.initialIn_le hb).foldl_apply _
  | @step bs b c hr hc ih =>
    have hb := (hr.step hc).mem_ids
    rw [OccupancyProblem.along_concat hr, (h.satisfies c hb).2]
    have hle := h.pred_le hb (ControlGraph.mem_successors_of_mem_predecessors hg) hc
    exact (ih.trans hle).foldl_apply _

theorem closed_le (hg : ControlGraph.faults r = []) :
    (r.problem l).flow.Closed (fun b s => Layout.shape s = l.shape ∧ s.Le (ins b))
      (fun b s => Layout.shape s = l.shape ∧ s.Le (outs b)) := by
  have hC := closed_hasCauses (r := r) (l := l)
  have hlink := ControlGraph.mem_successors_of_mem_predecessors hg
  have hL : (r.problem l).flow.Lawful Snapshot.Le _ := OccupancyProblem.lawful_admits hlink
  constructor
  · intro b hb
    exact ⟨(hC.input b hb).1, h.initialIn_le hb⟩
  · intro b hb
    refine ⟨(hC.output b hb).1, ?_⟩
    exact Layout.map_le_of_shape (fun _ => Occupancy.unknown_le) (outs_hasCauses h hb).1.symm
  · rintro b c s t hb hc hcb ⟨hs, hsle⟩ ⟨ht, htle⟩
    refine ⟨(Layout.shape_zipWith _ (hs.trans ht.symm)).trans hs, ?_⟩
    exact hL.combine_le s t _ hsle (htle.trans (h.pred_le hb hlink hcb))
  · rintro b s hb ⟨hs, hle⟩
    refine ⟨(SlotAction.shape_foldl_apply _ _).trans hs, ?_⟩
    rw [(h.satisfies b hb).2]
    exact hle.foldl_apply _

/-- If a leaf is in conflict after no block, the solver knows only what the routes know about it. -/
theorem traced_outs (hg : ControlGraph.faults r = [])
    (hno : ∀ b ∈ (r.problem l).graph.ids, ¬ (outs b).Conflicts k)
    (hb : b ∈ (r.problem l).graph.ids) : (outs b).Traced k ((r.problem l).Leaves b) := by
  have hC := closed_traced (k := k) (closed_le h hg) (fun _ _ h => h.1) (fun _ _ h => h.1) <| by
    rintro b s hb ⟨hs, hle⟩ - hc
    have hins := hc.mono hle (hs.trans (ins_hasCauses h hb).1.symm)
    exact hno b hb ((conflicts_ins_iff h hb).mp hins)
  exact (h.of_closed hb hC).2.2.2

end Solution

/-- The solution and the routes of a routine. After each block the solution lies above what is known
after any route to it. If a leaf is in conflict after no block, the solution is exact: the causes
for the state of the leaf are those that it has after the routes to the block, and nothing is known
about it if and only if nothing is known about it after any of these routes. -/
theorem solution_exact (hg : ControlGraph.faults r = []) (hp : r.occupancyProblem env = .ok p) :
    ∃ ins outs, p.Solves ins outs ∧
      (∀ bs b, p.graph.Route bs b → (p.along bs).meet (outs b) = outs b) ∧
      ∀ k, (∀ b ∈ p.graph.ids, ¬ (outs b).Conflicts k) → ∀ b ∈ p.graph.ids,
        (∀ op c, (outs b).HasCause k op c ↔
          ∃ bs, p.graph.Route bs b ∧ (p.along bs).HasCause k op c) ∧
        ((outs b).values[k]? = some .unknown ↔
          ∀ bs, p.graph.Route bs b → (p.along bs).values[k]? = some .unknown) := by
  obtain ⟨l, -, rfl⟩ := exists_layout_of_occupancyProblem hp
  obtain ⟨ins, outs, h⟩ := r.exists_solves_problem l hg
  have hle : ∀ bs b, (r.problem l).graph.Route bs b → ((r.problem l).along bs).Le (outs b) :=
    fun _ _ hr => along_le h hg hr
  refine ⟨ins, outs, h, fun bs b hr => Snapshot.le_iff_meet.mp (hle bs b hr), ?_⟩
  intro k hno b hb
  have hshape : ∀ bs, (r.problem l).graph.Route bs b →
      Layout.shape ((r.problem l).along bs) = Layout.shape (outs b) := fun bs hr =>
    (shape_along hr).trans (outs_hasCauses h hb).1.symm
  have hcause : ∀ op c, (outs b).HasCause k op c ↔
      ∃ bs, (r.problem l).graph.Route bs b ∧ ((r.problem l).along bs).HasCause k op c := by
    intro op c
    constructor
    · intro hc
      obtain ⟨_, ⟨bs, hr, rfl⟩, hc⟩ := traced_outs h hg hno hb op c hc
      exact ⟨bs, hr, hc⟩
    · rintro ⟨bs, hr, hc⟩
      exact hc.mono (hle bs b hr) (hshape bs hr)
  refine ⟨hcause, ?_, ?_⟩
  · intro hu bs hr
    obtain ⟨o, ho⟩ := Layout.exists_getElem?_of_shape (hshape bs hr).symm hu
    obtain ⟨o', ho', hoo⟩ := (hle bs b hr).getElem? (hshape bs hr) ho
    obtain rfl := Option.some.inj (hu.symm.trans ho')
    rw [ho, ← Occupancy.le_iff_meet.mp hoo, Occupancy.meet_unknown]
  · intro hall
    have hb' := (ControlGraph.Route.start hb : (r.problem l).graph.Route [b] b)
    obtain ⟨o, ho⟩ := Layout.exists_getElem?_of_shape (hshape [b] hb') (hall [b] hb')
    have hnone : o = .unknown := by
      refine ((outs_hasCauses h hb).2 o (List.mem_of_getElem? ho)).eq_unknown fun op c hc => ?_
      obtain ⟨bs, hr, o', ho', hc⟩ := (hcause op c).mp ⟨o, ho, hc⟩
      obtain rfl := Option.some.inj ((hall bs hr).symm.trans ho')
      simp at hc
    rw [ho, hnone]

end Routine

/-- The first member of the pair is put back at one place only, and a route goes through it. -/
theorem Carry.solution_exact_carry :
    ControlGraph.faults routine = [] ∧ ∃ p, routine.occupancyProblem env = .ok p ∧
      ∃ ins outs, p.Solves ins outs ∧ (∀ b ∈ p.graph.ids, ¬ (outs b).Conflicts 0) ∧
        (p.along [0, 1, 1]).meet (outs 1) = outs 1 ∧
        ∃ bs, p.graph.Route bs 1 ∧ (p.along bs).HasCause 0 .initialization (Sample.span 7) := by
  have hl : env.layout = .ok layout := by decide +kernel
  have hg : ControlGraph.faults routine = [] := by decide +kernel
  have hp : routine.occupancyProblem env = .ok (routine.problem layout) :=
    (OccupancyProblem.build_eq_ok_iff hl).mpr ⟨by decide +kernel, rfl⟩
  obtain ⟨ins, outs, h, hle, hexact⟩ := Routine.solution_exact hg hp
  have hfree : ∀ b ∈ (routine.problem layout).graph.ids, ¬ (outs b).Conflicts 0 := by
    have hout : ∀ b ∈ (routine.problem layout).graph.ids,
        ((routine.problem layout).solve.output? b).all fun t =>
          !t.values[0]?.any (·.isConflict) := by
      decide +kernel
    rintro b hb ⟨o, ho, hc⟩
    have := hout b hb
    rw [h.output?_eq, if_pos hb] at this
    simp [ho, hc] at this
  refine ⟨hg, _, hp, ins, outs, h, hfree, ?_, ?_⟩
  · exact hle _ _ (((ControlGraph.Route.start (by decide +kernel)).step (by decide +kernel)).step
      (by decide +kernel))
  · have h1 : 1 ∈ (routine.problem layout).graph.ids := by decide +kernel
    refine ((hexact 0 hfree 1 h1).1 .initialization (Sample.span 7)).mp ?_
    have hout : ((routine.problem layout).solve.output? 1).any
        fun t => t.values[0]?.any fun o => Sample.span 7 ∈ o.causes .initialization := by
      decide +kernel
    rw [h.output?_eq, if_pos h1, Option.any_some, Option.any_eq_true] at hout
    obtain ⟨o, ho, hc⟩ := hout
    exact ⟨o, ho, of_decide_eq_true hc⟩

namespace Routine

variable {r : Routine} {env : Environment} {p : OccupancyProblem} {b k : Nat} {s : Snapshot}

/-- A leaf is in conflict before or after some block only if it can come to some block initialized
and to the same block finalized. -/
theorem conflict_arises (hp : r.occupancyProblem env = .ok p)
    (hs : p.solve.input? b = some s ∨ p.solve.output? b = some s) (hc : s.Conflicts k) :
    ∃ c ∈ p.graph.ids, ∃ s₁ s₂, p.Arrives c s₁ ∧ p.Arrives c s₂ ∧
      (∃ o, s₁.values[k]? = some o ∧ o.isInitialized) ∧
      ∃ o, s₂.values[k]? = some o ∧ o.isFinalized := by
  obtain ⟨l, -, rfl⟩ := exists_layout_of_occupancyProblem hp
  by_contra hno
  -- a conflict has causes of both kinds, and each of them can be traced to a way to come in
  have hfree : ∀ (b : Nat) (s : Snapshot), b ∈ (r.problem l).graph.ids →
      Layout.shape s = l.shape ∧ s.HasCauses →
      s.Traced k ((r.problem l).Arrives b) → ¬ s.Conflicts k := by
    rintro b s hb ⟨-, hs⟩ ht hc
    obtain ⟨c₁, hc₁⟩ := hc.exists_hasCause hs .initialization
    obtain ⟨c₂, hc₂⟩ := hc.exists_hasCause hs .finalization
    obtain ⟨s₁, ha₁, o₁, ho₁, hm₁⟩ := ht _ c₁ hc₁
    obtain ⟨s₂, ha₂, o₂, ho₂, hm₂⟩ := ht _ c₂ hc₂
    refine hno ⟨b, hb, s₁, s₂, ha₁, ha₂, ⟨o₁, ho₁, ?_⟩, o₂, ho₂, ?_⟩
    · exact Occupancy.isInitialized_of_mem hm₁ fun hc => not_conflicts_of_arrives ha₁ ⟨o₁, ho₁, hc⟩
    · exact Occupancy.isFinalized_of_mem hm₂ fun hc => not_conflicts_of_arrives ha₂ ⟨o₂, ho₂, hc⟩
  obtain ⟨hreach, hall⟩ := (closed_traced closed_hasCauses (fun _ _ h => h.1) (fun _ _ h => h.1)
    hfree).solve (r.problem l).height
  rcases hs with hs | hs
  · obtain ⟨hs', ht⟩ := (hall b s).1 hs
    have hb : b ∈ (r.problem l).graph.ids :=
      hreach.mem_nodes_iff.mp (FlowState.mem_nodes_of_input? hs)
    exact hfree b s hb hs' ht hc
  · exact ((hall b s).2 hs).2.1 hc

end Routine

namespace Clash

open Sample (span slot condition)

/-- One branch finalizes the input `p`, the other leaves it alone. -/
def routine : Routine where
  id := ⟨"clash", span 0⟩
  inputs := [⟨⟨"p", span 1⟩, none, span 1⟩]
  outputs := []
  body := [
    .branch .forward ⟨"take", span 2⟩ ⟨"keep", span 2⟩ (condition 2) (span 2),
    .jump .backward ⟨"take", span 3⟩ (span 3),
    .assign (.int 5 (span 4)) (slot "p" 5) none (span 4),
    .jump .forward ⟨"taken", span 6⟩ (span 6),
    .jump .backward ⟨"keep", span 7⟩ (span 7),
    .jump .forward ⟨"kept", span 8⟩ (span 8),
    .branch .backward ⟨"taken", span 9⟩ ⟨"kept", span 9⟩ (condition 9) (span 9)]
  span := span 0

def env : Environment where
  types := ∅
  vars := (∅ : NameMap Ty).insert "p" .int

def layout : Layout Ty := .leaf "p" .int .nil

theorem conflict_arises_clash : ∃ p, routine.occupancyProblem env = .ok p ∧
    ∃ s, p.solve.output? 3 = some s ∧ s.Conflicts 0 ∧
      ∃ c ∈ p.graph.ids, ∃ s₁ s₂, p.Arrives c s₁ ∧ p.Arrives c s₂ ∧
        (∃ o, s₁.values[0]? = some o ∧ o.isInitialized) ∧
        ∃ o, s₂.values[0]? = some o ∧ o.isFinalized := by
  have hl : env.layout = .ok layout := by decide +kernel
  have hp : routine.occupancyProblem env = .ok (routine.problem layout) :=
    (OccupancyProblem.build_eq_ok_iff hl).mpr ⟨by decide +kernel, rfl⟩
  have hout : ((routine.problem layout).solve.output? 3).any
      fun t => t.values[0]?.any (·.isConflict) := by
    decide +kernel
  obtain ⟨s, hs, hout⟩ := (Option.any_eq_true _ _).mp hout
  have hc : s.Conflicts 0 := (Option.any_eq_true _ _).mp hout
  exact ⟨_, hp, s, hs, hc, Routine.conflict_arises hp (.inr hs) hc⟩

end Clash

end Reversible
