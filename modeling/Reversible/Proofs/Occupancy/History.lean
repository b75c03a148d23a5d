import Reversible.Proofs.Verify.Silence

/-! # Walks and the history of a leaf

A walk passes blocks from the first one on, each a predecessor of the next. Along it a leaf is
initialized and finalized in turn: that is its history. The snapshots of the solver cover every
walk: where a walk ends with an initialization of a leaf, the snapshot knows a way that initializes
it, and likewise for a finalization.
-/

namespace Reversible

inductive Operation where
  | initialization
  | finalization
deriving DecidableEq, Repr

theorem Operation.getLast?_of_ne_nil {ops : List Operation} (h : ops ≠ []) :
    ops.getLast? = some .initialization ∨ ops.getLast? = some .finalization := by
  rw [List.getLast?_eq_some_getLast h]
  cases ops.getLast h <;> simp

namespace ControlGraph

/-- The blocks `bs` lead from the first block to `b`, each a predecessor of the next. -/
inductive Walk (g : ControlGraph) : List Nat → Nat → Prop where
  | start : g.Walk [g.first] g.first
  | step {bs : List Nat} {b c : Nat} : g.Walk bs b → b ∈ g.predecessors c → g.Walk (bs ++ [c]) c

def trail (g : ControlGraph) (bs : List Nat) : List SlotAction :=
  bs.flatMap fun b => (g.instructions b).flatMap Instruction.actions

theorem trail_append (g : ControlGraph) (bs cs : List Nat) :
    g.trail (bs ++ cs) = g.trail bs ++ g.trail cs := List.flatMap_append ..

theorem trail_singleton (g : ControlGraph) (b : Nat) :
    g.trail [b] = (g.instructions b).flatMap Instruction.actions := List.flatMap_singleton ..

theorem Walk.exists_approach {g : ControlGraph} {bs : List Nat} {b : Nat} (h : g.Walk bs b) :
    ∃ before, bs = before ++ [b] := by
  cases h with
  | start => exact ⟨[], rfl⟩
  | step _ _ => exact ⟨_, rfl⟩

theorem Walk.eq_of_first {r : Routine} (hg : faults r = []) {bs : List Nat}
    (h : (ofRoutine r).Walk bs 0) : bs = [0] := by
  cases h with
  | start => rfl
  | step _ hp => simp [predecessors_first hg] at hp

theorem Walk.mem_ids {r : Routine} {bs : List Nat} {b : Nat} (h : (ofRoutine r).Walk bs b) :
    b ∈ (ofRoutine r).ids := by
  cases h with
  | start => exact List.mem_range.mpr (size_pos r)
  | step _ hb => exact List.mem_range.mpr (lt_size_of_mem_predecessors hb).1

end ControlGraph

/-- What an instruction does to a leaf: a finalization for each path at or above the leaf among
those it destroys, then an initialization for each among those it creates. -/
def Instruction.operationsOn (i : Instruction) (l : Layout Ty) (k : Nat) : List Operation :=
  ((i.destroyed.flatMap Expr.resourcePaths).filterMap fun path =>
      if k ∈ l.leavesAt path then some .finalization else none) ++
    (i.created.flatMap Expr.resourcePaths).filterMap fun path =>
      if k ∈ l.leavesAt path then some .initialization else none

namespace Routine

/-- A leaf of an input is initialized where a routine begins. -/
def arrival (r : Routine) (l : Layout Ty) (k : Nat) : List Operation :=
  if ∃ q ∈ r.inputs, k ∈ l.leavesAt (.ofVariable q.id.name) then [.initialization] else []

/-- What is done to a leaf along some blocks. -/
def history (r : Routine) (l : Layout Ty) (bs : List Nat) (k : Nat) : List Operation :=
  r.arrival l k ++ bs.flatMap fun b =>
    ((ControlGraph.ofRoutine r).instructions b).flatMap (·.operationsOn l k)

end Routine

namespace SlotAction

def operation? : SlotAction → Option Operation
  | finalizing _ _ => some .finalization
  | reading _ _ => none
  | initializing _ _ => some .initialization

def operationOn? (l : Layout Ty) (k : Nat) (a : SlotAction) : Option Operation :=
  if k ∈ l.leavesAt a.path then a.operation? else none

theorem filterMap_operationOn?_cons (l : Layout Ty) (k : Nat) (a : SlotAction)
    (acts : List SlotAction) : (a :: acts).filterMap (operationOn? l k) =
      (a.operationOn? l k).toList ++ acts.filterMap (operationOn? l k) := by
  cases h : a.operationOn? l k <;> simp [h]

end SlotAction

namespace Instruction

variable {i : Instruction} {a : SlotAction}

theorem isReading_of_mem_followed (ha : a ∈ i.followed) : a.isReading := by
  obtain ⟨m, -, rfl⟩ := List.mem_map.mp ha
  rfl

theorem isReading_of_mem_reads (ha : a ∈ i.reads) : a.isReading := by
  unfold reads at ha
  split at ha
  · obtain ⟨m, -, rfl⟩ := List.mem_map.mp ha
    rfl
  · obtain ⟨m, -, rfl⟩ := List.mem_map.mp ha
    rfl
  · simp at ha

theorem filterMap_actions (i : Instruction) (l : Layout Ty) (k : Nat) :
    i.actions.filterMap (SlotAction.operationOn? l k) = i.operationsOn l k := by
  have hread : ∀ acts : List SlotAction, (∀ a ∈ acts, a.isReading) →
      acts.filterMap (SlotAction.operationOn? l k) = [] := by
    intro acts h
    rw [List.filterMap_eq_nil_iff]
    intro a ha
    have := h a ha
    cases a <;> simp_all [SlotAction.isReading, SlotAction.operationOn?, SlotAction.operation?]
  rw [actions, List.filterMap_append, List.filterMap_append, List.filterMap_append,
    hread _ fun _ => isReading_of_mem_followed, hread _ fun _ => isReading_of_mem_reads,
    List.append_nil, List.append_nil, operationsOn, finalizations, initializations,
    List.filterMap_flatMap, List.filterMap_flatMap, List.filterMap_flatMap, List.filterMap_flatMap]
  simp only [List.filterMap_map]
  rfl

end Instruction

theorem Routine.history_nil (r : Routine) (l : Layout Ty) (k : Nat) :
    r.history l [] k = r.arrival l k := List.append_nil _

theorem Routine.history_eq (r : Routine) (l : Layout Ty) (bs : List Nat) (k : Nat) :
    r.history l bs k = r.arrival l k ++
      ((ControlGraph.ofRoutine r).trail bs).filterMap (SlotAction.operationOn? l k) := by
  rw [history, ControlGraph.trail, List.filterMap_flatMap]
  simp only [List.filterMap_flatMap, Instruction.filterMap_actions]

namespace Snapshot

variable {l : Layout Ty} {k : Nat} {s t : Snapshot} {a : SlotAction} {acts : List SlotAction}
  {ops : List Operation}

theorem MayHold.mono (h : s.Le t) (hs : Layout.shape s = Layout.shape t) (hk : s.MayHold k) :
    t.MayHold k := by
  obtain ⟨o, ho, hm⟩ := hk
  obtain ⟨o', ho', hle⟩ := h.getElem? hs ho
  exact ⟨o', ho', hm.mono hle⟩

theorem MayLack.mono (h : s.Le t) (hs : Layout.shape s = Layout.shape t) (hk : s.MayLack k) :
    t.MayLack k := by
  obtain ⟨o, ho, hm⟩ := hk
  obtain ⟨o', ho', hle⟩ := h.getElem? hs ho
  exact ⟨o', ho', hm.mono hle⟩

/-- A snapshot knows of the last operation on a leaf. -/
def Covers (s : Snapshot) (k : Nat) (ops : List Operation) : Prop :=
  (ops.getLast? = some .initialization → s.MayHold k) ∧
    (ops.getLast? = some .finalization → s.MayLack k)

theorem Covers.mono (h : s.Le t) (hs : Layout.shape s = Layout.shape t) (hc : s.Covers k ops) :
    t.Covers k ops := by
  constructor
  · intro hl
    exact (hc.1 hl).mono h hs
  · intro hl
    exact (hc.2 hl).mono h hs

/-- An action keeps a snapshot in step with the history of a leaf. -/
theorem Covers.apply (hs : Layout.shape s = l.shape) (hc : s.Covers k ops) :
    Covers (a.apply s) k (ops ++ (a.operationOn? l k).toList) := by
  rw [SlotAction.operationOn?, ← Layout.leavesAt_congr hs]
  by_cases hk : k ∈ Layout.leavesAt s a.path
  · rw [if_pos hk]
    cases a with
    | finalizing path span =>
      simp only [Covers, SlotAction.operation?, Option.toList_some, List.getLast?_append,
        List.getLast?_singleton]
      exact ⟨by simp, fun _ => SlotAction.mayLack_apply_finalizing hk⟩
    | reading path span => simpa [SlotAction.operation?, SlotAction.apply] using hc
    | initializing path span =>
      simp only [Covers, SlotAction.operation?, Option.toList_some, List.getLast?_append,
        List.getLast?_singleton]
      exact ⟨fun _ => SlotAction.mayHold_apply_initializing hk, by simp⟩
  · rw [if_neg hk, Option.toList_none, List.append_nil, Covers, MayHold, MayLack,
      SlotAction.getElem?_values_apply_of_not_mem hk]
    exact hc

theorem Covers.foldl_apply (hs : Layout.shape s = l.shape) (hc : s.Covers k ops)
    (acts : List SlotAction) : Covers (acts.foldl SlotAction.apply s) k
      (ops ++ acts.filterMap (SlotAction.operationOn? l k)) := by
  induction acts generalizing s ops with
  | nil => simpa using hc
  | cons a acts ih =>
    rw [SlotAction.filterMap_operationOn?_cons, ← List.append_assoc]
    exact ih (by rw [SlotAction.shape_apply, hs]) (hc.apply hs)

theorem mayHold_foldl_arrivals (inputs : List Ident) (s : Snapshot) :
    MayHold ((OccupancyProblem.arrivals inputs).foldl SlotAction.apply s) k ↔
      s.MayHold k ∨ ∃ id ∈ inputs, k ∈ Layout.leavesAt s (.ofVariable id.name) := by
  induction inputs generalizing s with
  | nil => simp [OccupancyProblem.arrivals]
  | cons id inputs ih =>
    have hl := Layout.leavesAt_congr
      (SlotAction.shape_apply s (.initializing (.ofVariable id.name) id.span))
    rw [OccupancyProblem.arrivals, List.map_cons, List.foldl_cons]
    refine (ih _).trans ?_
    simp only [SlotAction.mayHold_apply_initializing_iff, hl, List.mem_cons, exists_eq_or_imp,
      or_assoc]

theorem mayLack_of_foldl_arrivals (inputs : List Ident) (s : Snapshot)
    (h : MayLack ((OccupancyProblem.arrivals inputs).foldl SlotAction.apply s) k) :
    s.MayLack k := by
  induction inputs generalizing s with
  | nil => exact h
  | cons id inputs ih => exact SlotAction.mayLack_of_apply_initializing (ih _ h)

end Snapshot

namespace Routine

variable {r : Routine} {l : Layout Ty} {ins outs : Nat → Snapshot} {b c k : Nat} {bs : List Nat}

theorem not_mayHold_blank : ¬ Snapshot.MayHold (l.map fun _ => .unknown) k := by
  rintro ⟨o, ho, c, hc⟩
  rw [Layout.values_map, List.getElem?_map, Option.map_eq_some_iff] at ho
  obtain ⟨v, -, rfl⟩ := ho
  simp [Occupancy.initializers] at hc

theorem not_mayLack_blank : ¬ Snapshot.MayLack (l.map fun _ => .unknown) k := by
  rintro ⟨o, ho, c, hc⟩
  rw [Layout.values_map, List.getElem?_map, Option.map_eq_some_iff] at ho
  obtain ⟨v, -, rfl⟩ := ho
  simp [Occupancy.finalizers] at hc

theorem mayHold_entry_iff : (r.problem l).entry.MayHold k ↔
    ∃ q ∈ r.inputs, k ∈ l.leavesAt (.ofVariable q.id.name) := by
  refine (Snapshot.mayHold_foldl_arrivals _ _).trans ?_
  simp only [not_mayHold_blank, false_or, Layout.leavesAt_congr (Layout.shape_map _ l)]
  constructor
  · rintro ⟨id, hid, hk⟩
    obtain ⟨q, hq, hn⟩ := Declarations.exists_uniqueParams_iff.mp ⟨id, hid, rfl⟩
    exact ⟨q, hq, hn ▸ hk⟩
  · rintro ⟨q, hq, hk⟩
    obtain ⟨id, hid, hn⟩ := Declarations.exists_uniqueParams_iff.mpr ⟨q, hq, rfl⟩
    exact ⟨id, hid, hn ▸ hk⟩

theorem not_mayLack_entry : ¬ (r.problem l).entry.MayLack k := fun h =>
  not_mayLack_blank (Snapshot.mayLack_of_foldl_arrivals _ _ h)

theorem covers_entry : (r.problem l).entry.Covers k (r.arrival l k) := by
  rw [arrival]
  split
  · next h => exact ⟨fun _ => mayHold_entry_iff.mpr h, by simp⟩
  · exact ⟨by simp, by simp⟩

/-- The solver never leaves the layout, and every state that it finds has causes. -/
theorem closed_hasCauses : (r.problem l).flow.Closed
    (fun _ s => Layout.shape s = l.shape ∧ s.HasCauses)
    (fun _ s => Layout.shape s = l.shape ∧ s.HasCauses) := by
  have hblank : Layout.shape (r.problem l).blank = l.shape ∧ (r.problem l).blank.HasCauses := by
    refine ⟨Layout.shape_map _ l, fun o ho => ?_⟩
    obtain ⟨v, -, rfl⟩ := List.mem_map.mp (Layout.values_map _ l ▸ ho)
    trivial
  have hin : ∀ b, Layout.shape ((r.problem l).initialIn b) = l.shape ∧
      ((r.problem l).initialIn b).HasCauses := by
    intro b
    rw [OccupancyProblem.initialIn]
    split
    · exact ⟨(SlotAction.shape_foldl_apply _ _).trans hblank.1,
        SlotAction.hasCauses_foldl_apply _ hblank.2⟩
    · exact hblank
  refine ⟨fun b _ => hin b, fun b _ => hblank, ?_, ?_⟩
  · rintro b c s t - - - ⟨hs, hsc⟩ ⟨ht, htc⟩
    exact ⟨(Layout.shape_zipWith _ (hs.trans ht.symm)).trans hs, .meet (hs.trans ht.symm) hsc htc⟩
  · rintro b s - ⟨hs, hsc⟩
    exact ⟨(SlotAction.shape_foldl_apply _ _).trans hs, SlotAction.hasCauses_foldl_apply _ hsc⟩

section Solution

variable (h : (r.problem l).Solves ins outs)
include h

theorem ins_hasCauses (hb : b ∈ (ControlGraph.ofRoutine r).ids) :
    Layout.shape (ins b) = l.shape ∧ (ins b).HasCauses := (h.of_closed hb closed_hasCauses).1

theorem outs_hasCauses (hb : b ∈ (ControlGraph.ofRoutine r).ids) :
    Layout.shape (outs b) = l.shape ∧ (outs b).HasCauses := (h.of_closed hb closed_hasCauses).2

theorem outs_eq (hb : b ∈ (ControlGraph.ofRoutine r).ids) :
    outs b = ((ControlGraph.ofRoutine r).trail [b]).foldl SlotAction.apply (ins b) := by
  rw [ControlGraph.trail_singleton]
  exact (h.satisfies b hb).2

theorem covers_first : (ins 0).Covers k (r.arrival l k) := by
  have h0 : 0 ∈ (ControlGraph.ofRoutine r).ids := List.mem_range.mpr (ControlGraph.size_pos r)
  have hle := h.initialIn_le h0
  refine covers_entry.mono hle ((ins_hasCauses h h0).1 ▸ ?_)
  exact (SlotAction.shape_foldl_apply _ _).trans (Layout.shape_map _ l)

theorem covers_block (hb : b ∈ (ControlGraph.ofRoutine r).ids)
    (hc : (ins b).Covers k (r.history l bs k)) : (outs b).Covers k (r.history l (bs ++ [b]) k) := by
  rw [outs_eq h hb]
  have := hc.foldl_apply (ins_hasCauses h hb).1 ((ControlGraph.ofRoutine r).trail [b])
  rwa [history_eq, List.append_assoc, ← List.filterMap_append, ← ControlGraph.trail_append,
    ← history_eq] at this

variable (hg : ControlGraph.faults r = [])
include hg

theorem outs_le_ins (hc : b ∈ (ControlGraph.ofRoutine r).predecessors c) :
    (outs b).Le (ins c) ∧ Layout.shape (outs b) = Layout.shape (ins c) := by
  have hb := OccupancyProblem.mem_ids_of_mem_predecessors hc
  have hc' := List.mem_range.mpr (ControlGraph.lt_size_of_mem_predecessors hc).1
  exact ⟨h.pred_le hc' (ControlGraph.mem_successors_of_mem_predecessors hg) hc,
    (outs_hasCauses h hb).1.trans (ins_hasCauses h hc').1.symm⟩

theorem covers_pred {ops : List Operation} (hc : b ∈ (ControlGraph.ofRoutine r).predecessors c)
    (ho : (outs b).Covers k ops) : (ins c).Covers k ops :=
  ho.mono (outs_le_ins h hg hc).1 (outs_le_ins h hg hc).2

/-- The snapshot after a block covers every walk to it. -/
theorem covers_walk (hw : (ControlGraph.ofRoutine r).Walk bs b) :
    (outs b).Covers k (r.history l bs k) := by
  induction hw with
  | start =>
    have h0 := ControlGraph.Walk.mem_ids (ControlGraph.Walk.start (g := .ofRoutine r))
    have hc : (ins 0).Covers k (r.history l [] k) := by
      rw [history_nil]
      exact covers_first h
    exact covers_block h h0 hc
  | step hw hc ih => exact covers_block h (hw.step hc).mem_ids (covers_pred h hg hc ih)

theorem covers_approach (hw : (ControlGraph.ofRoutine r).Walk bs b) :
    ∃ before, bs = before ++ [b] ∧ ∀ k, (ins b).Covers k (r.history l before k) := by
  cases hw with
  | start =>
    refine ⟨[], rfl, fun k => ?_⟩
    rw [history_nil]
    exact covers_first h
  | step hw hc => exact ⟨_, rfl, fun k => covers_pred h hg hc (covers_walk h hg hw)⟩

end Solution

end Routine

end Reversible
