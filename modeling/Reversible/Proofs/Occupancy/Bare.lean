import Reversible.Proofs.Graph.Bare
import Reversible.Proofs.Occupancy.Transport

/-! # The occupancy of a bare routine

Without places a state of a slot only says whether it has causes of either kind. Joining states and
changing them by an action can be done without places, so the snapshots of a bare routine are those
of the routine with the places left out. The checks only ask for kinds of states, and find the same.
-/

namespace Reversible

namespace Occupancy

def bareCauses (causes : Causes) : Causes :=
  if causes.isEmpty then ∅ else .singleton .dummy

theorem mem_bareCauses {causes : Causes} {c : Span} :
    c ∈ bareCauses causes ↔ c = .dummy ∧ ∃ d, d ∈ causes := by
  rw [bareCauses]
  split
  · next h => simpa using fun _ => SortedSet.isEmpty_iff.mp h
  · next h =>
    have hne := SortedSet.isEmpty_eq_false_iff.mp (Bool.eq_false_iff.mpr h)
    rw [SortedSet.mem_singleton, and_iff_left hne]

@[simp] theorem bareCauses_empty : bareCauses ∅ = ∅ := rfl

@[simp] theorem bareCauses_singleton (c : Span) :
    bareCauses (.singleton c) = .singleton .dummy := rfl

@[simp] theorem bareCauses_union (s t : Causes) :
    bareCauses (s ∪ t) = bareCauses s ∪ bareCauses t := by
  refine SortedSet.ext fun c => ?_
  rw [SortedSet.mem_union, mem_bareCauses, mem_bareCauses, mem_bareCauses, ← and_or_left]
  simp only [SortedSet.mem_union, exists_or]

@[simp] theorem isEmpty_bareCauses (causes : Causes) :
    (bareCauses causes).isEmpty = causes.isEmpty := by
  rw [bareCauses]
  split
  · next h => exact h.symm
  · next h => exact (Bool.eq_false_iff.mpr h).symm

def bare : Occupancy → Occupancy
  | unknown => unknown
  | initialized causes => initialized (bareCauses causes)
  | finalized causes => finalized (bareCauses causes)
  | conflict inits fins => conflict (bareCauses inits) (bareCauses fins)

@[simp] theorem initializers_bare (o : Occupancy) :
    o.bare.initializers = bareCauses o.initializers := by
  cases o <;> rfl

@[simp] theorem finalizers_bare (o : Occupancy) : o.bare.finalizers = bareCauses o.finalizers := by
  cases o <;> rfl

@[simp] theorem isUnknown_bare (o : Occupancy) : o.bare.isUnknown = o.isUnknown := by
  cases o <;> rfl

@[simp] theorem isInitialized_bare (o : Occupancy) : o.bare.isInitialized = o.isInitialized := by
  cases o <;> rfl

@[simp] theorem isFinalized_bare (o : Occupancy) : o.bare.isFinalized = o.isFinalized := by
  cases o <;> rfl

@[simp] theorem isConflict_bare (o : Occupancy) : o.bare.isConflict = o.isConflict := by
  cases o <;> rfl

theorem bare_meet (a b : Occupancy) : (a.meet b).bare = a.bare.meet b.bare := by
  cases a <;> cases b <;> simp [meet, bare, initializers, finalizers]

theorem bare_overwrite (old new : Occupancy) :
    (old.overwrite new).bare = old.bare.overwrite new.bare := by
  cases old <;> cases new <;> simp [overwrite, bare, initializers, finalizers]

theorem bare_ofCauses (inits fins : Causes) :
    (ofCauses inits fins).bare = ofCauses (bareCauses inits) (bareCauses fins) := by
  rw [ofCauses, ofCauses, isEmpty_bareCauses, isEmpty_bareCauses]
  cases inits.isEmpty <;> cases fins.isEmpty <;> rfl

theorem bareCauses_foldl {f : Occupancy → Causes} (hf : ∀ o, f o.bare = bareCauses (f o))
    (os : List Occupancy) (s : Causes) :
    bareCauses (os.foldl (fun s o => s ∪ f o) s) =
      (os.map bare).foldl (fun s o => s ∪ f o) (bareCauses s) := by
  induction os generalizing s with
  | nil => rfl
  | cons o os ih => rw [List.foldl_cons, ih, List.map_cons, List.foldl_cons, bareCauses_union, hf]

theorem bare_synthesize (os : List Occupancy) :
    (synthesize os).bare = synthesize (os.map bare) := by
  rw [synthesize, bare_ofCauses, bareCauses_foldl initializers_bare,
    bareCauses_foldl finalizers_bare]
  rfl

end Occupancy

namespace Snapshot

def bare (s : Snapshot) : Snapshot := Layout.map Occupancy.bare s

theorem bare_meet (s t : Snapshot) : (s.meet t).bare = s.bare.meet t.bare :=
  Layout.map_zipWith Occupancy.bare_meet s t

theorem read_bare (s : Snapshot) (path : ResourcePath) :
    s.bare.read path = (s.read path).map Occupancy.bare := by
  rw [read, read, bare, Layout.slot_map]
  rcases Layout.slot s path with e | (state | ms)
  · rfl
  · rfl
  · simp [Except.map, Slot.map, Occupancy.bare_synthesize]

theorem bare_apply (s : Snapshot) (a : SlotAction) : bare (a.apply s) = a.bare.apply s.bare := by
  cases a with
  | reading path span => rfl
  | _ => exact Layout.map_modify (fun o => Occupancy.bare_overwrite o _) s _

theorem bare_foldl_apply (acts : List SlotAction) (s : Snapshot) :
    bare (acts.foldl SlotAction.apply s) = (acts.map (·.bare)).foldl SlotAction.apply s.bare := by
  induction acts generalizing s with
  | nil => rfl
  | cons a acts ih => rw [List.foldl_cons, ih, List.map_cons, List.foldl_cons, bare_apply]

end Snapshot

namespace SlotAction

variable (s : Snapshot) (a : SlotAction)

theorem map_finding_fault?_bare : (a.bare.fault? s.bare).map (·.diagnostic.finding) =
    (a.fault? s).map (·.diagnostic.finding) := by
  have hpath : a.bare.path = a.path := by cases a <;> rfl
  rw [fault?, fault?, hpath, s.read_bare]
  cases s.read a.path with
  | error e => rfl
  | ok state =>
    cases a <;>
      simp only [bare, Except.map, Occupancy.isInitialized_bare, Occupancy.isFinalized_bare,
        Occupancy.isUnknown_bare, apply_ite (Option.map _), Option.map_none, Option.map_some,
        OccupancyFault.diagnostic, Diagnostic.finding, Occupancy.finalizers_bare,
        Occupancy.isEmpty_bareCauses]

theorem bare_applyChecked : (a.applyChecked s).bare = a.bare.applyChecked s.bare := by
  have hf := map_finding_fault?_bare s a
  rw [applyChecked, applyChecked]
  cases h : a.fault? s with
  | none =>
    rw [h, Option.map_none, Option.map_eq_none_iff] at hf
    rw [hf, Snapshot.bare_apply]
  | some f =>
    rw [h, Option.map_some, Option.map_eq_some_iff] at hf
    obtain ⟨f', hf', -⟩ := hf
    rw [hf']

theorem findings_bare (s : Snapshot) (acts : List SlotAction) :
    findings s.bare (acts.map (·.bare)) = findings s acts := by
  rw [findings, findings]
  induction acts generalizing s with
  | nil => rfl
  | cons a acts ih =>
    have htoList : ((a.bare.fault? s.bare).toList.map (·.diagnostic.finding)) =
        (a.fault? s).toList.map (·.diagnostic.finding) := by
      rw [← Option.toList_map, ← Option.toList_map, map_finding_fault?_bare]
    rw [List.map_cons, replay, replay, List.map_append, List.map_append, htoList,
      ← bare_applyChecked, ih]

end SlotAction

theorem OccupancySolution.endFindings_bare (t : Snapshot) (ds : Declarations) :
    endFindings t.bare ds = endFindings t ds := by
  refine List.filterMap_congr fun name _ => ?_
  rw [endFinding?, endFinding?, endFault?, endFault?, t.read_bare]
  cases t.read (.ofVariable name) with
  | error e => rfl
  | ok state =>
    simp only [Except.map, Occupancy.isInitialized_bare, Occupancy.isFinalized_bare,
      apply_ite (Option.map _)]
    rfl

theorem Snapshot.disagrees_bare_iff (s : Snapshot) (leaves : List ResourcePath) :
    s.bare.Disagrees leaves ↔ s.Disagrees leaves := by
  refine disagrees_congr ?_ leaves
  rw [bare, Layout.map_map]
  simp only [Occupancy.isConflict_bare]

namespace Routine

variable {r : Routine} {l : Layout Ty} {ins outs ins' outs' : Nat → Snapshot} {b : Nat}

theorem inputs_bare (r : Routine) :
    (Declarations.ofRoutine r.bare).inputs = (Declarations.ofRoutine r).inputs.map (·.bare) := by
  change Declarations.uniqueParams (r.inputs.map (·.bare)) =
    (Declarations.uniqueParams r.inputs).map (·.bare)
  rw [Declarations.uniqueParams, Declarations.uniqueParams, firsts_map, List.map_map, List.map_map]
  rfl

theorem actions_bare (r : Routine) (l : Layout Ty) (b : Nat) :
    (r.bare.problem l).actions b = ((r.problem l).actions b).map (·.bare) := by
  change ((ControlGraph.ofRoutine r.bare).instructions b).flatMap Instruction.actions = _
  rw [ControlGraph.ofRoutine_bare, ControlGraph.instructions_bare, List.flatMap_map]
  simp only [Instruction.actions_bare]
  exact (List.map_flatMap ..).symm

theorem carries_bare (r : Routine) (l : Layout Ty) :
    (r.problem l).Carries (r.bare.problem l) Snapshot.bare (Equiv.refl Nat) where
  mem_ids_iff {b} := by
    change b ∈ (ControlGraph.ofRoutine r.bare).ids ↔ b ∈ (ControlGraph.ofRoutine r).ids
    rw [ControlGraph.ofRoutine_bare, ControlGraph.ids_bare]
  predecessors_eq b := by
    change (ControlGraph.ofRoutine r.bare).predecessors b = _
    rw [ControlGraph.ofRoutine_bare, ControlGraph.predecessors_bare]
    exact (List.map_id _).symm
  blank_eq := Layout.map_map _ _ l
  initialIn_eq b := by
    have hentry : (r.problem l).entry.bare = (r.bare.problem l).entry := by
      change Snapshot.bare ((OccupancyProblem.arrivals _).foldl _ _) = _
      rw [Snapshot.bare_foldl_apply, Snapshot.bare, Layout.map_map]
      change _ = (OccupancyProblem.arrivals (Declarations.ofRoutine r.bare).inputs).foldl _ _
      rw [inputs_bare, OccupancyProblem.arrivals, OccupancyProblem.arrivals, List.map_map,
        List.map_map]
      rfl
    rw [OccupancyProblem.initialIn, OccupancyProblem.initialIn, apply_ite Snapshot.bare, hentry]
    exact congrArg _ (Layout.map_map _ _ l)
  meet_eq := Snapshot.bare_meet
  transfer_eq s b := by
    rw [OccupancyProblem.transfer, OccupancyProblem.transfer, actions_bare,
      Snapshot.bare_foldl_apply]
    rfl

end Routine

end Reversible
