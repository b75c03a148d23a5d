import Reversible.Proofs.Flow.Projection
import Reversible.Proofs.Layout.Selection
import Reversible.Proofs.Occupancy.Lattice
import Reversible.Proofs.Verify.Lookups

/-! # Variables that a routine does not mention

An environment may have more variables than a routine mentions. As long as their types can be laid
out they make no difference: the solver takes the same steps with and without them, the slots of the
other variables are in the same states at each block, and the same is reported.
-/

namespace Reversible

namespace SlotAction

variable {keep : Name → Bool} {s : Snapshot} {a : SlotAction} {acts : List SlotAction}

theorem select_foldl_apply (h : ∀ a ∈ acts, keep a.path.root) (s : Snapshot) :
    Layout.select keep (acts.foldl apply s) = acts.foldl apply (Layout.select keep s) := by
  induction acts generalizing s with
  | nil => rfl
  | cons a acts ih =>
    obtain ⟨ha, hacts⟩ := List.forall_mem_cons.mp h
    rw [List.foldl_cons, ih hacts, apply_eq_modify, Layout.select_modify ha, ← apply_eq_modify,
      List.foldl_cons]

theorem select_foldl_apply_of_not (h : ∀ a ∈ acts, ¬ keep a.path.root) (s : Snapshot) :
    Layout.select keep (acts.foldl apply s) = Layout.select keep s := by
  induction acts generalizing s with
  | nil => rfl
  | cons a acts ih =>
    obtain ⟨ha, hacts⟩ := List.forall_mem_cons.mp h
    rw [List.foldl_cons, ih hacts, apply_eq_modify, Layout.select_modify_of_not ha]

theorem read_select {path : ResourcePath} (hk : keep path.root) :
    Snapshot.read (Layout.select keep s) path = s.read path := by
  rw [Snapshot.read, Snapshot.read, Layout.slot_select hk]

theorem fault?_select (hk : keep a.path.root) : a.fault? (Layout.select keep s) = a.fault? s := by
  rw [fault?, fault?, read_select hk]

theorem replay_select (h : ∀ a ∈ acts, keep a.path.root) (s : Snapshot) :
    replay (Layout.select keep s) acts = replay s acts := by
  induction acts generalizing s with
  | nil => rfl
  | cons a acts ih =>
    obtain ⟨ha, hacts⟩ := List.forall_mem_cons.mp h
    have hchecked : a.applyChecked (Layout.select keep s) =
        Layout.select keep (a.applyChecked s) := by
      unfold applyChecked
      rw [fault?_select ha]
      split
      · rw [apply_eq_modify, apply_eq_modify, Layout.select_modify ha]
      · rfl
    rw [replay, replay, fault?_select ha, hchecked, ih hacts]

end SlotAction

namespace OccupancySolution

variable {keep : Name → Bool} {g : ControlGraph} {s : OccupancySolution} {ds : Declarations}
  {leaves : List ResourcePath}

theorem conflictAfter_select (h : ∀ leaf ∈ leaves, keep leaf.root) (b : Nat) :
    conflictAfter (s.map (Layout.select keep)) leaves b = conflictAfter s leaves b := by
  unfold conflictAfter
  rw [FlowState.output?_map]
  cases s.output? b with
  | none => rfl
  | some snapshot =>
    have hleaf : leaves.filterMap (fun leaf =>
        (Layout.leafAt (Layout.select keep snapshot) leaf).toOption) =
        leaves.filterMap fun leaf => (Layout.leafAt snapshot leaf).toOption := by
      refine List.filterMap_congr fun leaf hmem => ?_
      rw [Layout.leafAt_select (h leaf hmem)]
    exact congrArg (fun os => (os.filter (·.isConflict)).foldl Occupancy.meet .unknown) hleaf

theorem conflictOf_select (h : ∀ leaf ∈ leaves, keep leaf.root) :
    conflictOf g (s.map (Layout.select keep)) leaves = conflictOf g s leaves := by
  have hafter : conflictAfter (s.map (Layout.select keep)) leaves = conflictAfter s leaves :=
    funext (conflictAfter_select h)
  unfold conflictOf blame
  rw [hafter]

theorem conflicts_select (h : ∀ name ∈ ds.sites.keys, keep name) :
    conflicts g (s.map (Layout.select keep)) ds = conflicts g s ds := by
  unfold conflicts
  rw [FlowState.output?_map]
  cases s.output? g.first with
  | none => rfl
  | some snapshot =>
    refine List.filterMap_congr ?_
    rintro ⟨name, site⟩ hmem
    have hk : keep name := h name (List.mem_map.mpr ⟨_, hmem, rfl⟩)
    have hpaths : (Layout.select keep snapshot).paths.filter (·.root == name) =
        snapshot.paths.filter (·.root == name) := by
      rw [Layout.paths_select, List.filter_filter]
      refine List.filter_congr fun path _ => ?_
      by_cases hroot : path.root = name <;> simp [hroot, hk]
    have hleaves : ∀ leaf ∈ snapshot.paths.filter (·.root == name), keep leaf.root := by
      intro leaf hleaf
      have hroot : leaf.root = name := by simpa using (List.mem_filter.mp hleaf).2
      rwa [hroot]
    dsimp only
    rw [hpaths, conflictOf_select hleaves]

theorem replay_select
    (h : ∀ b, ∀ a ∈ (g.instructions b).flatMap Instruction.actions, keep a.path.root) :
    replay g (s.map (Layout.select keep)) = replay g s := by
  refine List.flatMap_congr fun b _ => ?_
  rw [FlowState.input?_map]
  cases s.input? b with
  | none => rfl
  | some snapshot => exact SlotAction.replay_select (h b) snapshot

theorem ending_select (h : ∀ name ∈ ds.sites.keys, keep name) :
    ending g (s.map (Layout.select keep)) ds = ending g s ds := by
  unfold ending
  rw [FlowState.output?_map]
  cases s.output? g.last with
  | none => rfl
  | some snapshot =>
    refine List.filterMap_congr ?_
    rintro ⟨name, site⟩ hmem
    have hk : keep name := h name (List.mem_map.mpr ⟨_, mem_endOrder_iff.mp hmem, rfl⟩)
    have hread : Snapshot.read (Layout.select keep snapshot) (.ofVariable name) =
        snapshot.read (.ofVariable name) := SlotAction.read_select hk
    dsimp only
    unfold endFault?
    rw [hread]

/-- All that is found wrong with a solution is found in the selection of what is declared. -/
theorem faults_select (h : ∀ name ∈ ds.sites.keys, keep name)
    (ha : ∀ b, ∀ a ∈ (g.instructions b).flatMap Instruction.actions, keep a.path.root) :
    faults g (s.map (Layout.select keep)) ds = faults g s ds := by
  unfold faults
  rw [conflicts_select h, replay_select ha, ending_select h]

end OccupancySolution

namespace MarkTable

variable {keep : Name → Bool} {types : TypeTable} {l : Layout Ty} {t other : MarkTable}
  {p : MemoryPath} {role : MemoryRole} {ms : List Memory}

def select (keep : Name → Bool) (t : MarkTable) : MarkTable :=
  { t with slots := t.slots.select keep }

theorem mark_select (hk : keep p.resource.root) (t : MarkTable) :
    (t.select keep).mark p = ((t.mark p).1.select keep, (t.mark p).2) := by
  have hleaf : (t.select keep).slots.leafAt p.resource = t.slots.leafAt p.resource :=
    Layout.leafAt_select hk
  unfold mark
  rw [hleaf]
  split
  · rfl
  · rfl
  · simp only [select, Layout.select_modify hk]

theorem markAll_select (h : ∀ m ∈ ms, keep m.path.resource.root) (t : MarkTable) :
    (t.select keep).markAll role ms =
      ((t.markAll role ms).1.select keep, (t.markAll role ms).2) := by
  induction ms generalizing t with
  | nil => rfl
  | cons m rest ih =>
    obtain ⟨hm, hrest⟩ := List.forall_mem_cons.mp h
    simp only [markAll, mark_select hm, ih hrest]

theorem select_mark_of_not (hk : ¬ keep p.resource.root) (t : MarkTable) :
    (t.mark p).1.select keep = t.select keep := by
  unfold mark
  split
  · rfl
  · rfl
  · simp only [select, Layout.select_modify_of_not hk]

theorem select_markAll_of_not (h : ∀ m ∈ ms, ¬ keep m.path.resource.root) (t : MarkTable) :
    (t.markAll role ms).1.select keep = t.select keep := by
  induction ms generalizing t with
  | nil => rfl
  | cons m rest ih =>
    obtain ⟨hm, hrest⟩ := List.forall_mem_cons.mp h
    rw [markAll, ih hrest, select_mark_of_not hm]

theorem trees_select (keep : Name → Bool) (t : MarkTable) :
    (t.select keep).trees = t.trees.filter (keep ·.1.root) := by
  unfold trees
  rw [List.filter_filterMap, select, Layout.paths_select, List.filterMap_filter]
  refine List.filterMap_congr fun path _ => ?_
  by_cases hk : keep path.root
  · rw [if_pos hk, Layout.leafAt_select hk]
    rcases t.slots.leafAt path with e | (_ | tree) <;> simp [Option.filter, hk]
  · rw [if_neg hk]
    rcases t.slots.leafAt path with e | (_ | tree) <;> simp [Option.filter, hk]

/-- Trees that are not selected make no difference between two tables if nothing is marked in
them. -/
theorem difference_select
    (h : t.slots.select (fun n => !keep n) = (l.map slotTree).select fun n => !keep n) :
    (t.select keep).difference (other.select keep) = t.difference other := by
  have hidle : ∀ pt ∈ t.trees, ¬ keep pt.1.root → ∀ o, pt.2.subtract (.ofResource pt.1) o = [] := by
    rintro ⟨path, tree⟩ hmem hk o
    have hsel : ∀ d : Layout (Option MarkTree),
        (d.select fun n => !keep n).leafAt path = d.leafAt path :=
      fun d => Layout.leafAt_select (by simpa using hk)
    have hleaf := mem_trees_iff.mp hmem
    rw [← hsel, h, hsel] at hleaf
    exact subtract_of_leafAt_blank hleaf _ o
  unfold difference
  rw [trees_select]
  generalize t.trees = trees at hidle
  induction trees with
  | nil => rfl
  | cons pt rest ih =>
    obtain ⟨path, tree⟩ := pt
    obtain ⟨hpt, hrest⟩ := List.forall_mem_cons.mp hidle
    have ih := ih hrest
    by_cases hk : keep path.root
    · have hother : (other.select keep).slots.leafAt path = other.slots.leafAt path :=
        Layout.leafAt_select hk
      rw [List.filter_cons, if_pos hk, List.flatMap_cons, List.flatMap_cons, ih]
      dsimp only
      rw [hother]
    · rw [List.filter_cons, if_neg hk, ih, List.flatMap_cons]
      dsimp only
      rw [hpt hk, List.nil_append]

end MarkTable

theorem InstructionMarks.faults_check_select {keep : Name → Bool} {types : TypeTable}
    {l : Layout Ty} {i : Instruction}
    (h : ∀ role, ∀ m ∈ i.memories role, keep m.path.resource.root) :
    (check ⟨types, (l.select keep).map MarkTable.slotTree⟩ i).faults =
      (check ⟨types, l.map MarkTable.slotTree⟩ i).faults := by
  let blank : MarkTable := ⟨types, l.map MarkTable.slotTree⟩
  have hblank : (⟨types, (l.select keep).map MarkTable.slotTree⟩ : MarkTable) =
      blank.select keep := by
    rw [MarkTable.select, Layout.select_map]
  have hmark : ∀ role, (blank.select keep).markAll role (i.memories role) =
      ((blank.markAll role (i.memories role)).1.select keep,
        (blank.markAll role (i.memories role)).2) :=
    fun role => MarkTable.markAll_select (h role) blank
  have hidle : ∀ role, (blank.markAll role (i.memories role)).1.slots.select (fun n => !keep n) =
      (l.map MarkTable.slotTree).select fun n => !keep n := by
    intro role
    refine congrArg MarkTable.slots (MarkTable.select_markAll_of_not (fun m hm => ?_) blank)
    simpa using h role m hm
  have hdiff : ∀ role other, imbalance role i.span
      ((blank.markAll role (i.memories role)).1.select keep) (other.select keep) =
      imbalance role i.span (blank.markAll role (i.memories role)).1 other := by
    intro role other
    rw [imbalance, imbalance, MarkTable.difference_select (hidle role)]
  have hd := hmark .destroyed
  have hc := hmark .created
  simp only [Instruction.memories] at hd hc hdiff
  rw [hblank]
  simp only [check, hd, hc, hdiff]
  rfl

namespace Routine

variable {r : Routine} {wide env : Environment} {l : Layout Ty} {keep : Name → Bool}
  {config : QueueConfig}

section Problem

variable (hk : ∀ id ∈ Declarations.mentions r, keep id.name)
include hk

theorem keep_of_mem_sites : ∀ name ∈ (Declarations.ofRoutine r).sites.keys, keep name := by
  intro name hname
  obtain ⟨id, hid, rfl⟩ := Declarations.mem_keys_sites_iff.mp hname
  exact hk id hid

theorem keep_of_mem_denotedPaths {i : Instruction} (hi : i ∈ r.body) :
    ∀ path ∈ i.denotedPaths, keep path.root := by
  intro path hp
  obtain ⟨id, hid, hname⟩ := exists_mention_of_mem_denotedPaths hi hp
  exact hname ▸ hk id hid

theorem keep_of_mem_actions (b : Nat) :
    ∀ a ∈ ((ControlGraph.ofRoutine r).instructions b).flatMap Instruction.actions,
      keep a.path.root := by
  intro a ha
  obtain ⟨i, hi, ha⟩ := List.mem_flatMap.mp ha
  exact keep_of_mem_denotedPaths hk (ControlGraph.mem_body_of_mem_instructions hi) _
    (Instruction.path_mem_denotedPaths ha)

theorem keep_of_mem_arrivals :
    ∀ a ∈ OccupancyProblem.arrivals (Declarations.ofRoutine r).inputs, keep a.path.root := by
  intro a ha
  obtain ⟨id, hid, rfl⟩ := List.mem_map.mp ha
  obtain ⟨id', hid', hname⟩ := Declarations.exists_mention_of_mem_inputs hid
  exact hname ▸ hk id' hid'

theorem keep_of_mem_memories {i : Instruction} (hi : i ∈ r.body) (role : MemoryRole) :
    ∀ m ∈ i.memories role, keep m.path.resource.root := by
  intro m hm
  exact keep_of_mem_denotedPaths hk hi _ (Instruction.resource_mem_denotedPaths hm)

/-- A snapshot in which nothing is known about the variables that are not selected. -/
def Idle (l : Layout Ty) (keep : Name → Bool) (s : Snapshot) : Prop :=
  Layout.shape s = l.shape ∧ Layout.select (fun n => !keep n) s =
    Layout.select (fun n => !keep n) (l.map fun _ => Occupancy.unknown)

omit hk in
theorem idle_foldl_apply {s : Snapshot} {acts : List SlotAction} (hs : Idle l keep s)
    (h : ∀ a ∈ acts, keep a.path.root) : Idle l keep (acts.foldl SlotAction.apply s) := by
  constructor
  · rw [SlotAction.shape_foldl_apply, hs.1]
  · rw [SlotAction.select_foldl_apply_of_not (fun a ha => by simp [h a ha]), hs.2]

/-- Selecting the variables that a routine mentions turns its problem over a layout into its problem
over the selected layout. -/
theorem projects_select : (r.problem l).flow.Projects (r.problem (l.select keep)).flow
    (Layout.select keep) (Idle l keep) := by
  have hblank : Idle l keep (r.problem l).blank ∧
      Layout.select keep (r.problem l).blank = (r.problem (l.select keep)).blank :=
    ⟨⟨l.shape_map _, rfl⟩, Layout.select_map _ keep l⟩
  have harrivals := keep_of_mem_arrivals hk
  have hentry : Idle l keep (r.problem l).entry ∧
      Layout.select keep (r.problem l).entry = (r.problem (l.select keep)).entry := by
    refine ⟨idle_foldl_apply hblank.1 harrivals, ?_⟩
    refine (SlotAction.select_foldl_apply harrivals _).trans ?_
    rw [Layout.select_map]
    rfl
  refine ⟨rfl, fun _ => rfl, fun _ => rfl, fun b => ?_, fun _ => hblank, ?_, ?_, ?_⟩
  · change Idle l keep ((r.problem l).initialIn b) ∧
      Layout.select keep ((r.problem l).initialIn b) = (r.problem (l.select keep)).initialIn b
    unfold OccupancyProblem.initialIn
    split
    · next hb => rwa [if_pos (by exact hb)]
    · next hb => rwa [if_neg (by exact hb)]
  · intro s t hs ht
    have hshape := hs.1.trans ht.1.symm
    refine ⟨⟨(Layout.shape_zipWith _ hshape).trans hs.1, ?_⟩, Layout.select_zipWith hshape⟩
    refine (Layout.select_zipWith hshape).trans ?_
    rw [hs.2, ht.2]
    exact Layout.zipWith_self (fun o => Occupancy.isJoin_meet.self o trivial) _
  · intro s b hs
    have hacts := keep_of_mem_actions hk b
    exact ⟨idle_foldl_apply hs hacts, SlotAction.select_foldl_apply hacts s⟩
  · intro s t hs ht heq
    exact Layout.eq_of_select (hs.1.trans ht.1.symm) heq (hs.2.trans ht.2.symm)

theorem map_solve_select (hg : ControlGraph.faults r = []) :
    (r.problem l).solve.map (Layout.select keep) = (r.problem (l.select keep)).solve := by
  have hlink := ControlGraph.mem_successors_of_mem_predecessors hg
  have hends : ∀ k, (r.problem k).flow.EndsIn (r.problem k).solve := fun k =>
    ⟨OccupancyProblem.pending_solve hlink, _, rfl⟩
  exact ((projects_select hk).endsIn_map (hends l)).unique (hends (l.select keep))

end Problem

section Passes

variable (h : wide.Widens env (Declarations.ofRoutine r).sites.keys)
include h

theorem faults_of_widens : Declarations.faults r wide = Declarations.faults r env := by
  have huntyped : (Declarations.ofRoutine r).untyped wide =
      (Declarations.ofRoutine r).untyped env := by
    refine List.filter_congr ?_
    rintro ⟨name, site⟩ hmem
    have hname : name ∈ (Declarations.ofRoutine r).sites.keys := List.mem_map.mpr ⟨_, hmem, rfl⟩
    exact congrArg (!·) (h.contains_eq hname)
  rw [Declarations.faults, Declarations.faults, huntyped]

/-- If the passes run, what they find is the same, and the solution over the smaller environment is
selected from the one over the larger. -/
theorem occupancyPass_of_widens (hd : Declarations.faults r env = [])
    (hg : ControlGraph.faults r = []) :
    r.occupancyPass env = ((r.occupancyPass wide).1.map (·.map (Layout.select env.contains)),
      (r.occupancyPass wide).2) := by
  have hk : ∀ id ∈ Declarations.mentions r, env.contains id.name :=
    fun id hid => Declarations.contains_of_faults hd ⟨id, hid, rfl⟩
  have hlayout := h.layout_eq
  cases hl : wide.layout with
  | error e =>
    rw [hl] at hlayout
    rw [occupancyPass, occupancyPass, occupancyProblem_of_layout_error hlayout,
      occupancyProblem_of_layout_error hl]
    rfl
  | ok l =>
    rw [hl] at hlayout
    have hsolve := map_solve_select hk (l := l) hg
    have hfaults := OccupancySolution.faults_select (s := (r.problem l).solve)
      (keep_of_mem_sites hk) (keep_of_mem_actions hk)
    rw [hsolve] at hfaults
    rw [occupancyPass, occupancyPass, occupancyProblem_of_declared hlayout hd,
      occupancyProblem_of_declared hl (faults_of_widens h ▸ hd)]
    exact Prod.ext (congrArg some hsolve.symm) (congrArg (List.map _) hfaults)

theorem memoryPass_of_widens (hd : Declarations.faults r env = []) :
    r.memoryPass wide = r.memoryPass env := by
  have hk : ∀ id ∈ Declarations.mentions r, env.contains id.name :=
    fun id hid => Declarations.contains_of_faults hd ⟨id, hid, rfl⟩
  have hlayout := h.layout_eq
  rw [memoryPass, memoryPass, InstructionMarks.ofBody_eq, InstructionMarks.ofBody_eq]
  cases hl : wide.layout with
  | error e =>
    rw [hl] at hlayout
    rw [hlayout]
    rfl
  | ok l =>
    rw [hl] at hlayout
    rw [hlayout]
    simp only [Except.map, InstructionMarks.diagnostics, h.types_eq, List.flatMap_map]
    refine List.flatMap_congr fun i hi => ?_
    rw [InstructionMarks.faults_check_select (keep_of_mem_memories hk hi)]

theorem found_of_widens (pass : Pass) : r.found wide pass = r.found env pass := by
  unfold found
  rw [faults_of_widens h]
  cases pass with
  | declarations => rfl
  | graph => rfl
  | occupancy =>
    dsimp only
    split
    · next hno => rw [occupancyPass_of_widens h hno.1 hno.2]
    · rfl
  | memory =>
    dsimp only
    split
    · next hd => exact memoryPass_of_widens h hd
    · rfl

end Passes

/-- Further variables in the environment that a routine does not mention, and that can be laid out,
make no difference to what is reported, to the graph, and to whether there is a solution. If there
is one, the solver has made the same number of visits, and before and after each block the slots of
the other variables are in the same states. -/
theorem verify_widens (r : Routine) (wide env : Environment) (config : QueueConfig)
    (h : wide.Widens env (Declarations.ofRoutine r).sites.keys) :
    (r.verify wide config).diagnostics = (r.verify env config).diagnostics ∧
    (r.verify wide config).graph = (r.verify env config).graph ∧
    (r.verify wide config).solution.isSome = (r.verify env config).solution.isSome ∧
    ∀ s s', (r.verify env config).solution = some s → (r.verify wide config).solution = some s' →
      s'.visits.length = s.visits.length ∧
      ∀ b path, env.contains path.root →
        (s'.input? b).map (Layout.slot · path) = (s.input? b).map (Layout.slot · path) ∧
        (s'.output? b).map (Layout.slot · path) = (s.output? b).map (Layout.slot · path) := by
  have hsolution : (r.verify env config).solution =
      (r.verify wide config).solution.map (·.map (Layout.select env.contains)) := by
    rw [solution_verify, solution_verify, faults_of_widens h]
    split
    · next hno => rw [occupancyPass_of_widens h hno.1 hno.2]
    · rfl
  refine ⟨?_, rfl, ?_, fun s s' hs hs' => ?_⟩
  · have hshown : r.shown wide config = r.shown env config := by
      funext pass
      rw [shown, shown, passQueue_eq, passQueue_eq, found_of_widens h, faults_of_widens h]
    rw [diagnostics_verify, diagnostics_verify, hshown]
  · rw [hsolution, Option.isSome_map]
  · rw [hs, hs'] at hsolution
    obtain rfl := Option.some.inj hsolution
    refine ⟨(List.length_map _).symm, fun b path hpath => ?_⟩
    have hslot : ∀ t : Snapshot, Layout.slot (Layout.select env.contains t) path =
        Layout.slot t path := fun t => Layout.slot_select hpath
    rw [FlowState.input?_map, FlowState.output?_map]
    simp only [Option.map_map, Function.comp_def, hslot, and_self]

end Routine

namespace Carry

/-- One more variable, between those of the routine in the order of names. It holds a reference to a
type that is not defined. -/
def wideEnv : Environment :=
  env.declare "s" (.record [("x", .int), ("next", .reference (.named "Elsewhere"))])

def wideSlot : Slot Ty :=
  .inner (.leaf "x" .int (.leaf "next" (.reference (.named "Elsewhere")) .nil))

theorem widens_wideEnv : wideEnv.Widens env (Declarations.ofRoutine routine).sites.keys := by
  have hty : Layout.ofTy env.types (.record [("x", .int), ("next",
      .reference (.named "Elsewhere"))]) = .ok wideSlot := by decide +kernel
  exact Environment.widens_declare (by decide +kernel) (by decide +kernel) hty

theorem isSome_solution : (routine.verify env .standard).solution.isSome := by
  have hg : ControlGraph.faults routine = [] := by decide +kernel
  have hd : Declarations.faults routine env = [] := by
    rw [← List.isEmpty_iff]
    decide +kernel
  have hl : env.layout = .ok layout := by decide +kernel
  rw [Routine.solution_verify, if_pos ⟨hd, hg⟩, Routine.occupancyPass,
    Routine.occupancyProblem_of_declared hl hd]
  rfl

/-- The loop is solved in the same number of visits, and `p` is in the same state after its body. -/
theorem verify_widens_carry :
    wideEnv.Widens env (Declarations.ofRoutine routine).sites.keys ∧
    (routine.verify wideEnv .standard).diagnostics = (routine.verify env .standard).diagnostics ∧
    ∃ s s', (routine.verify env .standard).solution = some s ∧
      (routine.verify wideEnv .standard).solution = some s' ∧
      s'.visits.length = s.visits.length ∧
      (s'.output? 1).map (Layout.slot · ⟨"p", ["x"]⟩) =
        (s.output? 1).map (Layout.slot · ⟨"p", ["x"]⟩) := by
  obtain ⟨hdiag, -, hsome, hstates⟩ :=
    Routine.verify_widens routine wideEnv env .standard widens_wideEnv
  obtain ⟨s, hs⟩ := Option.isSome_iff_exists.mp isSome_solution
  obtain ⟨s', hs'⟩ := Option.isSome_iff_exists.mp (hsome.trans isSome_solution)
  obtain ⟨hvisits, hslots⟩ := hstates s s' hs hs'
  exact ⟨widens_wideEnv, hdiag, s, s', hs, hs', hvisits,
    (hslots 1 ⟨"p", ["x"]⟩ (by decide +kernel)).2⟩

end Carry

end Reversible
