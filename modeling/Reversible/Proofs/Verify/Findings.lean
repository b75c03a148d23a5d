import Reversible.Proofs.Layout.Map
import Reversible.Proofs.Occupancy.Checks

/-! # What is found, apart from where

A finding is the code of a diagnostic with its message. It names variables and places in memory, but
no position in the source. Without a limit on their number, the findings of a routine are those of
its passes, one after the other. The findings of each pass are said here through names, leaves and
snapshots, so that two routines can be compared.
-/

namespace Reversible

abbrev Finding := Code × String

/-- What a diagnostic says, without the places that it points to. -/
def Diagnostic.finding (d : Diagnostic) : Finding := (d.code, d.message)

def RoutineReport.findings (report : RoutineReport) : List Finding :=
  report.diagnostics.map (·.finding)

theorem RoutineReport.isAccepted_eq (report : RoutineReport) :
    report.isAccepted = report.findings.isEmpty := by
  rw [isAccepted, findings, List.isEmpty_map]

namespace Declarations

variable {r r' : Routine} {env : Environment}

/-- Two routines have parameters of the same names and mention the same variables. -/
structure Alike (r r' : Routine) : Prop where
  inputs : r.inputs.map (·.id.name) = r'.inputs.map (·.id.name)
  outputs : r.outputs.map (·.id.name) = r'.outputs.map (·.id.name)
  mentions : ∀ name, (∃ id ∈ mentions r, id.name = name) ↔ ∃ id ∈ mentions r', id.name = name

def repeatedFinding (name : Name) : Finding :=
  (DeclarationFault.repeatedParameter ⟨⟨name, .dummy⟩, none, .dummy⟩ .dummy).diagnostic.finding

def untypedFinding (name : Name) : Finding :=
  (DeclarationFault.untypedVariable name .dummy).diagnostic.finding

theorem map_finding_repeatedParams (params : List Param) :
    (repeatedParams params).map (·.diagnostic.finding) =
      (repeats id (params.map (·.id.name))).map fun (_, name) => repeatedFinding name := by
  rw [repeatedParams, repeats_map, List.map_map, List.map_map]
  rfl

theorem map_finding_faults (r : Routine) (env : Environment) :
    (faults r env).map (·.diagnostic.finding) =
      ((repeats id (r.inputs.map (·.id.name))).map fun (_, name) => repeatedFinding name) ++
      ((repeats id (r.outputs.map (·.id.name))).map fun (_, name) => repeatedFinding name) ++
      ((ofRoutine r).sites.keys.filter fun name => !env.contains name).map untypedFinding := by
  rw [faults, List.map_append, List.map_append, map_finding_repeatedParams,
    map_finding_repeatedParams, List.map_map, untyped, NameMap.keys, List.filter_map, List.map_map]
  rfl

namespace Alike

variable (h : Alike r r')
include h

theorem symm : Alike r' r :=
  ⟨h.inputs.symm, h.outputs.symm, fun name => (h.mentions name).symm⟩

theorem keys_eq : (ofRoutine r).sites.keys = (ofRoutine r').sites.keys := by
  refine NameMap.keys_eq_of_mem_iff fun name => ?_
  rw [mem_keys_sites_iff, mem_keys_sites_iff, h.mentions]

theorem isOutput_eq (name : Name) :
    (ofRoutine r).isOutput name = (ofRoutine r').isOutput name := by
  have hmem : ∀ {s : Routine}, (∃ q ∈ s.outputs, q.id.name = name) ↔
      name ∈ s.outputs.map (·.id.name) := List.mem_map.symm
  rw [Bool.eq_iff_iff, isOutput_iff, isOutput_iff, hmem, hmem, h.outputs]

theorem findings_eq (env : Environment) :
    (faults r env).map (·.diagnostic.finding) = (faults r' env).map (·.diagnostic.finding) := by
  rw [map_finding_faults, map_finding_faults, h.inputs, h.outputs, h.keys_eq]

theorem faults_eq_nil_iff : faults r env = [] ↔ faults r' env = [] := by
  rw [← List.map_eq_nil_iff, h.findings_eq env, List.map_eq_nil_iff]

end Alike

end Declarations

def SlotAction.findings (s : Snapshot) (acts : List SlotAction) : List Finding :=
  (replay s acts).map (·.diagnostic.finding)

namespace OccupancySolution

variable {g : ControlGraph} {s : OccupancySolution} {ds : Declarations} {t : Snapshot}

def conflictFinding (name : Name) : Finding :=
  (OccupancyFault.conflict name .dummy .unknown).diagnostic.finding

/-- The variables in conflict, where `paths` are those of all leaves. -/
def conflictNames (g : ControlGraph) (s : OccupancySolution) (ds : Declarations)
    (paths : List ResourcePath) : List Name :=
  ds.sites.keys.filter fun name => (conflictOf g s (paths.filter (·.root == name))).isConflict

theorem map_finding_conflicts (ht : s.output? g.first = some t) :
    (conflicts g s ds).map (·.diagnostic.finding) =
      (conflictNames g s ds t.paths).map conflictFinding := by
  rw [conflicts, ht, conflictNames, NameMap.keys, List.filter_map, List.map_map, List.map_filterMap,
    ← List.filterMap_eq_map, List.filterMap_filter]
  refine List.filterMap_congr fun e _ => ?_
  by_cases hc : (conflictOf g s (t.paths.filter (·.root == e.1))).isConflict
  · simp [hc, conflictFinding, OccupancyFault.diagnostic, Diagnostic.finding]
  · simp [hc]

def endFinding? (t : Snapshot) (ds : Declarations) (name : Name) : Option Finding :=
  (endFault? t ds name .dummy).map (·.diagnostic.finding)

theorem map_finding_endFault? (t : Snapshot) (ds : Declarations) (name : Name) (site : Span) :
    (endFault? t ds name site).map (·.diagnostic.finding) = endFinding? t ds name := by
  rw [endFinding?, endFault?, endFault?]
  cases t.read (.ofVariable name) with
  | error e => rfl
  | ok state =>
    simp only [apply_ite (Option.map _)]
    rfl

def endFindings (t : Snapshot) (ds : Declarations) : List Finding :=
  (ds.sites.keys.filter ds.isOutput ++ ds.sites.keys.filter (!ds.isOutput ·)).filterMap
    (endFinding? t ds)

theorem endFindings_congr {r r' : Routine} (h : Declarations.Alike r r') (t : Snapshot) :
    endFindings t (.ofRoutine r) = endFindings t (.ofRoutine r') := by
  have hisOutput : (Declarations.ofRoutine r).isOutput = (Declarations.ofRoutine r').isOutput :=
    funext h.isOutput_eq
  have hfinding : endFinding? t (.ofRoutine r) = endFinding? t (.ofRoutine r') := by
    ext name
    rw [endFinding?, endFinding?, endFault?, endFault?, hisOutput]
  rw [endFindings, endFindings, hfinding, hisOutput, h.keys_eq]

theorem map_finding_ending (ht : s.output? g.last = some t) :
    (ending g s ds).map (·.diagnostic.finding) = endFindings t ds := by
  have hkeys : ds.sites.keys.filter ds.isOutput ++ ds.sites.keys.filter (!ds.isOutput ·) =
      (endOrder ds).map (·.1) := by
    rw [endOrder, List.map_append, NameMap.keys, List.filter_map, List.filter_map]
    rfl
  rw [ending, ht, endFindings, hkeys, List.filterMap_map, List.map_filterMap]
  exact List.filterMap_congr fun e _ => map_finding_endFault? t ds e.1 e.2

theorem map_finding_faults {t₀ : Snapshot} (h₀ : s.output? g.first = some t₀)
    (ht : s.output? g.last = some t) :
    (faults g s ds).map (·.diagnostic.finding) =
      if conflictNames g s ds t₀.paths = [] then
        (replay g s).map (·.diagnostic.finding) ++ endFindings t ds
      else (conflictNames g s ds t₀.paths).map conflictFinding := by
  have hnil : conflictNames g s ds t₀.paths = [] ↔ conflicts g s ds = [] := by
    rw [← List.map_eq_nil_iff, ← map_finding_conflicts h₀, List.map_eq_nil_iff]
  rw [faults, ← map_finding_ending ht, ← map_finding_conflicts h₀]
  cases hc : conflicts g s ds with
  | nil => rw [if_pos (hnil.mpr hc), List.map_append]
  | cons c cs => rw [if_neg (hnil.not.mpr (by simp [hc]))]

end OccupancySolution

def Snapshot.Disagrees (s : Snapshot) (leaves : List ResourcePath) : Prop :=
  ∃ path ∈ leaves, ∃ o, Layout.leafAt s path = .ok o ∧ o.isConflict

theorem Snapshot.disagrees_iff {s : Snapshot} {leaves : List ResourcePath} : s.Disagrees leaves ↔
    ∃ path ∈ leaves, (Layout.map Occupancy.isConflict s).leafAt path = .ok true := by
  refine exists_congr fun path => and_congr_right fun _ => ?_
  rw [Layout.leafAt_map]
  cases Layout.leafAt s path <;> simp [Except.map]

theorem Snapshot.disagrees_congr {s t : Snapshot}
    (h : Layout.map Occupancy.isConflict s = Layout.map Occupancy.isConflict t)
    (leaves : List ResourcePath) : s.Disagrees leaves ↔ t.Disagrees leaves := by
  rw [disagrees_iff, disagrees_iff, h]

theorem ControlGraph.origin_congr {g g' : ControlGraph} {C C' : Nat → Prop} {σ : Nat → Nat}
    {d e : Nat} (hpred : g'.predecessors e = (g.predecessors d).map σ)
    (h : ∀ c ∈ g.ids, C' (σ c) ↔ C c) :
    ((∀ c ∈ g'.predecessors e, ¬ C' c) ∨ ∃ c ∈ g'.predecessors e, ¬ C' c) ↔
      (∀ c ∈ g.predecessors d, ¬ C c) ∨ ∃ c ∈ g.predecessors d, ¬ C c := by
  have hc : ∀ c ∈ g.predecessors d, (¬ C' (σ c) ↔ ¬ C c) := fun c hc =>
    not_congr (h c (OccupancyProblem.mem_ids_of_mem_predecessors hc))
  rw [hpred, List.forall_mem_map]
  simp only [List.mem_map, exists_exists_and_eq_and]
  exact or_congr (forall₂_congr hc) (exists_congr fun c => and_congr_right (hc c))

theorem ControlGraph.Arises.congr {g : ControlGraph} {C D : Nat → Prop}
    (h : ∀ b ∈ g.ids, C b ↔ D b) : g.Arises C ↔ g.Arises D := by
  refine exists_congr fun b => and_congr_right fun hb => and_congr (h b hb) ?_
  exact origin_congr (List.map_id _).symm h

def Instruction.memoryFindings (i : Instruction) (blank : MarkTable) : List Finding :=
  (InstructionMarks.check blank i).faults.map (·.diagnostic.finding)

namespace OccupancyProblem

variable {p p' : OccupancyProblem} {ins outs ins' outs' : Nat → Snapshot} {d e : Nat}

theorem Solves.input?_congr (h : p.Solves ins outs) (h' : p'.Solves ins' outs')
    (hids : e ∈ p'.graph.ids ↔ d ∈ p.graph.ids) (hin : d ∈ p.graph.ids → ins' e = ins d) :
    p'.solve.input? e = p.solve.input? d := by
  rw [h.input?_eq, h'.input?_eq]
  by_cases hd : d ∈ p.graph.ids
  · rw [if_pos hd, if_pos (hids.mpr hd), hin hd]
  · rw [if_neg hd, if_neg (hids.not.mpr hd)]

theorem Solves.output?_congr (h : p.Solves ins outs) (h' : p'.Solves ins' outs')
    (hids : e ∈ p'.graph.ids ↔ d ∈ p.graph.ids) (hout : d ∈ p.graph.ids → outs' e = outs d) :
    p'.solve.output? e = p.solve.output? d := by
  rw [h.output?_eq, h'.output?_eq]
  by_cases hd : d ∈ p.graph.ids
  · rw [if_pos hd, if_pos (hids.mpr hd), hout hd]
  · rw [if_neg hd, if_neg (hids.not.mpr hd)]

end OccupancyProblem

namespace Routine

variable {r : Routine} {env : Environment} {l : Layout Ty} {ins outs : Nat → Snapshot} {b : Nat}

/-- The findings of a routine: after faults of its declarations nothing else, and those of its slots
only if its graph has no fault. -/
theorem findings_verify (r : Routine) (env : Environment) :
    (r.verify env .unlimited).findings =
      if Declarations.faults r env = [] then
        (ControlGraph.faults r).map (·.diagnostic.finding) ++
          (if ControlGraph.faults r = [] then (r.occupancyPass env).2.map (·.finding) else []) ++
          (r.memoryPass env).map (·.finding)
      else (Declarations.faults r env).map (·.diagnostic.finding) := by
  have hdf : (r.declarationQueue env .unlimited).flushed =
      (Declarations.faults r env).map (·.diagnostic) := Queue.flushed_ofList_unlimited _
  have hgf : (r.graphQueue .unlimited).flushed = (ControlGraph.faults r).map (·.diagnostic) :=
    Queue.flushed_ofList_unlimited _
  simp only [RoutineReport.findings, verify, hasErrors_declarationQueue, hasErrors_graphQueue]
  by_cases hd : Declarations.faults r env = []
  · by_cases hg : ControlGraph.faults r = []
    · simp [hd, hg, hdf, hgf]
    · simp [hd, hg, hdf, hgf]
  · simp [hd, hdf, Function.comp_def]

def typeFinding (e : TypeError) : Finding :=
  (.internal, "internal verifier error: " ++ e.message)

theorem map_finding_occupancyPass (hd : Declarations.faults r env = []) :
    (r.occupancyPass env).2.map (·.finding) =
      match env.layout with
      | .error e => [typeFinding e]
      | .ok l => (OccupancySolution.faults (.ofRoutine r) (r.problem l).solve (.ofRoutine r)).map
          (·.diagnostic.finding) := by
  cases hl : env.layout with
  | error e =>
    rw [occupancyPass, occupancyProblem_of_layout_error hl]
    rfl
  | ok l =>
    rw [occupancyPass, occupancyProblem_of_declared hl hd]
    exact List.map_map

theorem map_finding_memoryPass (r : Routine) (env : Environment) :
    (r.memoryPass env).map (·.finding) =
      match env.layout with
      | .error e => [typeFinding e]
      | .ok l => r.body.flatMap (·.memoryFindings ⟨env.types, l.map MarkTable.slotTree⟩) := by
  cases hl : env.layout with
  | error e =>
    rw [memoryPass, InstructionMarks.ofBody_eq, hl]
    rfl
  | ok l =>
    rw [memoryPass, InstructionMarks.ofBody_eq, hl]
    simp only [Except.map, InstructionMarks.diagnostics, List.map_flatMap, List.map_map,
      List.flatMap_map]
    rfl

def conflictNames (r : Routine) (l : Layout Ty) : List Name :=
  OccupancySolution.conflictNames (.ofRoutine r) (r.problem l).solve (.ofRoutine r) l.paths

/-- Two routines have the same variables in conflict if conflicts arise in one if and only if they
arise in the other. -/
theorem conflictNames_congr {r' : Routine} {ins' outs' : Nat → Snapshot}
    (ha : Declarations.Alike r r') (h : (r.problem l).Solves ins outs)
    (h' : (r'.problem l).Solves ins' outs')
    (harises : ∀ leaves, (ControlGraph.ofRoutine r').Arises (fun b => (outs' b).Disagrees leaves) ↔
      (ControlGraph.ofRoutine r).Arises fun b => (outs b).Disagrees leaves) :
    r'.conflictNames l = r.conflictNames l := by
  have hconf : ∀ {s : Routine} {ins outs : Nat → Snapshot}, (s.problem l).Solves ins outs →
      ∀ leaves,
        (OccupancySolution.conflictOf (.ofRoutine s) (s.problem l).solve leaves).isConflict ↔
          (ControlGraph.ofRoutine s).Arises fun b => (outs b).Disagrees leaves := by
    intro s ins outs h leaves
    refine OccupancySolution.isConflict_conflictOf_iff.trans (ControlGraph.Arises.congr ?_)
    intro b hb
    have ho : (s.problem l).solve.output? b = some (outs b) := h.output? hb
    rw [OccupancySolution.Conflicting, ho]
    simp only [Option.some.injEq, exists_eq_left']
    rfl
  rw [conflictNames, conflictNames, OccupancySolution.conflictNames,
    OccupancySolution.conflictNames, ha.keys_eq]
  refine List.filter_congr fun name _ => ?_
  rw [Bool.eq_iff_iff, hconf h', hconf h, harises]

/-- The findings of a routine about its slots: the conflicts or, if there are none, those of the
blocks and of the end. -/
theorem map_finding_solve (h : (r.problem l).Solves ins outs) :
    (OccupancySolution.faults (.ofRoutine r) (r.problem l).solve (.ofRoutine r)).map
        (·.diagnostic.finding) =
      if r.conflictNames l = [] then
        ((ControlGraph.ofRoutine r).ids.flatMap fun b =>
          SlotAction.findings (ins b) ((r.problem l).actions b)) ++
        OccupancySolution.endFindings (outs (ControlGraph.ofRoutine r).last) (.ofRoutine r)
      else (r.conflictNames l).map OccupancySolution.conflictFinding := by
  have h0 : 0 ∈ (ControlGraph.ofRoutine r).ids := List.mem_range.mpr (ControlGraph.size_pos r)
  have hfirst : (r.problem l).solve.output? (ControlGraph.ofRoutine r).first = some (outs 0) :=
    h.output? h0
  have hlast : (r.problem l).solve.output? (ControlGraph.ofRoutine r).last =
    some (outs (ControlGraph.ofRoutine r).last) := h.output? (last_mem_ids r)
  have hpaths : (outs 0).paths = l.paths := Layout.paths_congr (outs_hasCauses h h0).1
  have hreplay : OccupancySolution.replay (.ofRoutine r) (r.problem l).solve =
      (ControlGraph.ofRoutine r).ids.flatMap fun b =>
        SlotAction.replay (ins b) ((r.problem l).actions b) := by
    refine List.flatMap_congr fun b hb => ?_
    have hi : (r.problem l).solve.input? b = some (ins b) := h.input? hb
    rw [hi]
    rfl
  rw [OccupancySolution.map_finding_faults hfirst hlast, hpaths, hreplay, List.map_flatMap]
  rfl

/-- All findings of a routine whose declarations and whose graph have no fault, over a layout. -/
def layoutFindings (r : Routine) (env : Environment) (l : Layout Ty) : List Finding :=
  (OccupancySolution.faults (.ofRoutine r) (r.problem l).solve (.ofRoutine r)).map
      (·.diagnostic.finding) ++
    r.body.flatMap (·.memoryFindings ⟨env.types, l.map MarkTable.slotTree⟩)

theorem findings_of_linked (hg : ControlGraph.faults r = []) :
    (r.verify env .unlimited).findings =
      if Declarations.faults r env = [] then
        match env.layout with
        | .error e => [typeFinding e, typeFinding e]
        | .ok l => r.layoutFindings env l
      else (Declarations.faults r env).map (·.diagnostic.finding) := by
  rw [findings_verify, if_pos hg, hg, List.map_nil, List.nil_append]
  by_cases hd : Declarations.faults r env = []
  · rw [if_pos hd, if_pos hd, map_finding_occupancyPass hd, map_finding_memoryPass]
    cases env.layout <;> rfl
  · rw [if_neg hd, if_neg hd]

/-- To compare two routines without faults of the graph and with the same declared names, it is
enough to compare what is found over a layout. -/
theorem findings_rel {r' : Routine} {R : List Finding → List Finding → Prop} (hR : ∀ fs, R fs fs)
    (ha : Declarations.Alike r r') (hg : ControlGraph.faults r = [])
    (hg' : ControlGraph.faults r' = [])
    (h : ∀ l, env.layout = .ok l → Declarations.faults r env = [] →
      R (r'.layoutFindings env l) (r.layoutFindings env l)) :
    R (r'.verify env .unlimited).findings (r.verify env .unlimited).findings := by
  rw [findings_of_linked hg, findings_of_linked hg', ha.findings_eq env]
  by_cases hd : Declarations.faults r env = []
  · rw [if_pos hd, if_pos (ha.faults_eq_nil_iff.mp hd)]
    cases hl : env.layout with
    | error e => exact hR _
    | ok l => exact h l hl hd
  · rw [if_neg hd, if_neg (ha.faults_eq_nil_iff.not.mp hd)]
    exact hR _

theorem occupancyProblem_cases {r' : Routine} (hi : r'.inputs = r.inputs) (env : Environment) :
    (∃ e, r.occupancyProblem env = .error e ∧ r'.occupancyProblem env = .error e) ∨
      ∃ l, env.layout = .ok l ∧ r.occupancyProblem env = .ok (r.problem l) ∧
        r'.occupancyProblem env = .ok (r'.problem l) := by
  have hinputs : (Declarations.ofRoutine r').inputs = (Declarations.ofRoutine r).inputs :=
    congrArg Declarations.uniqueParams hi
  cases hl : env.layout with
  | error e =>
    have hblank : Snapshot.blank env = .error e := by
      rw [Snapshot.blank, hl]
      rfl
    refine .inl ⟨.type e, ?_, ?_⟩
    · rw [occupancyProblem, OccupancyProblem.build, hblank]
    · rw [occupancyProblem, OccupancyProblem.build, hblank]
  | ok l =>
    have hblank : Snapshot.blank env = .ok (l.map fun _ => .unknown) := by
      rw [Snapshot.blank, hl]
      rfl
    cases hp : r.occupancyProblem env with
    | error e =>
      refine .inl ⟨e, rfl, ?_⟩
      rw [occupancyProblem, OccupancyProblem.build, hblank] at hp ⊢
      rw [hinputs]
      dsimp only at hp ⊢
      split at hp
      · exact hp
      · cases hp
    | ok p =>
      obtain ⟨hknown, rfl⟩ := (OccupancyProblem.build_eq_ok_iff hl).mp hp
      refine .inr ⟨l, rfl, rfl, (OccupancyProblem.build_eq_ok_iff hl).mpr ⟨?_, rfl⟩⟩
      rwa [hinputs]

/-- What agrees for the problems of two routines over each layout agrees in an environment, where
there may be no problem. -/
theorem map_occupancyProblem_congr {r' : Routine} {α : Type} {f f' : OccupancyProblem → α}
    (hi : r'.inputs = r.inputs) (h : ∀ l, f' (r'.problem l) = f (r.problem l))
    (env : Environment) : (r'.occupancyProblem env).map f' = (r.occupancyProblem env).map f := by
  rcases occupancyProblem_cases hi env with ⟨e, he, he'⟩ | ⟨l, -, hp, hp'⟩
  · rw [he, he']
    rfl
  · rw [hp, hp']
    exact congrArg Except.ok (h l)

end Routine

end Reversible
