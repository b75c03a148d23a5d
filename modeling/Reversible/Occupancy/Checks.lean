import Reversible.Occupancy.Fault
import Reversible.Occupancy.Flow

/-! # Checks on a solution

Three checks read the snapshots of a solution. `conflicts` finds the variables that are
initialized on one way and finalized on another. `replay` goes through each block from the
snapshot before it and asks whether each slot is in the right state for what is done to it.
`ending` asks whether the outputs, and only they, are initialized when the routine ends.
-/

namespace Reversible

abbrev OccupancySolution := FlowState Nat Snapshot

namespace OccupancySolution

/-- The conflicting leaves among `leaves` after a block, joined. -/
def conflictAfter (s : OccupancySolution) (leaves : List ResourcePath) (block : Nat) : Occupancy :=
  match s.output? block with
  | none => .unknown
  | some snapshot =>
    ((leaves.filterMap fun leaf => (Layout.leafAt snapshot leaf).toOption).filter
      (·.isConflict)).foldl Occupancy.meet .unknown

/-- The conflict of some leaves, joined over the blocks that pass a test. -/
def blame (g : ControlGraph) (s : OccupancySolution) (leaves : List ResourcePath)
    (isBlamed : Nat → Bool) : Occupancy :=
  ((g.ids.filter isBlamed).map (s.conflictAfter leaves)).foldl Occupancy.meet .unknown

/-- The conflict of some leaves where it arises: in the blocks that no conflicting block leads
to or, if there are none, in those that some block without conflict leads to. -/
def conflictOf (g : ControlGraph) (s : OccupancySolution) (leaves : List ResourcePath) :
    Occupancy :=
  let isConflicting (b : Nat) := !(s.conflictAfter leaves b).isUnknown
  let origin := blame g s leaves fun b => !(g.predecessors b).any isConflicting
  if origin.isConflict then origin
  else blame g s leaves fun b => (g.predecessors b).any fun p => !isConflicting p

def conflicts (g : ControlGraph) (s : OccupancySolution) (ds : Declarations) :
    List OccupancyFault :=
  match s.output? g.first with
  | none => []
  | some snapshot =>
    ds.sites.entries.filterMap fun (name, site) =>
      let state := conflictOf g s (snapshot.paths.filter (·.root == name))
      if state.isConflict then some (.conflict name site state) else none

end OccupancySolution

namespace SlotAction

/-- What is wrong with an action in a snapshot. Finalizing and using need an initialized slot,
initializing one that is not. An action on a slot that is not there is passed over. -/
def fault? (s : Snapshot) (a : SlotAction) : Option OccupancyFault :=
  match s.read a.path with
  | .error _ => none
  | .ok state =>
    match a with
    | finalizing path span =>
      if state.isInitialized then none else some (.cannotFinalize path span state)
    | reading path span => if state.isInitialized then none else some (.cannotUse path span state)
    | initializing path span =>
      if state.isFinalized || state.isUnknown then none
      else some (.cannotInitialize path span state)

/-- The snapshot after an action that is only carried out if nothing is wrong with it. -/
def applyChecked (s : Snapshot) (a : SlotAction) : Snapshot :=
  match a.fault? s with
  | none => a.apply s
  | some _ => s

def replay : Snapshot → List SlotAction → List OccupancyFault
  | _, [] => []
  | s, a :: rest => (a.fault? s).toList ++ replay (a.applyChecked s) rest

end SlotAction

namespace OccupancySolution

/-- The faults of all blocks, each from the snapshot before it. -/
def replay (g : ControlGraph) (s : OccupancySolution) : List OccupancyFault :=
  g.ids.flatMap fun b =>
    match s.input? b with
    | none => []
    | some snapshot => SlotAction.replay snapshot ((g.instructions b).flatMap Instruction.actions)

def replayEvents (g : ControlGraph) (s : OccupancySolution) : List Event :=
  g.ids.flatMap fun b =>
    match s.input? b with
    | none => []
    | some snapshot =>
      ((g.instructions b).flatMap Instruction.actions).flatMap (SlotAction.missing snapshot)

/-- The declared variables, outputs before others, each group in name order. -/
def endOrder (ds : Declarations) : List (Name × Span) :=
  ds.sites.entries.filter (fun (name, _) => ds.isOutput name) ++
    ds.sites.entries.filter (fun (name, _) => !ds.isOutput name)

def endFault? (s : Snapshot) (ds : Declarations) (name : Name) (site : Span) :
    Option OccupancyFault :=
  match s.read (.ofVariable name) with
  | .error _ => none
  | .ok state =>
    if ds.isOutput name then
      if state.isInitialized then none else some (.outputNotInitialized name site state)
    else if state.isFinalized then none
    else some (.variableNotFinalized name site state)

def ending (g : ControlGraph) (s : OccupancySolution) (ds : Declarations) : List OccupancyFault :=
  match s.output? g.last with
  | none => []
  | some snapshot => (endOrder ds).filterMap fun (name, site) => endFault? snapshot ds name site

def endEvents (g : ControlGraph) (s : OccupancySolution) (ds : Declarations) : List Event :=
  match s.output? g.last with
  | none => []
  | some snapshot => (endOrder ds).flatMap fun (name, _) =>
    match snapshot.read (.ofVariable name) with
    | .error e => [.variableMissing name e]
    | .ok _ => []

/-- Conflicts and, only if there are none, the faults of blocks and of the end. -/
def faults (g : ControlGraph) (s : OccupancySolution) (ds : Declarations) : List OccupancyFault :=
  match conflicts g s ds with
  | [] => replay g s ++ ending g s ds
  | cs => cs

end OccupancySolution

def OccupancyProblem.analysisEvents (p : OccupancyProblem) (ds : Declarations) : List Event :=
  let s := p.solve
  let reported := (OccupancySolution.conflicts p.graph s ds).length
  p.events ++
    [.occupancySolved p.graph.routine p.graph.size s.visits.length,
      .conflictsChecked p.graph.routine reported] ++
    if reported = 0 then
      OccupancySolution.replayEvents p.graph s ++ OccupancySolution.endEvents p.graph s ds
    else []

end Reversible
