import Reversible.Flow.Solver
import Reversible.Order.SortedSet

/-! # Problems given by tables

A graph is a list of nodes and a list of edges. Over it there are two kinds of problems: sets of
integers, where each node removes some members and adds others, and integers, where each node
adds a number and stays within bounds.
-/

namespace Reversible

/-- A graph with the values it starts from. Predecessors are read from a list of their own, so
the two views of the edges may differ. -/
structure FlowTable (Value : Type) where
  direction : Direction
  nodes : List Int
  edges : List (Int × Int)
  backEdges : List (Int × Int)
  default : Value
  ins : List (Int × Value)
  outs : List (Int × Value)

namespace FlowTable

variable {Value : Type}

/-- The last entry of a node. -/
def valueAt? {α : Type} (table : List (Int × α)) (n : Int) : Option α := table.reverse.lookup n

def problem (t : FlowTable Value) (combine : Value → Value → Value)
    (transfer : Value → Int → Value) : FlowProblem Int Value where
  direction := t.direction
  nodes := t.nodes
  predecessors n := (t.backEdges.filter (·.2 = n)).map (·.1)
  successors n := (t.edges.filter (·.1 = n)).map (·.2)
  initialIn n := (valueAt? t.ins n).getD t.default
  initialOut n := (valueAt? t.outs n).getD t.default
  combine := combine
  transfer := transfer

def seeds (t : FlowTable Value) : List Value :=
  t.default :: (t.ins ++ t.outs).map (·.2)

end FlowTable

inductive SetMeet where
  | union
  | intersection
deriving DecidableEq, Repr

/-- Sets of integers, where a node removes the members of `kill` and adds those of `gen`. -/
structure GenKill extends FlowTable (SortedSet Int) where
  combination : SetMeet
  gen : List (Int × SortedSet Int)
  kill : List (Int × SortedSet Int)

namespace GenKill

def transfer (g : GenKill) (value : SortedSet Int) (n : Int) : SortedSet Int :=
  (value \ (FlowTable.valueAt? g.kill n).getD ∅) ∪ (FlowTable.valueAt? g.gen n).getD ∅

def toProblem (g : GenKill) : FlowProblem Int (SortedSet Int) :=
  match g.combination with
  | .union => g.problem (· ∪ ·) g.transfer
  | .intersection => g.problem (· ∩ ·) g.transfer

def domain (g : GenKill) : SortedSet Int :=
  (g.seeds ++ g.gen.map (·.2)).foldl (· ∪ ·) ∅

/-- A result jumps once from where it starts, and then it only grows or only shrinks. -/
def height (g : GenKill) : Nat := g.domain.size + 2

end GenKill

inductive IntMeet where
  | max
  | min
deriving DecidableEq, Repr

/-- Integers, where a node with an entry in `gen` adds it and keeps the sum within bounds. -/
structure Counter extends FlowTable Int where
  combination : IntMeet
  gen : List (Int × Int)
  lower : Int
  upper : Int

namespace Counter

def clamp (c : Counter) (value : Int) : Int :=
  if value < c.lower then c.lower else if c.upper < value then c.upper else value

def transfer (c : Counter) (value : Int) (n : Int) : Int :=
  match FlowTable.valueAt? c.gen n with
  | none => value
  | some amount => c.clamp (value + amount)

def toProblem (c : Counter) : FlowProblem Int Int :=
  match c.combination with
  | .max => c.problem (fun a b => if a < b then b else a) c.transfer
  | .min => c.problem (fun a b => if b < a then b else a) c.transfer

/-- A result jumps once from where it starts, and then it only grows or only shrinks between
the bounds and the values started from. -/
def height (c : Counter) : Nat :=
  let top := c.seeds.foldl (fun a b => if a < b then b else a) c.upper
  let bottom := c.seeds.foldl (fun a b => if b < a then b else a) c.lower
  (top - bottom).toNat + 2

end Counter

end Reversible
