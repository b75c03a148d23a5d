import Mathlib.Data.List.Basic
import Reversible.Occupancy.Action
import Reversible.Proofs.Place.Occurrence

/-! # Bare syntax

The bare form of a piece of syntax has the same structure and the same names, but all its spans are
the dummy one, its parameters have no written type, and where storage carries a written type it is
always the same one. Two routines with the same bare form differ in their positions and written
types only. What syntax mentions and what instructions do is the same in the bare form, up to the
places that ask for it.
-/

namespace Reversible

def Ident.bare (id : Ident) : Ident := ⟨id.name, .dummy⟩

def Storage.bare : Storage → Storage
  | .slot id => .slot id.bare
  | .typed of _ _ => .typed of.bare (.record [] .dummy) .dummy
  | .member of id _ => .member of.bare id.bare .dummy

def Memory.bare : Memory → Memory
  | .deref of _ => .deref of.bare .dummy
  | .derefAgain of _ => .derefAgain of.bare .dummy
  | .member of id _ => .member of.bare id.bare .dummy

mutual

def Expr.bare : Expr → Expr
  | .int value _ => .int value .dummy
  | .null _ => .null .dummy
  | .record members _ => .record (Expr.bareMembers members) .dummy
  | .allocation of _ => .allocation of.bare .dummy
  | .storage place => .storage place.bare
  | .memory place => .memory place.bare

def Expr.bareMembers : List (Ident × Expr) → List (Ident × Expr)
  | [] => []
  | (id, value) :: rest => (id.bare, value.bare) :: Expr.bareMembers rest

end

def Arithmetic.bare : Arithmetic → Arithmetic
  | .binary lhs op rhs _ => .binary lhs.bare op rhs.bare .dummy
  | .value of => .value of.bare

def Condition.bare (c : Condition) : Condition := ⟨c.lhs.bare, c.op, c.rhs.bare, .dummy⟩

def Modifier.bare (m : Modifier) : Modifier := ⟨m.op, m.value.bare, .dummy⟩

def Instruction.bare : Instruction → Instruction
  | .assign dst src modifier _ => .assign dst.bare src.bare (modifier.map (·.bare)) .dummy
  | .assignMany dsts srcs _ => .assignMany (dsts.map (·.bare)) (srcs.map (·.bare)) .dummy
  | .call dsts srcs direction routine _ =>
    .call (dsts.map (·.bare)) (srcs.map (·.bare)) direction routine.bare .dummy
  | .jump direction label _ => .jump direction label.bare .dummy
  | .branch direction lhs rhs condition _ =>
    .branch direction lhs.bare rhs.bare condition.bare .dummy

def Param.bare (p : Param) : Param := ⟨p.id.bare, none, .dummy⟩

def Routine.bare (r : Routine) : Routine :=
  ⟨r.id.bare, r.inputs.map (·.bare), r.outputs.map (·.bare), r.body.map (·.bare), .dummy⟩

@[simp] theorem Ident.name_bare (id : Ident) : id.bare.name = id.name := rfl

namespace Storage

@[simp] theorem path_bare (place : Storage) : place.bare.path = place.path := by
  induction place with
  | slot id => rfl
  | typed of type span ih => exact ih
  | member of id span ih => exact congrArg (·.push id.name) ih

@[simp] theorem root_bare (place : Storage) : place.bare.root = place.root.bare := by
  induction place with
  | slot id => rfl
  | typed of type span ih => exact ih
  | member of id span ih => exact ih

@[simp] theorem span_bare (place : Storage) : place.bare.span = .dummy := by
  cases place <;> rfl

end Storage

namespace Memory

@[simp] theorem path_bare (place : Memory) : place.bare.path = place.path := by
  induction place with
  | deref of span => rw [bare, path, path, of.path_bare]
  | derefAgain of span ih => exact congrArg (·.push .deref) ih
  | member of id span ih => exact congrArg (·.push (.member id.name)) ih

@[simp] theorem base_bare (place : Memory) : place.bare.base = place.base.bare := by
  induction place with
  | deref of span => rfl
  | derefAgain of span ih => exact ih
  | member of id span ih => exact ih

@[simp] theorem span_bare (place : Memory) : place.bare.span = .dummy := by
  cases place <;> rfl

end Memory

namespace Expr

@[simp] theorem span_bare (e : Expr) : e.bare.span = .dummy := by
  cases e <;> simp [bare, span]

theorem bareMembers_eq (members : List (Ident × Expr)) :
    bareMembers members = members.map fun (id, value) => (id.bare, value.bare) := by
  induction members with
  | nil => rfl
  | cons m rest ih => rw [bareMembers, ih, List.map_cons]

theorem Collects.bare {α : Type} {c : Expr → List α} (h : Collects c) {f : α → α}
    (hstorage : ∀ place : Storage, c (.storage place.bare) = (c (.storage place)).map f)
    (hmemory : ∀ place : Memory, c (.memory place.bare) = (c (.memory place)).map f) (e : Expr) :
    c e.bare = (c e).map f := by
  induction e using inductionOn with
  | int value span => rw [Expr.bare, h.int, h.int, List.map_nil]
  | null span => rw [Expr.bare, h.null, h.null, List.map_nil]
  | record members span ih =>
    rw [Expr.bare, h.record, h.record, bareMembers_eq, List.flatMap_map, List.map_flatMap]
    exact List.flatMap_congr ih
  | allocation of span ih => rw [Expr.bare, h.allocation, h.allocation, ih]
  | storage place => exact hstorage place
  | memory place => exact hmemory place

@[simp] theorem resourcePaths_bare (e : Expr) : e.bare.resourcePaths = e.resourcePaths := by
  have hstorage : ∀ place : Storage, (Expr.storage place.bare).resourcePaths =
      (Expr.storage place).resourcePaths.map id := by
    intro place
    simp [resourcePaths]
  rw [collects_resourcePaths.bare hstorage (fun _ => rfl), List.map_id]

@[simp] theorem memories_bare (e : Expr) : e.bare.memories = e.memories.map (·.bare) :=
  collects_memories.bare (fun _ => rfl) (fun _ => rfl) e

@[simp] theorem roots_bare (e : Expr) : e.bare.roots = e.roots.map (·.bare) := by
  refine collects_roots.bare (fun place => ?_) (fun place => ?_) e
  · simp [roots]
  · simp [roots]

end Expr

namespace Instruction

@[simp] theorem created_bare (i : Instruction) : i.bare.created = i.created.map (·.bare) := by
  cases i <;> rfl

@[simp] theorem destroyed_bare (i : Instruction) : i.bare.destroyed = i.destroyed.map (·.bare) := by
  cases i <;> rfl

@[simp] theorem operands_bare (i : Instruction) : i.bare.operands = i.operands.map (·.bare) := by
  cases i with
  | assign dst src modifier span =>
    cases modifier with
    | none => rfl
    | some m => obtain ⟨op, value, s⟩ := m; cases value <;> rfl
  | _ => rfl

@[simp] theorem labels_bare (i : Instruction) : i.bare.labels = i.labels.map (·.bare) := by
  cases i <;> rfl

@[simp] theorem isEntryPoint_bare (i : Instruction) : i.bare.isEntryPoint = i.isEntryPoint := by
  cases i <;> rfl

@[simp] theorem isExitPoint_bare (i : Instruction) : i.bare.isExitPoint = i.isExitPoint := by
  cases i <;> rfl

@[simp] theorem span_bare (i : Instruction) : i.bare.span = .dummy := by
  cases i <;> rfl

@[simp] theorem roots_bare (i : Instruction) : i.bare.roots = i.roots.map (·.bare) := by
  simp [roots, List.flatMap_map, List.map_flatMap]

end Instruction

def SlotAction.bare : SlotAction → SlotAction
  | .finalizing path _ => .finalizing path .dummy
  | .reading path _ => .reading path .dummy
  | .initializing path _ => .initializing path .dummy

namespace Instruction

theorem finalizations_bare (i : Instruction) :
    i.bare.finalizations = i.finalizations.map (·.bare) := by
  simp [finalizations, List.flatMap_map, List.map_flatMap, Function.comp_def, SlotAction.bare]

theorem initializations_bare (i : Instruction) :
    i.bare.initializations = i.initializations.map (·.bare) := by
  simp [initializations, List.flatMap_map, List.map_flatMap, Function.comp_def, SlotAction.bare]

theorem followed_bare (i : Instruction) : i.bare.followed = i.followed.map (·.bare) := by
  simp [followed, List.flatMap_map, List.map_flatMap, Function.comp_def, SlotAction.bare]

theorem reads_bare (i : Instruction) : i.bare.reads = i.reads.map (·.bare) := by
  cases i with
  | assign dst src modifier span =>
    cases modifier with
    | none => rfl
    | some m =>
      have hpaths : m.value.bare.resourcePaths = m.value.resourcePaths := by
        cases hv : m.value <;>
          simp [Arithmetic.resourcePaths, Arithmetic.bare, Arithmetic.operands]
      simp [bare, reads, Modifier.bare, hpaths, Function.comp_def, SlotAction.bare]
  | branch direction lhs rhs condition span =>
    have hpaths : condition.bare.resourcePaths = condition.resourcePaths := by
      simp [Condition.resourcePaths, Condition.bare, Condition.operands]
    have hspan : condition.bare.span = .dummy := rfl
    simp [bare, reads, hpaths, hspan, Function.comp_def, SlotAction.bare]
  | _ => rfl

theorem actions_bare (i : Instruction) : i.bare.actions = i.actions.map (·.bare) := by
  rw [actions, actions, finalizations_bare, followed_bare, reads_bare, initializations_bare,
    List.map_append, List.map_append, List.map_append]

end Instruction

end Reversible
