import Reversible.Proofs.Marks.Tree

/-! # Two expansions of a type

The slots of a variable and the unmarked tree of a value are expanded from a type by two searches.
One passes every name of a chain of definitions, the other only the first and leaves the chain to a
search of its own. All three searches end, both expansions succeed on the types that unfold, and
they give the same structure.
-/

namespace Reversible

namespace MarkTree

/-- One step to the type that a name resolves to, where `next` expands the names in it. -/
def unfoldStep (types : TypeTable) (next : List Name → Name → Except TypeError MarkTree)
    (within : List Name) (name : Name) : Except TypeError MarkTree :=
  if name ∈ within then .error (.infinite name)
  else do unmarkedWith (next (name :: within)) (← types.resolve (.named name))

theorem advances_unfoldStep (types : TypeTable) : types.Advances (unfoldStep types) := by
  intro g g' within h
  funext name
  rw [unfoldStep, unfoldStep]
  split
  · rfl
  · next hw =>
    cases hres : types.resolve (.named name) with
    | error e => rfl
    | ok ty =>
      cases TypeTable.resolves_of_resolve hres with
      | refl hne => exact absurd rfl (hne name)
      | step hn _ => rw [h name (by simp [NameMap.contains, hn]) hw]

end MarkTree

/-- The searches that follow chains of names, lay out a type and build its unmarked tree are each
the only solution of their equation without a bound. A variable has a layout and its type an
unmarked tree if and only if the type unfolds. Then the tree has the structure of the layout, with a
reference where a leaf is one and with single values at the other leaves. -/
theorem TypeTable.expansions_agree (types : TypeTable) (ty : Ty) :
    (∀ g, g = types.followStep g ↔ g = types.follow (types.size + 1)) ∧
    (∀ g, g = Layout.unfoldStep types g ↔ g = Layout.unfoldName types (types.size + 1)) ∧
    (∀ g, g = MarkTree.unfoldStep types g ↔ g = MarkTree.unfoldName types (types.size + 1)) ∧
    (∀ x, (∃ l, ((Environment.ofTypes types).declare x ty).layout = .ok l) ↔ types.Unfolds ty) ∧
    ((∃ t, MarkTree.unmarked types ty = .ok t) ↔ types.Unfolds ty) ∧
    ∀ vars x l, vars.get? x = some ty → Environment.layout ⟨types, vars⟩ = .ok l →
      ∃ slot, l.slot (.ofVariable x) = .ok slot ∧ (∀ leaf ∈ slot.values, leaf.isPlain) ∧
        MarkTree.unmarked types ty = .ok (.ofSlot slot) := by
  refine ⟨fun g => types.advances_followStep.eq_step_iff types.follow_succ,
    fun g => (Layout.advances_unfoldStep types).eq_step_iff fun _ => rfl,
    fun g => (MarkTree.advances_unfoldStep types).eq_step_iff fun _ => rfl,
    fun x => ?_, MarkTree.exists_unmarked_iff, fun vars x l hx hl => ?_⟩
  · simp only [Environment.layout_eq_ok_iff]
    have hone : types.Unfolds ty ↔ types.Unfolds (.record [(x, ty)]) := by
      rw [unfolds_record_iff, List.forall_mem_singleton]
    rw [hone]
    constructor
    · rintro ⟨l, hl⟩
      exact hl.unfolds
    · intro h
      exact exists_laysOut_record fun m hm => (unfolds_record_iff.mp h m hm).exists_laysOut
  · obtain ⟨slot, hs, hlays⟩ := (Environment.layout_eq_ok_iff.mp hl).exists_find? hx
    exact ⟨slot, Layout.slot_ofVariable_iff.mpr hs, hlays.isPlain,
      MarkTree.unmarked_of_laysOut hlays⟩

namespace Linked

/-- Cells refer to cells, and the number in a cell is three names away. A loop holds itself, a ring
is a chain of names without end, and a gap is a structure with an undefined member. -/
def types : TypeTable :=
  [("Cell", .record [("value", .named "Count"), ("next", .reference (.named "Cell"))]),
    ("Count", .named "Word"), ("Word", .named "Number"), ("Number", .int),
    ("Pair", .record [("a", .named "Cell"), ("b", .named "Cell")]),
    ("Loop", .record [("first", .int), ("self", .named "Again")]), ("Again", .named "Loop"),
    ("Ring", .named "Rung"), ("Rung", .named "Ring"),
    ("Gap", .record [("first", .named "Nowhere")])].foldl (fun types d => types.insert d.1 d.2) ∅

def vars : NameMap Ty := ((∅ : NameMap Ty).insert "n" .int).insert "p" (.named "Pair")

def cell : Layout Ty := .leaf "value" .int (.leaf "next" (.reference (.named "Cell")) .nil)

def pair : Layout Ty := .node "a" cell (.node "b" cell .nil)

def cellTree : MarkTree :=
  .record [("value", .leaf false), ("next", .pointingTo (.named "Cell"))]

theorem expansions_agree_linked :
    Environment.layout ⟨types, vars⟩ = .ok (.leaf "n" .int (.node "p" pair .nil)) ∧
      types.Unfolds (.named "Pair") ∧
      MarkTree.unmarked types (.named "Pair") =
        .ok (.record [("a", cellTree), ("b", cellTree)]) ∧
      ∀ name ∈ ["Loop", "Ring", "Gap"], ¬ types.Unfolds (.named name) := by
  have hl : Environment.layout ⟨types, vars⟩ = .ok (.leaf "n" .int (.node "p" pair .nil)) := by
    decide +kernel
  obtain ⟨-, -, -, -, hiff, hagree⟩ := types.expansions_agree (.named "Pair")
  obtain ⟨slot, hs, -, ht⟩ := hagree vars "p" _ (by decide +kernel) hl
  obtain rfl : Slot.inner pair = slot := Except.ok.inj hs
  have hfail : ∀ name ∈ ["Loop", "Ring", "Gap"],
      (MarkTree.unmarked types (.named name)).isOk = false := by decide +kernel
  refine ⟨hl, hiff.mp ⟨_, ht⟩, ht, fun name hname hu => ?_⟩
  obtain ⟨-, -, -, -, hiff, -⟩ := types.expansions_agree (.named name)
  obtain ⟨t, ht⟩ := hiff.mpr hu
  have hno := hfail name hname
  rw [ht] at hno
  cases hno

end Linked

end Reversible
